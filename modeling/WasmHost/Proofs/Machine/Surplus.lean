import WasmHost.Proofs.Machine.Holdings
import WasmHost.Proofs.Machine.Routes
import WasmHost.Proofs.World.Surplus

/-!
# Running calls give up what they hold

The box of a value that code, a host function or a command holds is given up when the call ends,
however it ends. So a step of a well typed machine leaves no hold behind, with one exception: code
that offers a value to a table that does not grow. `Machine.Tight` is what a step keeps.
-/

namespace WasmHost

open Val World

variable {r : RefId} {H home : Multiset BoxId} {w : World}

/-! ## Instructions -/

namespace CodeFrame

/-- The growth of a table that code is about to try: the table, by how much, and the value. -/
def growth? (f : CodeFrame) (w : World) : Option (Nat × Nat × StoreVal) :=
  match f.code.ops[f.pc]? with
  | some (.tableGrow t) =>
    if f.entered then some (f.address w (·.tables) t, f.popBits.1, f.popBits.2.pop.1) else none
  | _ => none

variable (f : CodeFrame) {op : Wasm.Op} (h : w.Tight r H)
include h

theorem tight_check : (f.check w).world.Tight r H := by
  unfold check
  split
  · exact h.of_le rfl le_rfl
  · split
    · have hmet : w.meetDeadline.2.Tight r H := by
        unfold meetDeadline
        split <;> exact h.of_le rfl le_rfl
      split <;> rename_i hm <;> rw [hm] at hmet <;> exact hmet
    · exact h

theorem tight_branch (label : Nat) : (f.branch label w).world.Tight r H := by
  unfold branch
  split
  · dsimp only
    split
    · exact h
    · exact h.of_le rfl le_rfl
  · exact h.of_le rfl le_rfl

theorem tight_execLoad (load : Wasm.LoadOp) (arg : Wasm.MemArg) :
    (execLoad load arg f w).world.Tight r H := by
  simp only [execLoad]
  split <;> exact h

theorem tight_execStore (store : Wasm.StoreOp) (arg : Wasm.MemArg) :
    (execStore store arg f w).world.Tight r H := by
  simp only [execStore]
  split
  · exact h.of_le rfl le_rfl
  · exact h

theorem tight_execMemory : (execMemory op f w).world.Tight r H := by
  have houtcome := memory_outcome op f w
  generalize execMemory op f w = o at houtcome ⊢
  cases houtcome with
  | wrote | dropped => exact h.of_le rfl le_rfl
  | grown _ grown =>
      simp only [growPages] at grown
      split at grown <;> cases grown
      exact h.of_le rfl le_rfl
  | full | sized | outOfBounds | other => exact h

theorem tight_execTable
    (hgrow : ∀ t, op = .tableGrow t → w.Vain (f.address w (·.tables) t) f.popBits.1 →
      ¬w.store.Refers f.popBits.2.pop.1 r) : (execTable op f w).world.Tight r H := by
  have houtcome := table_outcome op f w
  generalize execTable op f w = o at houtcome ⊢
  cases houtcome with
  | got => exact h.exposeVal _
  | set room => exact h.putElem room _
  | grown k => exact h.growElems _ _ (hgrow k rfl)
  | filled room => exact h.putElems (by rwa [List.length_replicate])
  | copied room =>
      exact h.copyElems (Nat.le_trans (Nat.add_le_add_left (List.length_take_le _ _) _) room) _
  | initialized room =>
      exact h.putElems (Nat.le_trans (Nat.add_le_add_left (List.length_take_le _ _) _) room)
  | dropped => exact h.of_le rfl le_rfl
  | sized | outOfBounds | other => exact h

theorem tight_execCallIndirect (type table : Nat) :
    (execCallIndirect type table f w).world.Tight r H := by
  unfold execCallIndirect
  dsimp only
  split
  · exact h
  · split <;> exact h
  · exact h

theorem tight_exec (hglobal : ∀ i, op = .globalSet i →
      f.address w (·.globals) i < w.store.globals.size)
    (hgrow : ∀ t, op = .tableGrow t → w.Vain (f.address w (·.tables) t) f.popBits.1 →
      ¬w.store.Refers f.popBits.2.pop.1 r) : (exec op f w).world.Tight r H := by
  cases op with
  | loop t =>
      have hchecked := f.tight_check h
      simp only [exec]
      split
      · rename_i heq
        rw [heq] at hchecked
        exact hchecked
      · exact hchecked
  | ifThen t =>
      simp only [exec]
      split
      · exact h
      · split <;> exact h
  | done =>
      simp only [exec]
      split
      · exact h.of_le rfl le_rfl
      · exact h.of_le rfl le_rfl
      · exact h
  | br l => exact f.tight_branch h l
  | brIf l =>
      simp only [exec]
      split
      · exact tight_branch _ h l
      · exact h
  | brTable ls l => exact tight_branch _ h _
  | ret => exact f.tight_branch h _
  | callIndirect type table => exact f.tight_execCallIndirect h type table
  | globalGet i => exact h.exposeVal _
  | globalSet i => exact h.putGlobal (hglobal i rfl) _
  | load load arg => exact f.tight_execLoad h load arg
  | atomicLoad arg => exact f.tight_execLoad h _ arg
  | store store arg => exact f.tight_execStore h store arg
  | numeric op =>
      simp only [exec]
      split
      · exact h
      · split <;> exact h
  | memorySize | memoryGrow | memoryFill | memoryCopy | memoryInit | dataDrop =>
      simp only [exec]
      exact f.tight_execMemory h
  | tableGet | tableSet | tableSize | tableGrow | tableFill | tableCopy | tableInit | elemDrop =>
      simp only [exec]
      exact f.tight_execTable h hgrow
  | _ => exact h

omit h

variable {f}

/-- Operands have nothing to do with fuel. -/
theorem popped_refuel (f : CodeFrame) (owed burned : Nat) :
    ({ f with owed, burned } : CodeFrame).popBits.1 = f.popBits.1 ∧
      ({ f with owed, burned } : CodeFrame).popBits.2.pop.1 = f.popBits.2.pop.1 := by
  obtain ⟨_, _, _, _, _, blocks, _, _⟩ := f
  cases blocks <;> exact ⟨rfl, rfl⟩

/-- A well typed frame has the global that its instruction writes to. -/
theorem Typed.global_lt {k : Nat} (h : f.Typed w) (hop : f.code.ops[f.pc]? = some (.globalSet k)) :
    f.address w (·.globals) k < w.store.globals.size := by
  obtain ⟨i, c, o, os, b, bs, belongs, hat, -⟩ := h
  obtain ⟨blocks', hcheck, -⟩ := belongs.code.checked hat hop
  obtain ⟨params, results, -, htype, -⟩ := Wasm.Context.types_of_checkOp hcheck trivial
  cases htype with
  | globalSet global =>
      obtain ⟨g, hg, -⟩ := belongs.has_global global
      exact (Array.getElem?_eq_some_iff.mp hg).1

/-- A step of a well typed frame leaves no hold behind, unless it offers the reference to a table
that does not grow. -/
theorem Typed.tight_step (typed : f.Typed w) (h : w.Tight r H)
    (hgrow : ∀ addr delta v, f.growth? w = some (addr, delta, v) → w.Vain addr delta →
      ¬w.store.Refers v r) : (f.step w).world.Tight r H := by
  by_cases hentered : f.entered
  · obtain ⟨i, c, o, os, b, bs, belongs, hat, -⟩ := id typed
    obtain ⟨op, _, hop, -⟩ := belongs.code.instruction hat
    obtain ⟨owed, burned, w', hstep, hobjects, hboxes, -⟩ := step_exec hentered hop w
    have hslots : w'.store.slots = w.store.slots := (congrArg Store.slots hobjects :)
    rw [hstep]
    refine tight_exec _ (h.of_le hboxes (le_of_eq (by rw [hslots]))) ?_ ?_
    · rintro k rfl
      exact ((typed.spends f.entered owed burned).extends (.of_objects hobjects)).global_lt hop
    · rintro t rfl hvain hrefers
      have hinstances : w'.store.instances = w.store.instances :=
        (congrArg Store.instances hobjects :)
      have haddress : ({ f with owed, burned } : CodeFrame).address w' (·.tables) t =
          f.address w (·.tables) t := by
        simp only [address, ownerOf, hinstances]
      have hpopped := f.popped_refuel owed burned
      have hgrowth : f.growth? w =
          some (f.address w (·.tables) t, f.popBits.1, f.popBits.2.pop.1) := by
        simp only [growth?, hop, hentered, if_true]
      rw [haddress, hpopped.1, Vain, table_of_objects hobjects] at hvain
      rw [hpopped.2, Store.Refers, hboxes] at hrefers
      exact hgrow _ _ _ hgrowth hvain hrefers
  · have hchecked := f.reckon.tight_check h
    unfold CodeFrame.step
    simp only [hentered, Bool.not_false, if_true]
    split
    · rename_i hc
      rw [hc] at hchecked
      exact hchecked
    · exact hchecked

end CodeFrame

/-! ## Calls -/

namespace Machine

variable {m m' : Machine} {rest : List Activation} {h : HostFrame}

/-- Code is about to offer the reference to a table that does not grow. -/
def Strands (r : RefId) (m : Machine) : Prop :=
  ∃ f rest addr delta v, m.stack = .code f :: rest ∧ m.control = .run ∧
    f.growth? m.world = some (addr, delta, v) ∧ m.world.Vain addr delta ∧
      m.world.store.Refers v r

/-- No box for the reference is held more often than something holds it, where `home` holds the
boxes that the machine does not know of. A host function that goes on has no call under way. -/
structure Tight (r : RefId) (home : Multiset BoxId) (m : Machine) : Prop where
  world : m.world.Tight r (home + heldBy m.stack)
  ready : m.control = .run → ∀ h rest, m.stack = .host h :: rest → h.pending = none

theorem tight_raise (hw : m.world.Tight r (home + heldBy m.stack)) (c : Cause) :
    (m.raise c).Tight r home := ⟨hw, by simp [raise]⟩

theorem tight_giveBack (hw : m.world.Tight r (home + heldBy m.stack)) (vals : List StoreVal) :
    (m.giveBack vals).Tight r home := ⟨hw, by simp [giveBack]⟩

theorem tight_pushActivation {a : Activation}
    (hw : m.world.Tight r (a.held + (home + heldBy m.stack)))
    (ha : ∀ h, a = .host h → h.pending = none) : (m.pushActivation a).Tight r home :=
  ⟨hw.reshape (add_left_comm ..), fun _ h _ hstack => ha h (List.cons.inj hstack).1⟩

theorem tight_enter (hw : m.world.Tight r (home + heldBy m.stack)) (func : FuncAddr)
    (args : List StoreVal) (caller : Option InstanceAddr) :
    (m.enter func args caller).Tight r home := by
  have hheld := hw.holdAll args
  have houtcome := enter_outcome m func args caller
  generalize m.enter func args caller = m' at houtcome ⊢
  cases houtcome with
  | unknown | idle => exact tight_giveBack hw _
  | full => exact tight_raise hw _
  | code => exact tight_pushActivation (hw.reshape (zero_add _)) (by simp)
  | host =>
      refine tight_pushActivation ((hheld.revealAll args).reshape ?_) ?_
      · simp [Activation.held]
      · rintro h ⟨⟩
        rfl
  | @command _ module imports _ _ _ _ made =>
      have hmade := hheld.instantiate module imports
      rw [made] at hmade
      exact tight_pushActivation hmade (by simp)
  | @refused _ module imports _ _ _ _ refused =>
      have hmade := hheld.instantiate module imports
      rw [refused] at hmade
      exact tight_raise hmade.unholdAll _
  | @wasi _ g _ known outcome =>
      have hserved (addr : Nat) :
          (m.world.served g args addr).2.Tight r (home + heldBy m.stack) := hw.of_le rfl le_rfl
      cases outcome with
      | unattended => exact tight_raise hw _
      | failed =>
          refine tight_raise ?_ _
          exact hserved _
      | gave =>
          refine tight_giveBack ?_ _
          exact hserved _

/-! ## Host functions -/

theorem tight_putResult (hw : w.Tight r H) (i : Nat) (v : HostVal) :
    (h.putResult i v w).2.Tight r H := by
  unfold HostFrame.putResult
  split
  · exact hw.discard _
  · exact hw.discard _

theorem tight_setResult (hw : w.Tight r H) (i : Nat) (v : HostVal) :
    (h.setResult i v w).2.Tight r H := by
  refine tight_putResult ?_ i v
  cases v.foreign? with
  | none => exact hw
  | some p => exact hw.of_store rfl

theorem tight_acceptResults (ts : List ValType) (vs : List HostVal) (hw : w.Tight r H) :
    (acceptResults ts vs w).2.2.Tight r (foreigns (acceptResults ts vs w).2.1 + H) := by
  induction ts generalizing vs w H with
  | nil => simpa [acceptResults] using hw
  | cons t ts ih =>
      cases vs with
      | nil => simpa [acceptResults] using hw
      | cons v vs =>
          simp only [acceptResults]
          split
          · simpa using hw
          · have haccepted := ih vs (hw.accept v)
            dsimp only
            rwa [foreigns_cons, add_assoc, add_left_comm]

section Host

variable {a : Activation} (idle : h.pending = none)

include idle in
theorem tight_onHost (hw : w.Tight r (foreigns h.held + (home + heldBy rest))) (m : Machine) :
    (m.onHost h rest w).Tight r home := by
  refine ⟨hw.reshape ?_, ?_⟩
  · simp only [onHost, heldBy_cons, Activation.held, idle, Option.elim_none, add_zero]
    exact add_left_comm ..
  · rintro - g rest' hstack
    cases hstack
    exact idle

include idle in
/-- A host function that goes on with another result. -/
theorem tight_onHost_result {i : Nat} {v : HostVal} {w' : World}
    (hw : w.Tight r (foreigns h.held + (home + heldBy rest))) (m : Machine) :
    (m.onHost (h.putResult i v w').1 rest w).Tight r home := by
  obtain ⟨results, hresults⟩ := HostFrame.putResult_fst i v h w'
  rw [hresults]
  exact tight_onHost (h := { h with results }) idle hw m

variable (hstack : m.stack = a :: rest)
  (hw : m.world.Tight r (foreigns h.held + (home + heldBy rest)))

include hstack hw

theorem tight_leaveHost :
    (m.leaveHost h).world.Tight r (home + heldBy (m.leaveHost h).stack) := by
  simp only [leaveHost, popActivation, hstack]
  exact ((hw.discardAll _).discardAll _).unholdAll

theorem tight_failHost (t : Trap) : (m.failHost t h).Tight r home :=
  tight_raise (tight_leaveHost hstack hw) _

theorem tight_finishHost : (m.finishHost h).Tight r home := by
  have haccepted := tight_acceptResults h.type.results h.results hw
  unfold finishHost
  dsimp only
  generalize acceptResults h.type.results h.results m.world = answer at haccepted ⊢
  obtain ⟨bad, vals, w⟩ := answer
  cases bad with
  | some kinds =>
      refine tight_failHost (m := { m with world := w.unholdAll vals }) hstack ?_ _
      exact haccepted.unholdAll
  | none =>
      refine tight_giveBack (tight_leaveHost
        (m := { m with world := (w.exposeAll vals).unholdAll vals }) hstack ?_) _
      exact (haccepted.exposeAll vals).unholdAll

include idle

theorem tight_afterFailure (f : Failure) (catches : Bool) :
    (m.afterFailure f catches h rest).Tight r home := by
  unfold afterFailure
  split
  · refine tight_onHost idle ?_ m
    exact hw.of_store rfl
  · exact tight_failHost hstack hw _

theorem tight_hostCall (func : FuncAddr) (args : List HostVal) (result : Option Nat)
    (catches : Bool) : (m.hostCall func args result catches h rest).Tight r home := by
  unfold hostCall
  split
  · exact tight_afterFailure idle hstack hw _ _
  · refine tight_enter ?_ _ _ _
    refine ((hw.acceptAll args).exposeAll _).reshape ?_
    simp only [heldBy_cons, Activation.held, Option.elim_some]
    ac_rfl

/-- One operation of a host function. -/
theorem tight_hostOp (op : HostOp) : (m.hostOp op h rest).Tight r home := by
  have hsame {w : World} (hstore : w.store = m.world.store) :
      (m.onHost h rest w).Tight r home := tight_onHost idle (hw.of_store hstore) m
  have houtcome := hostOp_outcome m h rest op
  generalize m.hostOp op h rest = m' at houtcome ⊢
  cases houtcome with
  | set i v => exact tight_onHost_result idle (tight_setResult hw i v) m
  | copy i k => exact tight_onHost_result idle (tight_setResult hw i _) m
  | added | peeked => exact tight_onHost_result idle (tight_putResult hw _ _) m
  | trapped | refused | unfueled => exact tight_failHost hstack hw _
  | logged | interrupted => exact hsame rfl
  | poked _ _ written => exact tight_onHost idle (hw.writeMemory written) m
  | grown _ grown =>
      refine tight_onHost idle ?_ m
      exact (hw.growMemory grown).of_store rfl
  | globalSet _ set => exact tight_onHost idle (hw.setGlobal set) m
  | called => exact tight_hostCall idle hstack hw _ _ _ _
  | fueled added => exact tight_onHost idle (hw.addFuel added) m
  | collected => exact tight_onHost idle (hw.collect _) m
  | branched k zero nonzero =>
      exact tight_onHost (h := { h with
        todo := (if h.arg k = .i32 0 then zero else nonzero) ++ h.todo }) idle hw m

theorem tight_hostStep : (m.hostStep h rest).Tight r home := by
  unfold hostStep
  split
  · exact tight_finishHost hstack hw
  · rename_i op todo _
    exact tight_hostOp (h := { h with todo }) idle hstack hw op

end Host

/-- What a host function holds, with a call of its own under way. -/
theorem Tight.hostFrame (hm : m.Tight r home) (hstack : m.stack = .host h :: rest) :
    m.world.Tight r ((h.pending.elim 0 fun p => foreigns p.held) +
      (foreigns h.held + (home + heldBy rest))) := by
  have hworld := hm.world
  rw [hstack] at hworld
  refine hworld.reshape ?_
  simp only [heldBy_cons, Activation.held]
  ac_rfl

/-- A host function that goes on has no call under way. -/
theorem Tight.idleHost (hm : m.Tight r home) (hc : m.control = .run)
    (hstack : m.stack = .host h :: rest) :
    h.pending = none ∧ m.world.Tight r (foreigns h.held + (home + heldBy rest)) := by
  have idle := hm.ready hc h rest hstack
  have hworld := hm.hostFrame hstack
  rw [idle, Option.elim_none, zero_add] at hworld
  exact ⟨idle, hworld⟩

theorem Tight.hostResume {vals : List StoreVal} {p : PendingCall} (hm : m.Tight r home)
    (hstack : m.stack = .host h :: rest) (hp : h.pending = some p) :
    (m.hostResume vals p h rest).Tight r home := by
  have hworld := hm.hostFrame hstack
  rw [hp, Option.elim_some] at hworld
  have hrevealed := hworld.revealAll vals
  simp only [Machine.hostResume]
  generalize m.world.revealAll vals = answer at hrevealed ⊢
  obtain ⟨results, w⟩ := answer
  dsimp only at hrevealed ⊢
  have hlogged : (w.log (.values results)).Tight r _ := hrevealed.of_store rfl
  split
  · refine tight_onHost_result (h := { h with pending := none }) rfl ?_ m
    exact ((tight_setResult hlogged _ _).discardAll _).unholdAll
  · refine tight_onHost (h := { h with pending := none }) rfl ?_ m
    exact (hlogged.discardAll _).unholdAll

theorem Tight.hostFault {f : Fault} (hm : m.Tight r home) (hstack : m.stack = .host h :: rest)
    (hc : m.control = .fault f) : (m.hostFault f h rest).Tight r home := by
  have hworld := hm.hostFrame hstack
  unfold Machine.hostFault
  split
  · rename_i p hp
    rw [hp, Option.elim_some] at hworld
    refine tight_afterFailure (m := { m with world := m.world.unholdAll p.held })
      (h := { h with pending := none }) rfl hstack ?_ _ _
    exact hworld.unholdAll
  · rename_i hp
    rw [hp, Option.elim_none, zero_add] at hworld
    refine ⟨tight_leaveHost hstack hworld, fun hrun => ?_⟩
    simp only [leaveHost, popActivation, hstack, hc] at hrun
    cases hrun

/-! ## Commands -/

/-- A command holds its arguments at every stage. -/
theorem Tight.command {c : CommandFrame} (hm : m.Tight r home)
    (hstack : m.stack = .command c :: rest) (stage : CommandStage) :
    m.world.Tight r (home + heldBy (.command { c with stage } :: rest)) := by
  have hworld := hm.world
  rwa [hstack] at hworld

theorem Tight.commandStep {c : CommandFrame} (hm : m.Tight r home)
    (hstack : m.stack = .command c :: rest) : (m.commandStep c rest).Tight r home := by
  have starting := hm.command hstack .starting
  unfold Machine.commandStep
  dsimp only
  generalize Activation.command { c with stage := .starting } :: rest = stack at starting ⊢
  split
  · exact tight_enter (m := { m with stack }) starting _ _ _
  · exact tight_giveBack (m := { m with stack }) starting _

theorem Tight.commandResume {c : CommandFrame} {vals : List StoreVal} (hm : m.Tight r home)
    (hstack : m.stack = .command c :: rest) : (m.commandResume vals c rest).Tight r home := by
  have calling := hm.command hstack .calling
  unfold Machine.commandResume
  split
  · refine tight_giveBack ?_ _
    simp only [popActivation, hstack]
    refine ((calling.exposeAll vals).reshape ?_).unholdAll
    simp only [heldBy_cons, Activation.held]
    exact add_left_comm ..
  · dsimp only
    generalize Activation.command { c with stage := .calling } :: rest = stack at calling ⊢
    split
    · exact tight_enter (m := { m with world := m.world.exposeAll c.held, stack })
        (calling.exposeAll c.held) _ _ _
    · exact tight_giveBack (m := { m with stack }) calling _

/-! ## Steps -/

/-- A step of running code. -/
theorem Tight.codeStep {final : List ValType} {f : CodeFrame} {used : Nat}
    (hm : Tight r home ⟨w, .code f :: rest, .run, used⟩)
    (typed : Typed final ⟨w, .code f :: rest, .run, used⟩)
    (spares : ¬Strands r ⟨w, .code f :: rest, .run, used⟩)
    (hs : Machine.step ⟨w, .code f :: rest, .run, used⟩ = .inl m') : m'.Tight r home := by
  have hstep := (typed.frame rfl rfl).tight_step hm.world fun addr delta v hgrows hvain hrefers =>
    spares ⟨f, rest, addr, delta, v, rfl, rfl, hgrows, hvain, hrefers⟩
  simp only [Machine.step] at hs
  split at hs <;> rename_i ho <;> rw [ho] at hstep <;> cases hs
  · exact ⟨hstep, fun _ _ _ hstack => (by cases hstack)⟩
  · rename_i f' w'
    exact tight_raise (m := ⟨w', .code f' :: rest, .run, used⟩) hstep _
  · rename_i f' w'
    exact tight_enter (m := ⟨w', .code f' :: rest, .run, used⟩) hstep _ _ _
  · exact ⟨hstep.reshape (by simp [Activation.held]), fun hrun => (by cases hrun)⟩

/-- A step of a well typed machine leaves no hold behind, unless code offers the reference to a
table that does not grow. -/
theorem Tight.step {final : List ValType} (hm : m.Tight r home) (typed : m.Typed final)
    (spares : ¬m.Strands r) (hs : m.step = .inl m') : m'.Tight r home := by
  cases step_sound hs with
  | next | trap | call | exit => exact hm.codeStep typed spares hs
  | resume => exact ⟨hm.world, fun _ _ _ hstack => (by cases hstack)⟩
  | unwind =>
      exact ⟨hm.world.reshape (by simp [popActivation, Activation.held]), by simp [popActivation]⟩
  | hostRun =>
      obtain ⟨idle, hworld⟩ := hm.idleHost rfl rfl
      exact tight_hostStep idle rfl hworld
  | hostBack pending => exact hm.hostResume rfl pending
  | hostLeft pending => exact ⟨hm.world, fun _ _ _ hstack => by cases hstack; assumption⟩
  | hostFault => exact hm.hostFault rfl rfl
  | commandRun => exact hm.commandStep rfl
  | commandBack => exact hm.commandResume rfl
  | commandFault =>
      refine ⟨(hm.world.reshape ?_).unholdAll, by simp [popActivation]⟩
      simp only [heldBy_cons, Activation.held]
      exact add_left_comm ..

end Machine

end WasmHost

import WasmHost.Linker.Module
import WasmHost.Proofs.Machine.Outcomes
import WasmHost.Proofs.Machine.Runs
import WasmHost.Proofs.Wasi.Steps
import WasmHost.Proofs.World.Changes
import WasmHost.Proofs.World.RoundTrips

/-!
# What running code does to its world

An instruction writes to the object that its index stands for, and does nothing else to a world but
what `World.Change` tells. Each step of a machine so comes down to changes of its world, and so does
a whole run.
-/

namespace WasmHost

open World

/-- The world after an instruction. -/
def Outcome.world : Outcome → World
  | next _ w | trap _ _ w | call _ _ _ w | exit _ w => w

/-! ## Instructions -/

namespace CodeFrame

variable {T : Object → Prop} (f : CodeFrame) (w : World) {op : Wasm.Op}

theorem changes_check : w.Changes T (f.check w).world := by
  have hmet : w.Changes T w.meetDeadline.2 := by
    refine changes_aside (objects_meetDeadline w) ?_ ?_ <;> unfold meetDeadline <;> split <;> rfl
  unfold check
  split
  · exact changes_aside rfl rfl rfl
  · split
    · split <;> rename_i h <;> rw [h] at hmet <;> exact hmet
    · exact .refl

theorem changes_branch (label : Nat) : w.Changes T (f.branch label w).world := by
  unfold branch
  split
  · dsimp only
    split <;> exact changes_aside rfl rfl rfl
  · exact changes_aside rfl rfl rfl

theorem changes_execLoad (op : Wasm.LoadOp) (arg : Wasm.MemArg) :
    w.Changes T (execLoad op arg f w).world := by
  simp only [execLoad]
  split <;> exact .refl

theorem changes_execStore (op : Wasm.StoreOp) (arg : Wasm.MemArg)
    (free : T (.memory (f.address w (·.memories) arg.memory))) :
    w.Changes T (execStore op arg f w).world := by
  simp only [execStore]
  split
  · refine changes_putBytes free ?_
    rw [Memory.length_numberBytes]
    assumption
  · exact .refl

theorem changes_execMemory
    (free : ∀ k, op.written? = some (.memory, k) → T (.memory (f.address w (·.memories) k))) :
    w.Changes T (execMemory op f w).world := by
  have houtcome := memory_outcome op f w
  generalize execMemory op f w = o at houtcome ⊢
  cases houtcome with
  | wrote index fits => exact changes_putBytes (free _ index) fits
  | grown index grown => exact changes_growPages (free _ index) grown
  | dropped => exact .single (.segment _ fun _ => by rfl)
  | full | sized | outOfBounds | other => exact .refl

theorem changes_execTable
    (free : ∀ k, op.written? = some (.table, k) → T (.table (f.address w (·.tables) k))) :
    w.Changes T (execTable op f w).world := by
  have houtcome := table_outcome op f w
  generalize execTable op f w = o at houtcome ⊢
  cases houtcome with
  | got => exact changes_exposeVal _ w
  | set => exact changes_putElem (free _ rfl) _ _ w
  | grown => exact changes_growElems (free _ rfl) _ _ w
  | filled | initialized => exact changes_putElems (free _ rfl) _ _ w
  | copied => exact changes_copyElems (free _ rfl) _ _ _ w
  | dropped => exact .single (.segment _ fun _ => by rfl)
  | sized | outOfBounds | other => exact .refl

theorem changes_execCallIndirect (type table : Nat) :
    w.Changes T (execCallIndirect type table f w).world := by
  unfold execCallIndirect
  dsimp only
  split
  · exact .refl
  · split <;> exact .refl
  · exact .refl

/-- An instruction writes only to the object that its index stands for. -/
theorem changes_exec
    (free : ∀ x ∈ op.written?, ∀ o ∈ Object.of? x.1 (f.address w (·.addrs x.1) x.2), T o) :
    w.Changes T (exec op f w).world := by
  cases op with
  | loop t =>
      have hchecked := changes_check (T := T) f w
      simp only [exec]
      split
      · rename_i h
        rw [h] at hchecked
        exact hchecked
      · exact hchecked
  | ifThen t =>
      simp only [exec]
      split
      · exact .refl
      · split <;> exact .refl
  | done =>
      simp only [exec]
      split <;> exact changes_aside rfl rfl rfl
  | br l => exact changes_branch f w l
  | brIf l =>
      simp only [exec]
      split
      · exact changes_branch _ w l
      · exact .refl
  | brTable ls l => exact changes_branch _ w _
  | ret => exact changes_branch f w _
  | callIndirect type table => exact changes_execCallIndirect f w type table
  | globalGet i => exact changes_exposeVal _ w
  | globalSet i => exact changes_putGlobal (free _ rfl _ rfl) _ w
  | load op arg => exact changes_execLoad f w op arg
  | atomicLoad arg => exact changes_execLoad f w _ arg
  | store op arg => exact changes_execStore f w op arg (free _ rfl _ rfl)
  | numeric op =>
      simp only [exec]
      split
      · exact .refl
      · split <;> exact .refl
  | memorySize | memoryGrow | memoryFill | memoryCopy | memoryInit | dataDrop =>
      simp only [exec]
      exact changes_execMemory f w fun _ hk => free _ hk _ rfl
  | tableGet | tableSet | tableSize | tableGrow | tableFill | tableCopy | tableInit | elemDrop =>
      simp only [exec]
      exact changes_execTable f w fun _ hk => free _ hk _ rfl
  | _ => exact .refl

theorem changes_step : w.Alters (f.step w).world := by
  unfold CodeFrame.step
  split
  · have hchecked := changes_check (T := fun _ => True) f.reckon w
    split
    · rename_i h
      rw [h] at hchecked
      exact hchecked
    · exact hchecked
  · dsimp only
    split
    · exact (changes_aside (objects_mapFuel _ w) rfl rfl).trans
        (changes_exec _ _ fun _ _ _ _ => trivial)
    · exact changes_exec _ w fun _ _ _ _ => trivial

end CodeFrame

/-! ## Host functions -/

namespace HostFrame

variable {T : Object → Prop} (h : HostFrame)

theorem changes_putResult (i : Nat) (v : HostVal) (w : World) :
    w.Changes T (h.putResult i v w).2 := by
  unfold putResult
  split <;> exact changes_discard _ w

theorem changes_setResult (i : Nat) (v : HostVal) (w : World) :
    w.Changes T (h.setResult i v w).2 := by
  have hcloned : w.Changes T (v.foreign?.elim w (w.clone ·)) := by
    cases v.foreign? <;> exact changes_aside rfl rfl rfl
  exact hcloned.trans (changes_putResult h i v _)

theorem changes_close (w : World) : w.Changes T (h.close w) :=
  ((changes_discardAll _ w).trans (changes_discardAll _ _)).trans (changes_unholdAll _ _)

end HostFrame

namespace Machine

variable {T : Object → Prop} {w : World} (m : Machine) (h : HostFrame) (rest : List Activation)

@[simp] theorem giveBack_world (vals : List StoreVal) : (m.giveBack vals).world = m.world := rfl

@[simp] theorem popActivation_world : m.popActivation.world = m.world := by
  unfold popActivation
  split <;> rfl

theorem changes_leaveHost : m.world.Changes T (m.leaveHost h).world := by
  rw [leaveHost, popActivation_world]
  exact h.changes_close m.world

theorem changes_failHost (t : Trap) : m.world.Changes T (m.failHost t h).world :=
  changes_leaveHost m h

theorem changes_acceptResults (ts : List ValType) (vs : List HostVal) (w : World) :
    w.Changes T (acceptResults ts vs w).2.2 := by
  induction ts generalizing vs w with
  | nil => exact .refl
  | cons t ts ih =>
      cases vs with
      | nil => exact .refl
      | cons v vs =>
          simp only [acceptResults]
          split
          · exact .refl
          · exact (changes_accept v w).trans (ih vs _)

theorem changes_finishHost : m.world.Changes T (m.finishHost h).world := by
  have htaken := changes_acceptResults (T := T) h.type.results h.results m.world
  unfold finishHost
  dsimp only
  split
  · exact (htaken.trans (changes_unholdAll _ _)).trans (changes_failHost { m with world := _ } h _)
  · exact ((htaken.trans (changes_exposeAll _ _)).trans (changes_unholdAll _ _)).trans
      (changes_leaveHost { m with world := _ } h)

theorem changes_afterFailure (f : Failure) (catches : Bool) :
    m.world.Changes T (m.afterFailure f catches h rest).world := by
  unfold afterFailure
  split
  · exact changes_aside rfl rfl rfl
  · exact changes_failHost m h _

theorem changes_hostResume (vals : List StoreVal) (p : PendingCall) :
    m.world.Changes T (m.hostResume vals p h rest).world := by
  have hlogged (entry : LogEntry) : m.world.Changes T ((m.world.revealAll vals).2.log entry) :=
    (changes_revealAll vals m.world).trans (changes_aside rfl rfl rfl)
  refine .trans ?_ ((changes_discardAll _ _).trans (changes_unholdAll p.held _))
  split
  · exact (hlogged _).trans (HostFrame.changes_setResult _ _ _ _)
  · exact hlogged _

theorem changes_hostFault (f : Fault) :
    m.world.Changes T (m.hostFault f h rest).world := by
  unfold hostFault
  split
  · exact (changes_unholdAll _ _).trans (changes_afterFailure { m with world := _ } _ _ _ _)
  · exact changes_leaveHost m h

/-! ## Calls -/

/-- A function of the system interface changes no object but the memory that it works on. -/
theorem changes_served (w : World) (func : Wasi.Func) (args : List StoreVal) {addr : Nat}
    (free : T (.memory addr)) : w.Changes T (w.served func args addr).2 := by
  have hwritten : w.Changes T
      (w.mapMemory addr fun _ => (func.run (args.map Val.toBits) (w.guest addr)).2.memory) :=
    .single (.memory free (Wasi.evolves_run func _ (w.guest addr)))
  have hworked := hwritten.tail (.guest func (args.map Val.toBits) (g := w.guest addr) rfl)
  exact hworked.trans (changes_aside rfl rfl rfl)

/-- A function of the system interface writes only to the memory that its caller exports. -/
theorem changes_enterWasi (func : Wasi.Func) (args : List StoreVal) (caller : Option InstanceAddr)
    (free : ∀ a, (caller.bind fun c => m.world.getExport c "memory").bind Item.memory? = some a →
      T (.memory a)) : m.world.Changes T (m.enterWasi func args caller).world := by
  have houtcome := enterWasi_outcome m func args caller
  generalize m.enterWasi func args caller = m' at houtcome ⊢
  cases houtcome with
  | unattended => exact .refl
  | failed memory | gave memory => exact changes_served _ _ _ (free _ memory)

/-- Whatever is called, it begins with changes to the world that it is called in. -/
theorem alters_enter (hw : w.Alters m.world) (func : FuncAddr) (args : List StoreVal)
    (caller : Option InstanceAddr) : w.Alters (m.enter func args caller).world := by
  refine hw.trans ?_
  have houtcome := enter_outcome m func args caller
  generalize m.enter func args caller = m' at houtcome ⊢
  cases houtcome with
  | unknown | full | code | idle => exact .refl
  | host => exact (changes_holdAll args _).trans (changes_revealAll args _)
  | @command _ module imports _ _ _ _ made =>
      have hmade := alters_instantiate module imports (m.world.holdAll args)
      rw [made] at hmade
      exact (changes_holdAll args _).trans hmade
  | @refused _ module imports _ _ _ _ refused =>
      have hmade := alters_instantiate module imports (m.world.holdAll args)
      rw [refused] at hmade
      exact ((changes_holdAll args _).trans hmade).trans (changes_unholdAll args _)
  | wasi known outcome =>
      cases outcome with
      | unattended => exact .refl
      | failed | gave => exact changes_served _ _ _ trivial

theorem alters_hostCall (func : FuncAddr) (args : List HostVal) (result : Option Nat)
    (catches : Bool) : m.world.Alters (m.hostCall func args result catches h rest).world := by
  unfold hostCall
  split
  · exact changes_afterFailure m h rest _ catches
  · exact alters_enter _ (changes_taken args m.world) func _ none

theorem alters_hostOp (op : HostOp) : m.world.Alters (m.hostOp op h rest).world := by
  have houtcome := hostOp_outcome m h rest op
  generalize m.hostOp op h rest = m' at houtcome ⊢
  cases houtcome with
  | set i v => exact h.changes_setResult i v _
  | copy i k => exact h.changes_setResult i _ _
  | added i | peeked => exact h.changes_putResult _ _ _
  | trapped | refused | unfueled => exact changes_failHost m h _
  | logged | interrupted => exact changes_aside rfl rfl rfl
  | poked _ _ written => exact changes_writeMemory trivial written
  | grown _ grown => exact (changes_growMemory trivial grown).trans (changes_aside rfl rfl rfl)
  | globalSet _ set => exact changes_setGlobal trivial set
  | called => exact alters_hostCall m h rest _ _ _ _
  | fueled added => exact changes_addFuel added
  | collected => exact changes_collect _ _
  | branched => exact .refl

theorem alters_hostStep : m.world.Alters (m.hostStep h rest).world := by
  unfold hostStep
  split
  · exact changes_finishHost m h
  · exact alters_hostOp m _ rest _

/-! ## Steps and runs -/

theorem alters_commandStep (c : CommandFrame) :
    m.world.Alters (m.commandStep c rest).world := by
  unfold commandStep
  dsimp only
  split
  · refine alters_enter _ ?_ _ _ _
    exact .refl
  · exact .refl

theorem alters_commandResume (vals : List StoreVal) (c : CommandFrame) :
    m.world.Alters (m.commandResume vals c rest).world := by
  unfold commandResume
  split
  · rw [giveBack_world, popActivation_world]
    exact (changes_exposeAll vals _).trans (changes_unholdAll c.held _)
  · dsimp only
    split
    · exact alters_enter _ (changes_exposeAll _ _) _ _ _
    · exact .refl

variable {m} {m' : Machine}

theorem alters_step (hs : m.step = .inl m') : m.world.Alters m'.world := by
  cases step_sound hs with
  | @next w _ f _ _ _ out | @trap w _ f _ _ _ _ out | @exit w _ f _ _ _ out =>
      have hinstr := f.changes_step w
      rw [out] at hinstr
      exact hinstr
  | @call w _ f _ _ _ _ _ out =>
      have hinstr := f.changes_step w
      rw [out] at hinstr
      exact alters_enter _ hinstr _ _ _
  | resume | unwind | hostLeft => exact .refl
  | hostRun => exact alters_hostStep _ _ _
  | hostBack => exact changes_hostResume _ _ _ _ _
  | hostFault => exact changes_hostFault _ _ _ _
  | commandRun => exact alters_commandStep _ _ _
  | commandBack => exact alters_commandResume _ _ _ _
  | @commandFault w c => exact changes_unholdAll c.held w

theorem alters_reaches (h : m.Reaches m') : m.world.Alters m'.world := by
  induction h with
  | refl => exact .refl
  | tail _ hs ih => exact ih.trans (alters_step hs)

theorem alters_answer {func : FuncAddr} {args : List StoreVal} {caller : Option InstanceAddr}
    (h : (m.enter func args caller).Reaches m') : m.world.Alters m'.world :=
  (alters_enter m .refl func args caller).trans (alters_reaches h)

/-- A machine stops only when everything has returned. -/
theorem stack_of_end {r : RunResult} (hs : m.step = .inr r) : m.stack = [] := by
  obtain ⟨w₀, stack, control, used⟩ := m
  cases stack with
  | nil => rfl
  | cons a rest =>
      cases a with
      | code f =>
          cases control with
          | run =>
              simp only [step] at hs
              split at hs <;> cases hs
          | back vals => cases hs
          | fault e => cases hs
      | host h =>
          cases control with
          | run => cases hs
          | back vals =>
              simp only [step] at hs
              split at hs <;> cases hs
          | fault e => cases hs
      | command c => cases control <;> cases hs

theorem step_end {r : Except Fault (List StoreVal)} (hs : m.step = .inr (r, w)) :
    w = m.world := by
  have hstack := stack_of_end hs
  obtain ⟨w₀, stack, control, used⟩ := m
  cases hstack
  cases control <;> cases hs <;> rfl

theorem alters_run {limit : Nat} {r : Except Fault (List StoreVal)}
    (hr : m.run limit = some (r, w)) : m.world.Alters w := by
  induction limit generalizing m with
  | zero => cases hr
  | succ limit ih =>
      simp only [run] at hr
      split at hr
      · exact (alters_step ‹_›).trans (ih hr)
      · rename_i hs
        cases hr
        rw [step_end hs]

end Machine

/-! ## Operations that run code -/

namespace World

variable {limit : Nat} {w w' : World}

theorem alters_callOr {otherwise : String → Error} {func : FuncAddr} {args : List HostVal}
    {r : Except Failure (List HostVal)}
    (h : w.callOr otherwise limit func args = some (r, w')) : w.Alters w' := by
  unfold callOr at h
  split at h
  · cases h
    exact .refl
  · obtain ⟨⟨r₀, w₀⟩, hrun, h⟩ := Option.map_eq_some_iff.mp h
    have hended : w.Alters w₀ :=
      (Machine.alters_enter _ (changes_taken args w) _ _ _).trans (Machine.alters_run hrun)
    dsimp only at h
    split at h <;> cases h
    · exact (hended.trans (changes_revealAll _ _)).trans (changes_unholdAll _ _)
    · exact hended.trans (changes_unholdAll _ _)

theorem alters_newInstance {m : CompiledModule} {items : List Item}
    {r : Except Failure InstanceAddr} (h : w.newInstance limit m items = some (r, w')) :
    w.Alters w' := by
  have hmade := alters_instantiate m items w
  simp only [newInstance] at h
  split at h <;> rename_i hi <;> rw [hi] at hmade
  · cases h
    exact hmade
  · split at h
    · cases h
      exact hmade
    · obtain ⟨⟨r₀, w₀⟩, hrun, h⟩ := Option.map_eq_some_iff.mp h
      have hended := (Machine.alters_enter _ hmade _ _ _).trans (Machine.alters_run hrun)
      split at h <;> cases h <;> exact hended

theorem alters_instantiateWith {m : CompiledModule} {items : List Item}
    {r : Except Failure InstanceAddr} (h : w.instantiateWith limit m items = some (r, w')) :
    w.Alters w' := by
  simp only [instantiateWith] at h
  split at h
  · cases h
    exact .refl
  · split at h
    · cases h
      exact .refl
    · exact alters_newInstance h

theorem alters_runInitialize {addr : InstanceAddr} {r : Except Failure Unit}
    (h : w.runInitialize limit addr = some (r, w')) : w.Alters w' := by
  unfold runInitialize at h
  split at h
  · cases h
    exact .refl
  · split at h
    · cases h
      exact .refl
    · obtain ⟨⟨r₀, w₀⟩, hcall, h⟩ := Option.map_eq_some_iff.mp h
      cases h
      exact alters_callOr hcall

end World

end WasmHost

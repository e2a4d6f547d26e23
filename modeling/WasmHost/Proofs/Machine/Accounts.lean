import WasmHost.Proofs.Embedding.Steps
import WasmHost.Proofs.Machine.Changes
import WasmHost.Proofs.World.Accounts

/-!
# What running code does to the accounts of its store

Code uses up fuel, is interrupted or puts its deadline off; host functions add fuel and ask for
interrupts; calls of commands bring new functions. `World.Tallies` relates each of these to the
events that go into the log, and one step of an embedder or of the code that runs does one of them.
-/

namespace WasmHost

open World

/-- The functions that a call can bring: those of a module that is a command. -/
inductive World.Brings (w : World) : Array Func → Prop
  | nothing : Brings w #[]
  | command {type : FuncType} {m : CompiledModule} {imports : List Item} {entry : String}
      (known : ⟨type, .command m imports entry⟩ ∈ w.store.funcs) (owner : InstanceAddr) :
      Brings w (m.newFuncs owner)

/-- How the ledger of a store changes, with what goes into the log. -/
inductive World.Tallies (w : World) : List Event → World → Prop
  | quiet {w' : World} (same : w'.ledger = w.ledger) : Tallies w [] w'
  | burned {w' : World} (n : Nat) (same : w'.ledger = (w.mapFuel (·.burn n)).ledger) :
      Tallies w
        [.burned w.store.signal (w.store.fuel.remaining - w'.store.fuel.remaining)] w'
  | renewed {w' : World} (calm : w.shared.isPending w.store.signal = false)
      (same : w'.ledger = w.meetDeadline.2.ledger) : Tallies w [.burned w.store.signal 0] w'
  | interrupted {w' : World} (due : w.shared.isPending w.store.signal = true)
      (same : w'.ledger = w.meetDeadline.2.ledger) : Tallies w [.interrupted w.store.signal] w'
  | added {w' : World} (n : Nat) (uses : w.usesFuel)
      (same : w'.ledger = (w.mapFuel (·.add n)).ledger) : Tallies w [.added w.store.signal n] w'
  | requested {w' : World} (signal : SignalId) (same : w'.ledger = (w.interrupt signal).ledger) :
      Tallies w [.requested signal] w'

/-! ## Numbers -/

theorem Wasm.IntBinary.eval_ne_interrupt {n : Nat} (a b : BitVec n) (op : Wasm.IntBinary) :
    op.eval a b ≠ .error .interrupt := by
  cases op <;> simp only [eval, ne_eq, reduceCtorEq, not_false_eq_true]
  all_goals split <;> (try split) <;> simp

theorem Wasm.Conversion.eval_ne_interrupt (a : Nat) (c : Wasm.Conversion) :
    c.eval a ≠ .error .interrupt := by
  cases c with
  | truncate t f s =>
      simp only [eval]
      split
      · simp
      · split
        · simp
        · split <;> simp
  | saturate t f s =>
      simp only [eval]
      split
      · simp
      · split <;> simp
  | _ => simp [eval]

theorem Wasm.NumOp.eval_ne_interrupt (a b : Nat) (op : Wasm.NumOp) :
    op.eval a b ≠ .error .interrupt := by
  cases op with
  | intBinary s op =>
      intro h
      cases hop : op.eval (BitVec.ofNat s.bits a) (BitVec.ofNat s.bits b) with
      | ok n => simp [eval, hop, Except.map] at h
      | error c =>
          simp only [eval, hop, Except.map, Except.error.injEq] at h
          exact op.eval_ne_interrupt _ _ (hop.trans (h ▸ rfl))
  | conversion c => exact c.eval_ne_interrupt a
  | _ => simp [eval]

theorem Wasm.NumOp.apply_ne_interrupt (op : Wasm.NumOp) (stack : List StoreVal) :
    op.apply stack ≠ .error .interrupt := by
  have hmap (a b : Nat) (rest : List StoreVal) :
      ((op.eval a b).map fun n => Val.ofBits op.type.2 n :: rest) ≠ .error .interrupt := by
    cases h : op.eval a b with
    | ok n => simp [Except.map]
    | error c =>
        simp only [Except.map, ne_eq, Except.error.injEq]
        rintro rfl
        exact op.eval_ne_interrupt a b h
  unfold apply
  dsimp only
  split
  · exact hmap _ _ _
  · exact hmap _ _ _
  · simp

/-! ## Instructions -/

/-- Why an instruction trapped. -/
def Outcome.code? : Outcome → Option TrapCode
  | trap c _ _ => some c
  | next .. | call .. | exit .. => none

/-- An instruction used up fuel and did nothing else to the accounts. -/
structure Outcome.Burns (w : World) (o : Outcome) : Prop where
  accounts : ∃ n, o.world.accounts = (w.mapFuel (·.burn n)).accounts
  uninterrupted : o.code? ≠ some .interrupt

namespace Outcome.Burns

variable {w w' : World} {o : Outcome}

theorem of_accounts (h : o.world.accounts = w.accounts) (hc : o.code? ≠ some .interrupt) :
    o.Burns w := ⟨⟨0, h⟩, hc⟩

/-- Fuel that was used up before counts as well. -/
theorem after {n : Nat} (h : o.Burns (w.mapFuel (·.burn n))) : o.Burns w := by
  obtain ⟨⟨k, hk⟩, hc⟩ := h
  refine ⟨⟨n + k, hk.trans ?_⟩, hc⟩
  simp [World.accounts, mapFuel, mapStore, Fuel.burn, Nat.sub_sub]

theorem next (f : CodeFrame) (h : w'.accounts = w.accounts) : (Outcome.next f w').Burns w :=
  of_accounts h (by simp [code?])

end Outcome.Burns

open Outcome (Burns)

variable (f : CodeFrame) (w : World)

theorem burns_proceed {w' : World} (h : w'.accounts = w.accounts) : (proceed f w').Burns w :=
  .next _ h

theorem burns_leave (vals : List StoreVal) : (f.leave vals w).Burns w :=
  ⟨⟨f.burned, rfl⟩, by simp [CodeFrame.leave, Outcome.code?]⟩

theorem burns_trap {c : TrapCode} (hc : c ≠ .interrupt) : (Outcome.trap c f w).Burns w :=
  .of_accounts rfl (by simpa [Outcome.code?] using hc)

theorem burns_branch (label : Nat) : (f.branch label w).Burns w := by
  unfold CodeFrame.branch
  split
  · dsimp only
    split
    · exact .next _ rfl
    · exact burns_leave f w _
  · exact burns_leave f w _

theorem burns_execLoad (op : Wasm.LoadOp) (arg : Wasm.MemArg) :
    (execLoad op arg f w).Burns w := by
  simp only [execLoad]
  split
  · exact burns_proceed _ w rfl
  · exact burns_trap f w (by decide)

theorem burns_execStore (op : Wasm.StoreOp) (arg : Wasm.MemArg) :
    (execStore op arg f w).Burns w := by
  simp only [execStore]
  split
  · exact burns_proceed _ w rfl
  · exact burns_trap f w (by decide)

theorem burns_execMemory (op : Wasm.Op) : (execMemory op f w).Burns w := by
  have houtcome := memory_outcome op f w
  generalize execMemory op f w = o at houtcome ⊢
  cases houtcome with
  | wrote | full | sized | dropped | other => exact burns_proceed _ w rfl
  | grown _ grown => exact burns_proceed _ w (accounts_growPages w grown)
  | outOfBounds => exact burns_trap f w (by decide)

theorem burns_execTable (op : Wasm.Op) : (execTable op f w).Burns w := by
  have houtcome := table_outcome op f w
  generalize execTable op f w = o at houtcome ⊢
  cases houtcome with
  | got => exact burns_proceed _ w (accounts_exposeVal _ w)
  | set => exact burns_proceed _ w (accounts_putElem w _ _ _)
  | grown => exact burns_proceed _ w (accounts_growElems w _ _ _)
  | filled | initialized => exact burns_proceed _ w (accounts_putElems w _ _ _)
  | copied => exact burns_proceed _ w (accounts_copyElems w _ _ _ _)
  | sized | dropped | other => exact burns_proceed _ w rfl
  | outOfBounds => exact burns_trap f w (by decide)

theorem burns_execCallIndirect (type table : Nat) : (execCallIndirect type table f w).Burns w := by
  unfold execCallIndirect
  dsimp only
  split
  · exact burns_trap f w (by decide)
  · split
    · exact .of_accounts rfl (by simp [Outcome.code?])
    · exact burns_trap f w (by decide)
  · exact burns_trap f w (by decide)

theorem burns_exec {op : Wasm.Op} (h : ∀ t, op ≠ .loop t) : (exec op f w).Burns w := by
  cases op with
  | unreachable => exact burns_trap f w (by decide)
  | loop t => exact absurd rfl (h t)
  | ifThen t =>
      simp only [exec]
      split
      · exact burns_proceed _ w rfl
      · split <;> exact .next _ rfl
  | orElse => exact .next _ rfl
  | done =>
      simp only [exec]
      split
      · exact burns_leave f w _
      · exact burns_leave f w _
      · exact burns_proceed _ w rfl
  | br l => exact burns_branch f w l
  | brIf l =>
      simp only [exec]
      split
      · exact burns_branch _ w l
      · exact burns_proceed _ w rfl
  | brTable ls l => exact burns_branch _ w _
  | ret => exact burns_branch f w _
  | call i => exact .of_accounts rfl (by simp [exec, Outcome.code?])
  | callIndirect type table => exact burns_execCallIndirect f w type table
  | globalGet i => exact burns_proceed _ w (accounts_exposeVal _ w)
  | globalSet i => exact burns_proceed _ w (accounts_putGlobal w _ _)
  | load op arg => exact burns_execLoad f w op arg
  | atomicLoad arg => exact burns_execLoad f w _ arg
  | store op arg => exact burns_execStore f w op arg
  | numeric op =>
      simp only [exec]
      split
      · exact burns_proceed _ w rfl
      · split
        · exact burns_proceed _ w rfl
        · rename_i stack _ _ _ _ h
          exact burns_trap f w fun hc => op.apply_ne_interrupt _ (hc ▸ h)
  | memorySize | memoryGrow | memoryFill | memoryCopy | memoryInit | dataDrop =>
      simp only [exec]
      exact burns_execMemory f w _
  | tableGet | tableSet | tableSize | tableGrow | tableFill | tableCopy | tableInit | elemDrop =>
      simp only [exec]
      exact burns_execTable f w _
  | _ => exact burns_proceed _ w rfl

/-- What an instruction or the check at an entry does to the accounts. -/
inductive Outcome.Tallies (w : World) (o : Outcome) : Prop
  | burns (burns : o.Burns w)
  | renewed (calm : w.shared.isPending w.store.signal = false)
      (accounts : o.world.accounts = w.meetDeadline.2.accounts)
      (uninterrupted : o.code? ≠ some .interrupt)
  | interrupted (due : w.shared.isPending w.store.signal = true)
      (accounts : o.world.accounts = w.meetDeadline.2.accounts)
      (interrupted : o.code? = some .interrupt)

theorem tallies_check : (f.check w).Tallies w := by
  unfold CodeFrame.check
  split
  · exact .burns ⟨⟨f.burned, rfl⟩, by simp [Outcome.code?]⟩
  · split
    · cases hp : w.shared.isPending w.store.signal with
      | true =>
          have hmet : w.meetDeadline = (true, w.meetDeadline.2) := by simp [meetDeadline, hp]
          rw [hmet]
          exact .interrupted hp rfl rfl
      | false =>
          have hmet : w.meetDeadline = (false, w.meetDeadline.2) := by simp [meetDeadline, hp]
          rw [hmet]
          exact .renewed hp rfl (by simp [Outcome.code?])
    · exact .burns (.next f rfl)

/-- Whatever goes on behind a check that lets the frame pass. -/
theorem Outcome.Tallies.pass {o o' : Outcome} (h : o.Tallies w) (hw : o'.world = o.world)
    (hc : o'.code? = o.code?) : o'.Tallies w := by
  cases h with
  | burns hb => exact .burns ⟨hw ▸ hb.accounts, hc ▸ hb.uninterrupted⟩
  | renewed calm accounts uninterrupted =>
      exact .renewed calm (hw ▸ accounts) (hc ▸ uninterrupted)
  | interrupted due accounts interrupted =>
      exact .interrupted due (hw ▸ accounts) (hc ▸ interrupted)

theorem tallies_loop (t : Wasm.BlockType) : (exec (.loop t) f w).Tallies w := by
  have hchecked := tallies_check f w
  simp only [exec]
  split
  · rename_i h
    rw [h] at hchecked
    exact hchecked.pass w rfl rfl
  · exact hchecked

theorem tallies_frameStep : (f.step w).Tallies w := by
  unfold CodeFrame.step
  split
  · have hchecked := tallies_check f.reckon w
    split
    · rename_i h
      rw [h] at hchecked
      exact hchecked.pass w rfl rfl
    · exact hchecked
  · dsimp only
    by_cases hloop : ∃ t, f.code.ops.getD f.pc .unreachable = .loop t
    · obtain ⟨t, ht⟩ := hloop
      rw [ht]
      exact tallies_loop _ w t
    · have hop := not_exists.mp hloop
      split
      · exact .burns (burns_exec _ _ hop).after
      · exact .burns (burns_exec _ w hop)

/-! ## Calls -/

/-- The store gained functions that a call can bring, and its accounts are as they were. -/
def World.Grows (w w' : World) : Prop :=
  ∃ fs, w.Brings fs ∧ w'.accounts = { w.accounts with funcs := w.store.funcs ++ fs }

theorem World.Grows.of_accounts {w w' : World} (h : w'.accounts = w.accounts) : w.Grows w' :=
  ⟨#[], .nothing, by rw [h, Array.append_empty]; rfl⟩

/-- What leaves the accounts alone can stand before a call or behind it. -/
theorem World.Grows.congr {w v v' w' : World} (h : v.Grows v') (hv : v.accounts = w.accounts)
    (hw : w'.accounts = v'.accounts) : w.Grows w' := by
  obtain ⟨fs, hfs, hgrown⟩ := h
  have hfuncs : v.store.funcs = w.store.funcs := congrArg (·.funcs) hv
  refine ⟨fs, ?_, by rw [hw, hgrown, hv, hfuncs]⟩
  cases hfs with
  | nothing => exact .nothing
  | command known owner => exact .command (hfuncs ▸ known) owner

/-- A step does to the ledger of its store what goes into the log, and adds functions at most. -/
structure World.Settles (w : World) (events : List Event) (w' : World) : Prop where
  ledger : w.Tallies events w'
  funcs : ∃ fs, w.Brings fs ∧ w'.store.funcs = w.store.funcs ++ fs
  closures : w'.store.closures = w.store.closures
  bodies : w'.shared.closures = w.shared.closures

namespace World.Settles

variable {w v w' : World} {events : List Event}

theorem of_tallies (hl : w.Tallies events w') (hf : w'.store.funcs = w.store.funcs)
    (hc : w'.store.closures = w.store.closures) (hb : w'.shared.closures = w.shared.closures) :
    w.Settles events w' :=
  ⟨hl, ⟨#[], .nothing, by rw [hf, Array.append_empty]⟩, hc, hb⟩

theorem of_grows (h : w.Grows w') : w.Settles [] w' := by
  obtain ⟨fs, hfs, h⟩ := h
  exact ⟨.quiet (congrArg Accounts.toLedger h :), ⟨fs, hfs, congrArg (·.funcs) h⟩,
    congrArg (·.closures) h, congrArg (·.bodies) h⟩

theorem of_accounts (h : w'.accounts = w.accounts) : w.Settles [] w' := of_grows (.of_accounts h)

end World.Settles

/-- What an instruction did, and a call behind it, in the log. -/
theorem Outcome.Tallies.settles {w w' : World} {o : Outcome} (ho : o.Tallies w)
    (hg : o.world.Grows w') :
    w.Settles (if o.code? = some .interrupt then [.interrupted w.store.signal] else
      [.burned w.store.signal (w.store.fuel.remaining - w'.store.fuel.remaining)]) w' := by
  obtain ⟨fs, hfs, hg⟩ := hg
  have hsettled {v : World} (hv : o.world.accounts = v.accounts)
      (hfuncs : v.store.funcs = w.store.funcs) (hclosures : v.store.closures = w.store.closures)
      (hbodies : v.shared.closures = w.shared.closures) {events : List Event}
      (hl : w'.ledger = v.ledger → w.Tallies events w') : w.Settles events w' := by
    have hkept : o.world.store.funcs = w.store.funcs := (congrArg (·.funcs) hv).trans hfuncs
    rw [hv] at hg
    refine ⟨hl (congrArg Accounts.toLedger hg :), ⟨fs, ?_, (congrArg (·.funcs) hg).trans ?_⟩,
      (congrArg (·.closures) hg).trans hclosures, (congrArg (·.bodies) hg).trans hbodies⟩
    · cases hfs with
      | nothing => exact .nothing
      | command known owner => exact .command (hkept ▸ known) owner
    · exact congrArg (· ++ fs) hkept
  cases ho with
  | burns hb =>
      obtain ⟨⟨n, hn⟩, hc⟩ := hb
      rw [if_neg hc]
      exact hsettled hn rfl rfl rfl (.burned n)
  | renewed calm hmet hc =>
      have hsame : w.meetDeadline.2 = w.mapStore ({ · with deadline := w.epoch + 1 }) := by
        simp [meetDeadline, calm]
      rw [if_neg hc]
      refine hsettled hmet (by rw [hsame]; rfl) (by rw [hsame]; rfl) (by rw [hsame]; rfl) fun hl => ?_
      have hfuel : w'.store.fuel = w.store.fuel := by
        have := congrArg (·.fuel) hl
        rwa [hsame] at this
      rw [hfuel, Nat.sub_self]
      exact .renewed calm hl
  | interrupted due hmet hc =>
      have hsame : w.meetDeadline.2 = w.mapShared (·.setPending w.store.signal false) := by
        simp [meetDeadline, due]
      rw [if_pos hc]
      refine hsettled hmet (by rw [hsame]; rfl) (by rw [hsame]; rfl) ?_ (.interrupted due)
      rw [hsame]
      simp only [mapShared, Shared.setPending]
      split <;> rfl

namespace Machine

variable {w : World} (m : Machine)

/-- Whatever is called, the call begins with the same accounts and perhaps with more functions. -/
theorem grows_enter (hw : m.world.accounts = w.accounts) (func : FuncAddr) (args : List StoreVal)
    (caller : Option InstanceAddr) : w.Grows (m.enter func args caller).world := by
  suffices hm : m.world.Grows (m.enter func args caller).world from hm.congr hw rfl
  have hmade {type : FuncType} {module : CompiledModule} {imports : List Item} {entry : String}
      (known : m.world.store.funcs[func]? = some ⟨type, .command module imports entry⟩) :
      m.world.Grows ((m.world.holdAll args).instantiate module imports).2 := by
    have hheld := accounts_holdAll args m.world
    have hfuncs : (m.world.holdAll args).store.funcs = m.world.store.funcs :=
      congrArg (·.funcs) hheld
    rcases accounts_instantiate module imports (m.world.holdAll args) with h | ⟨owner, h⟩
    · exact .of_accounts (h.trans hheld)
    · exact ⟨_, .command (Array.mem_of_getElem? known) owner, by rw [h, hheld, hfuncs]⟩
  have houtcome := enter_outcome m func args caller
  generalize m.enter func args caller = m' at houtcome ⊢
  cases houtcome with
  | unknown | full | code | idle => exact .of_accounts rfl
  | host => exact .of_accounts ((accounts_revealAll args _).trans (accounts_holdAll args _))
  | command known made =>
      have hgrown := hmade known
      rwa [made] at hgrown
  | refused known refused =>
      have hgrown := hmade known
      rw [refused] at hgrown
      exact hgrown.congr rfl (accounts_unholdAll args _)
  | wasi known outcome => cases outcome <;> exact .of_accounts rfl

/-! ## Host functions -/

variable (h : HostFrame) (rest : List Activation)

@[simp] theorem accounts_putResult (i : Nat) (v : HostVal) (w : World) :
    (h.putResult i v w).2.accounts = w.accounts := by
  unfold HostFrame.putResult
  split <;> exact accounts_discard _ w

@[simp] theorem accounts_setResult (i : Nat) (v : HostVal) (w : World) :
    (h.setResult i v w).2.accounts = w.accounts := by
  unfold HostFrame.setResult
  rw [accounts_putResult]
  cases v.foreign? <;> rfl

@[simp] theorem accounts_close (w : World) : (h.close w).accounts = w.accounts := by
  simp [HostFrame.close]

@[simp] theorem accounts_leaveHost : (m.leaveHost h).world.accounts = m.world.accounts := by
  simp [leaveHost]

@[simp] theorem accounts_failHost (t : Trap) :
    (m.failHost t h).world.accounts = m.world.accounts := accounts_leaveHost m h

@[simp] theorem accounts_acceptResults (ts : List ValType) (vs : List HostVal) (w : World) :
    (acceptResults ts vs w).2.2.accounts = w.accounts := by
  induction ts generalizing vs w with
  | nil => rfl
  | cons t ts ih =>
      cases vs with
      | nil => rfl
      | cons v vs =>
          simp only [acceptResults]
          split
          · rfl
          · exact (ih vs _).trans (accounts_accept v w)

theorem accounts_finishHost : (m.finishHost h).world.accounts = m.world.accounts := by
  unfold finishHost
  dsimp only
  split <;> simp

@[simp] theorem accounts_afterFailure (f : Failure) (catches : Bool) :
    (m.afterFailure f catches h rest).world.accounts = m.world.accounts := by
  unfold afterFailure
  split
  · rfl
  · exact accounts_failHost m h _

theorem accounts_hostResume (vals : List StoreVal) (p : PendingCall) :
    (m.hostResume vals p h rest).world.accounts = m.world.accounts := by
  simp only [hostResume, onHost, accounts_unholdAll, accounts_discardAll]
  split <;> simp

theorem accounts_hostFault (f : Fault) :
    (m.hostFault f h rest).world.accounts = m.world.accounts := by
  unfold hostFault
  split <;> simp

theorem grows_hostCall (func : FuncAddr) (args : List HostVal) (result : Option Nat)
    (catches : Bool) : m.world.Grows (m.hostCall func args result catches h rest).world := by
  unfold hostCall
  split
  · exact .of_accounts (accounts_afterFailure m h rest _ catches)
  · exact grows_enter _ ((accounts_exposeAll _ _).trans (accounts_acceptAll args _)) func _ none

theorem events_of_needs {op : HostOp} {name : String} {w : World} (h : op.needs? = some name) :
    op.events w = [] := by
  cases op <;> first | rfl | cases h

theorem events_of_logs {op : HostOp} {w : World} (h : op.Logs) : op.events w = [] := by
  cases op <;> first | rfl | cases h

theorem settles_hostOp {op : HostOp} {todo : List HostOp} {w : World} {used : Nat}
    (hop : h.todo = op :: todo) :
    let m : Machine := ⟨w, .host h :: rest, .run, used⟩
    let m' := m.hostOp op { h with todo } rest
    w.Settles (m.events m') m'.world := by
  intro m m'
  have hevents : m.events m' = op.events w := by simp [events, m, hop]
  have houtcome : HostOutcome m { h with todo } rest op m' := hostOp_outcome m _ rest op
  rw [hevents]
  clear_value m'
  cases houtcome with
  | set i v => exact .of_accounts (accounts_setResult _ i v _)
  | copy i k => exact .of_accounts (accounts_setResult _ i _ _)
  | added i | peeked => exact .of_accounts (accounts_putResult _ _ _ _)
  | trapped text => exact .of_accounts (accounts_failHost m _ _)
  | refused needs text =>
      rw [events_of_needs needs]
      exact .of_accounts (accounts_failHost m _ _)
  | logged logs entry =>
      rw [events_of_logs logs]
      exact .of_accounts rfl
  | poked _ _ written => exact .of_accounts (accounts_writeMemory written)
  | grown _ grown => exact .of_accounts (accounts_growMemory grown :)
  | globalSet _ set => exact .of_accounts (accounts_setGlobal set)
  | called => exact .of_grows (grows_hostCall m _ rest _ _ _ _)
  | fueled added =>
      obtain ⟨uses, rfl⟩ := addFuel_eq_ok added
      rw [HostOp.events, if_pos uses]
      exact .of_tallies (.added _ uses rfl) rfl rfl rfl
  | unfueled failed =>
      rw [HostOp.events, if_neg (addFuel_eq_error failed)]
      exact .of_accounts (accounts_failHost m _ _)
  | collected => exact .of_accounts (accounts_collect _ _)
  | interrupted signal =>
      refine .of_tallies (.requested signal rfl) rfl rfl ?_
      simp only [onHost, interrupt, mapShared, Shared.setPending]
      split <;> rfl
  | branched => exact .of_accounts rfl

theorem settles_hostStep (w : World) (used : Nat) :
    let m : Machine := ⟨w, .host h :: rest, .run, used⟩
    w.Settles (m.events (m.hostStep h rest)) (m.hostStep h rest).world := by
  intro m
  simp only [hostStep]
  split
  · rename_i htodo
    have hevents : m.events (m.finishHost h) = [] := by simp [events, m, htodo]
    rw [hevents]
    exact .of_accounts (accounts_finishHost m h)
  · rename_i htodo
    exact settles_hostOp h rest htodo

/-! ## Steps -/

theorem grows_commandStep (c : CommandFrame) :
    m.world.Grows (m.commandStep c rest).world := by
  unfold commandStep
  dsimp only
  split
  · exact grows_enter _ (by rfl) _ _ _
  · exact .of_accounts rfl

theorem grows_commandResume (vals : List StoreVal) (c : CommandFrame) :
    m.world.Grows (m.commandResume vals c rest).world := by
  unfold commandResume
  split
  · exact .of_accounts (by simp)
  · dsimp only
    split
    · exact grows_enter _ (accounts_exposeAll _ _) _ _ _
    · exact .of_accounts rfl

theorem events_code (w : World) (f : CodeFrame) (used : Nat) (m' : Machine) :
    events ⟨w, .code f :: rest, .run, used⟩ m' =
      if (f.step w).code? = some .interrupt then [.interrupted w.store.signal] else
        [.burned w.store.signal (w.store.fuel.remaining - m'.world.store.fuel.remaining)] := by
  simp only [events]
  split
  · rename_i h
    rw [h]
    rfl
  · rename_i h
    rw [if_neg]
    intro hc
    cases ho : f.step w with
    | trap c f' w' =>
        rw [ho, Outcome.code?, Option.some.injEq] at hc
        exact h f' w' (hc ▸ ho)
    | next | call | exit => simp [ho, Outcome.code?] at hc

variable {m}

theorem settles_step {m' : Machine} (hs : m.step = .inl m') :
    m.world.Settles (m.events m') m'.world := by
  cases step_sound hs with
  | @next w _ f _ _ _ out | @trap w _ f _ _ _ _ out | @exit w _ f _ _ _ out =>
      have hinstr := tallies_frameStep f w
      rw [events_code]
      rw [out] at hinstr ⊢
      exact hinstr.settles (.of_accounts rfl)
  | @call w _ f _ _ _ _ _ out =>
      have hinstr := tallies_frameStep f w
      rw [events_code]
      rw [out] at hinstr ⊢
      exact hinstr.settles (grows_enter _ (by rfl) _ _ _)
  | resume | unwind | hostLeft => exact .of_accounts rfl
  | hostRun => exact settles_hostStep _ _ _ _
  | hostBack => exact .of_accounts (accounts_hostResume _ _ _ _ _)
  | hostFault => exact .of_accounts (accounts_hostFault _ _ _ _)
  | commandRun => exact .of_grows (grows_commandStep _ _ _)
  | commandBack => exact .of_grows (grows_commandResume _ _ _ _)
  | @commandFault w c => exact .of_accounts (accounts_unholdAll c.held w)

end Machine

end WasmHost

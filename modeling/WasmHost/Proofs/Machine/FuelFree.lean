import WasmHost.Proofs.Linker.Commands
import WasmHost.Proofs.Machine.MoreFuel

/-!
# Host functions that leave the fuel alone

Whether a host function can read the fuel, add to it or catch a failure shows in its body. If the
host functions of a store can do none of that, no call in it has anything to do with fuel but to use
it up.
-/

namespace WasmHost

open World

mutual

/-- Whether an operation, with all that it can go on with, neither reads the fuel nor adds to it, and
catches no failures. -/
def HostOp.leavesFuel : HostOp → Bool
  | .fuel | .addFuel _ => false
  | .call _ _ _ catches => !catches
  | .branch _ zero nonzero => HostOp.allLeaveFuel zero && HostOp.allLeaveFuel nonzero
  | _ => true

/-- Whether all of some operations leave the fuel alone. -/
def HostOp.allLeaveFuel : List HostOp → Bool
  | [] => true
  | op :: ops => op.leavesFuel && HostOp.allLeaveFuel ops

end

/-- Whether a function leaves the fuel to code. -/
def FuncBody.leavesFuel : FuncBody → Bool
  | .host ops => HostOp.allLeaveFuel ops
  | _ => true

/-- Whether an activation does: a host function with all that it still has to do, and with the call
that it has under way. -/
def Activation.leavesFuel : Activation → Bool
  | .host h => HostOp.allLeaveFuel h.todo && h.pending.all fun p => !p.catches
  | .code _ | .command _ => true

/-- No function of a store has anything to do with fuel but to use it up. -/
def World.LeavesFuel (w : World) : Prop := ∀ f ∈ w.store.funcs, f.body.leavesFuel

/-- Nor has anything that was called. -/
structure Machine.LeavesFuel (m : Machine) : Prop where
  world : m.world.LeavesFuel
  stack : ∀ a ∈ m.stack, a.leavesFuel

variable {w w' : World} {m m' : Machine} {rest : List Activation}

theorem HostOp.allLeaveFuel_append (ops ops' : List HostOp) :
    HostOp.allLeaveFuel (ops ++ ops') =
      (HostOp.allLeaveFuel ops && HostOp.allLeaveFuel ops') := by
  induction ops with
  | nil => rfl
  | cons op ops ih => simp only [List.cons_append, HostOp.allLeaveFuel, ih, Bool.and_assoc]

theorem HostOp.mindsFuel_of_leavesFuel {op : HostOp} (h : op.leavesFuel) : op.mindsFuel = false := by
  cases op with
  | fuel | addFuel => cases h
  | _ => rfl

theorem Activation.rethrows_of_leavesFuel {a : Activation} (h : a.leavesFuel) : a.rethrows := by
  cases a with
  | code | command => rfl
  | host h' => exact (Bool.and_eq_true_iff.mp h).2

theorem World.LeavesFuel.of_funcs (h : w.LeavesFuel) (hf : w'.store.funcs = w.store.funcs) :
    w'.LeavesFuel := fun f hmem => h f (hf ▸ hmem)

/-- A call brings nothing but code. -/
theorem World.LeavesFuel.settles {events : List Event} (h : w.LeavesFuel)
    (hs : w.Settles events w') : w'.LeavesFuel := by
  intro f hmem
  obtain ⟨fs, hfs, hfuncs⟩ := hs.funcs
  rw [hfuncs, Array.mem_append] at hmem
  rcases hmem with hmem | hmem
  · exact h f hmem
  · obtain ⟨owner, code, hbody⟩ := hfs.body hmem
    rw [hbody]
    rfl

namespace Machine

/-! ## What a step leaves on the stack -/

theorem stack_leavesFuel_enter (hw : m.world.LeavesFuel) (hs : ∀ a ∈ m.stack, a.leavesFuel)
    (func : FuncAddr) (args : List StoreVal) (caller : Option InstanceAddr) :
    ∀ a ∈ (m.enter func args caller).stack, a.leavesFuel := by
  have hpushed {a : Activation} (ha : a.leavesFuel) : ∀ b ∈ a :: m.stack, b.leavesFuel :=
    List.forall_mem_cons.mpr ⟨ha, hs⟩
  have houtcome := enter_outcome m func args caller
  generalize m.enter func args caller = m' at houtcome ⊢
  cases houtcome with
  | unknown | full | refused | idle => exact hs
  | code | command => exact hpushed rfl
  | host known =>
      have hops := hw _ (Array.mem_of_getElem? known)
      exact hpushed (Bool.and_eq_true_iff.mpr ⟨hops, rfl⟩)
  | wasi known outcome => cases outcome <;> exact hs

theorem stack_leavesFuel_leaveHost (hs : ∀ a ∈ m.stack, a.leavesFuel) (h : HostFrame) :
    ∀ a ∈ (m.leaveHost h).stack, a.leavesFuel := by
  rw [leaveHost, popActivation_stack]
  exact fun a ha => hs a (List.mem_of_mem_tail ha)

section HostFunctions

variable {h : HostFrame}

theorem putResult_leavesFuel (i : Nat) (v : HostVal) (w : World) :
    (Activation.host (h.putResult i v w).1).leavesFuel = (Activation.host h).leavesFuel := by
  unfold HostFrame.putResult
  split <;> rfl

theorem stack_leavesFuel_afterFailure (hs : ∀ a ∈ m.stack, a.leavesFuel) (f : Failure) :
    ∀ a ∈ (m.afterFailure f false h rest).stack, a.leavesFuel :=
  stack_leavesFuel_leaveHost hs h

theorem stack_leavesFuel_finishHost (hs : ∀ a ∈ m.stack, a.leavesFuel) :
    ∀ a ∈ (m.finishHost h).stack, a.leavesFuel := by
  unfold finishHost
  dsimp only
  split <;> exact stack_leavesFuel_leaveHost (by exact hs) h

theorem stack_leavesFuel_hostOp (hm : m.LeavesFuel) (hh : (Activation.host h).leavesFuel)
    (hrest : ∀ a ∈ rest, a.leavesFuel) {op : HostOp} (hop : op.leavesFuel) :
    ∀ a ∈ (m.hostOp op h rest).stack, a.leavesFuel := by
  have hgo {h' : HostFrame} (hh' : (Activation.host h').leavesFuel) :
      ∀ a ∈ Activation.host h' :: rest, a.leavesFuel := List.forall_mem_cons.mpr ⟨hh', hrest⟩
  have houtcome := hostOp_outcome m h rest op
  generalize m.hostOp op h rest = m' at houtcome ⊢
  cases houtcome with
  | set | copy | added | peeked => exact hgo ((putResult_leavesFuel _ _ _).trans hh)
  | trapped | refused => exact stack_leavesFuel_leaveHost hm.stack h
  | logged | poked | grown | globalSet | collected | interrupted => exact hgo hh
  | fueled | unfueled => cases hop
  | called =>
      -- a call that does not catch leaves nothing under way that would
      rename_i catches _ _
      obtain rfl : catches = false := by simpa [HostOp.leavesFuel] using hop
      unfold hostCall
      split
      · exact stack_leavesFuel_afterFailure hm.stack _
      · refine stack_leavesFuel_enter (hm.world.of_funcs ?_) (hgo ?_) _ _ _
        · exact congrArg (·.funcs) ((accounts_exposeAll _ _).trans (accounts_acceptAll _ _))
        · exact Bool.and_eq_true_iff.mpr ⟨(Bool.and_eq_true_iff.mp hh).1, rfl⟩
  | branched k zero nonzero =>
      -- both lists were looked at, so it is the same which of them comes first
      obtain ⟨htodo, hpending⟩ := Bool.and_eq_true_iff.mp hh
      obtain ⟨hzero, hnonzero⟩ := Bool.and_eq_true_iff.mp hop
      refine hgo (Bool.and_eq_true_iff.mpr ⟨?_, hpending⟩)
      rw [HostOp.allLeaveFuel_append, Bool.and_eq_true]
      refine ⟨?_, htodo⟩
      split <;> assumption

theorem stack_leavesFuel_hostStep (hm : m.LeavesFuel) (hh : (Activation.host h).leavesFuel)
    (hrest : ∀ a ∈ rest, a.leavesFuel) : ∀ a ∈ (m.hostStep h rest).stack, a.leavesFuel := by
  unfold hostStep
  split
  · exact stack_leavesFuel_finishHost hm.stack
  · rename_i op todo htodo
    simp only [Activation.leavesFuel, htodo, HostOp.allLeaveFuel, Bool.and_eq_true] at hh
    obtain ⟨⟨hop, hall⟩, hpending⟩ := hh
    have hleft : (Activation.host { h with todo }).leavesFuel :=
      Bool.and_eq_true_iff.mpr ⟨hall, hpending⟩
    exact stack_leavesFuel_hostOp hm hleft hrest hop

theorem stack_leavesFuel_hostResume (hh : (Activation.host h).leavesFuel)
    (hrest : ∀ a ∈ rest, a.leavesFuel) (vals : List StoreVal) (p : PendingCall) :
    ∀ a ∈ (m.hostResume vals p h rest).stack, a.leavesFuel := by
  have hdone : (Activation.host { h with pending := none }).leavesFuel :=
    Bool.and_eq_true_iff.mpr ⟨(Bool.and_eq_true_iff.mp hh).1, rfl⟩
  refine List.forall_mem_cons.mpr ⟨?_, hrest⟩
  split
  · exact (putResult_leavesFuel _ _ _).trans hdone
  · exact hdone

theorem stack_leavesFuel_hostFault (hs : ∀ a ∈ m.stack, a.leavesFuel)
    (hh : (Activation.host h).leavesFuel) (f : Fault) :
    ∀ a ∈ (m.hostFault f h rest).stack, a.leavesFuel := by
  unfold hostFault
  split
  · rename_i p hp
    have hcatches : p.catches = false := by
      simpa [Activation.leavesFuel, hp] using (Bool.and_eq_true_iff.mp hh).2
    rw [hcatches]
    exact stack_leavesFuel_afterFailure (by exact hs) _
  · exact stack_leavesFuel_leaveHost hs h

end HostFunctions

theorem stack_leavesFuel_commandStep (hw : m.world.LeavesFuel)
    (hrest : ∀ a ∈ rest, a.leavesFuel) (c : CommandFrame) :
    ∀ a ∈ (m.commandStep c rest).stack, a.leavesFuel := by
  have hstarting : ∀ a ∈ Activation.command { c with stage := .starting } :: rest, a.leavesFuel :=
    List.forall_mem_cons.mpr ⟨rfl, hrest⟩
  unfold commandStep
  dsimp only
  split
  · exact stack_leavesFuel_enter (by exact hw) (by exact hstarting) _ _ _
  · exact hstarting

theorem stack_leavesFuel_commandResume (hm : m.LeavesFuel) (hrest : ∀ a ∈ rest, a.leavesFuel)
    (vals : List StoreVal) (c : CommandFrame) :
    ∀ a ∈ (m.commandResume vals c rest).stack, a.leavesFuel := by
  have hcalling : ∀ a ∈ Activation.command { c with stage := .calling } :: rest, a.leavesFuel :=
    List.forall_mem_cons.mpr ⟨rfl, hrest⟩
  unfold commandResume
  split
  · exact fun a ha => hm.stack a (List.mem_of_mem_tail (by simpa [giveBack] using ha))
  · dsimp only
    split
    · refine stack_leavesFuel_enter (hm.world.of_funcs ?_) (by exact hcalling) _ _ _
      exact congrArg (·.funcs) (accounts_exposeAll c.held m.world)
    · exact hcalling

/-! ## Runs -/

namespace LeavesFuel

theorem step (h : m.LeavesFuel) (hs : m.Steps m') : m'.LeavesFuel := by
  refine ⟨h.world.settles (settles_step hs), ?_⟩
  have hrest {a : Activation} {rest : List Activation} (hstack : m.stack = a :: rest) :
      a.leavesFuel ∧ ∀ b ∈ rest, b.leavesFuel := List.forall_mem_cons.mp (hstack ▸ h.stack)
  have hgo {a : Activation} {rest : List Activation} (hstack : m.stack = a :: rest) (g : CodeFrame) :
      ∀ b ∈ Activation.code g :: rest, b.leavesFuel :=
    List.forall_mem_cons.mpr ⟨rfl, (hrest hstack).2⟩
  cases step_sound hs with
  | next | trap | resume => exact hgo rfl _
  | @call w _ f _ _ _ _ _ out =>
      have hleft : (f.step w).world.LeavesFuel :=
        h.world.settles ((tallies_frameStep f w).settles (.of_accounts rfl))
      rw [out] at hleft
      exact stack_leavesFuel_enter hleft (hgo rfl _) _ _ _
  | exit | unwind | commandFault => exact (hrest rfl).2
  | hostRun => exact stack_leavesFuel_hostStep h (hrest rfl).1 (hrest rfl).2
  | hostBack => exact stack_leavesFuel_hostResume (hrest rfl).1 (hrest rfl).2 _ _
  | hostLeft => exact h.stack
  | hostFault => exact stack_leavesFuel_hostFault h.stack (hrest rfl).1 _
  | commandRun => exact stack_leavesFuel_commandStep h.world (hrest rfl).2 _
  | commandBack => exact stack_leavesFuel_commandResume h (hrest rfl).2 _ _

theorem reaches (h : m.LeavesFuel) (hr : m.Reaches m') : m'.LeavesFuel := by
  induction hr with
  | refl => exact h
  | tail _ hs ih => exact ih.step hs

theorem asksForFuel (h : m.LeavesFuel) : m.asksForFuel = false := by
  unfold Machine.asksForFuel
  split
  · rename_i f rest hstack _
    have hf := (List.forall_mem_cons.mp (hstack ▸ h.stack)).1
    have htodo := (Bool.and_eq_true_iff.mp hf).1
    cases htop : f.todo with
    | nil => rfl
    | cons op todo =>
        rw [htop, HostOp.allLeaveFuel, Bool.and_eq_true] at htodo
        exact HostOp.mindsFuel_of_leavesFuel htodo.1
  · rfl

/-- What leaves the fuel alone has nothing to do with it on any run. -/
theorem unaware (h : m.LeavesFuel) : m.Unaware where
  asks _ hr := (h.reaches hr).asksForFuel
  catches _ hr _ :=
    List.all_eq_true.mpr fun a ha => Activation.rethrows_of_leavesFuel ((h.reaches hr).stack a ha)

end LeavesFuel

end Machine

/-- If the host functions of a store leave the fuel alone, no call has anything to do with fuel but to
use it up. -/
theorem World.LeavesFuel.unaware (h : w.LeavesFuel) (func : FuncAddr) (args : List HostVal) :
    (w.begin func args).Unaware := by
  have hbegun : w.Settles [] (w.begin func args).world :=
    .of_grows (Machine.grows_enter _ ((accounts_exposeAll _ _).trans (accounts_acceptAll args w))
      func _ none)
  refine Machine.LeavesFuel.unaware ⟨h.settles hbegun, ?_⟩
  refine Machine.stack_leavesFuel_enter (h.of_funcs ?_) (by simp [Machine.idle]) _ _ _
  exact congrArg (·.funcs) ((accounts_exposeAll _ _).trans (accounts_acceptAll args w))

end WasmHost

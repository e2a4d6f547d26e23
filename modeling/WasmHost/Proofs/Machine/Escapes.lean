import WasmHost.Proofs.Machine.Arguments
import WasmHost.Proofs.Machine.Changes

/-!
# Faults that are no traps

A fault for which there is no trap code, host trap or exit counts as a trap only if some frame of
code was at work when it was raised. Here it is told when such a fault comes out of a run: exactly
when it is raised while nothing but commands is at work. What a step makes of the stack and of the
control is said once, in `Turn`.
-/

namespace WasmHost

/-- What an activation is. -/
inductive ActivationKind where
  | code | host | command
deriving DecidableEq

namespace Activation

/-- The kind of an activation. -/
def kind : Activation → ActivationKind
  | .code _ => .code
  | .host _ => .host
  | .command _ => .command

/-- The instance whose code called a host function, in case it was called by code. What is no host
function has nothing of the kind. -/
def caller? : Activation → Option (Option InstanceAddr)
  | .host h => some h.caller
  | .code _ | .command _ => none

/-- Whether an activation is ready for the end of a call: a host function is if it has one under
way. -/
def awaits : Activation → Bool
  | .host h => h.pending.isSome
  | .code _ | .command _ => true

end Activation

theorem World.trace_eq_nil {w : World} {stack : List Activation} (h : w.trace stack = []) :
    ∀ a ∈ stack, a.kind ≠ .code := by
  intro a ha hk
  rw [trace, List.filterMap_eq_nil_iff] at h
  have hnone := h a ha
  cases a with
  | code f => cases hnone
  | host h => cases hk
  | command c => cases hk

/-- A fault that is no trap was raised with no code at work. -/
theorem World.no_code_of_trap? {w : World} {c : Cause} {stack : List Activation}
    (h : ({ cause := c, trace := w.trace stack } : Fault).trap? = none) :
    ∀ a ∈ stack, a.kind ≠ .code := by
  cases c with
  | other text =>
      refine w.trace_eq_nil ?_
      simpa [Fault.trap?] using h
  | exit | code | host => cases h

/-- The frame is at the beginning of a function of the store. -/
structure CodeFrame.Begins (w : World) (f : CodeFrame) : Prop where
  known : ∃ (func : FuncAddr) (type : FuncType),
    w.store.funcs[func]? = some ⟨type, .code f.owner f.code⟩
  pc : f.pc = 0
  entered : f.entered = false
  blocks : ∃ b, f.blocks = [b]
  owed : f.owed = 1
  burned : f.burned = 0

/-- What code an activation runs is at its beginning. -/
def Activation.Begins (w : World) : Activation → Prop
  | .code f => f.Begins w
  | .host _ | .command _ => True

namespace Machine

/-- What the beginning of a call makes of the control and of the stack that it finds. -/
inductive Entered (stack : List Activation) (m : Machine) : Prop
  | pushed (a : Activation) (pushed : m.stack = a :: stack) (control : m.control = .run)
      (begins : a.Begins m.world)
  | gave (vals : List StoreVal) (same : m.stack = stack) (control : m.control = .back vals)
  | raised (w : World) (c : Cause) (same : m.stack = stack)
      (control : m.control = .fault { cause := c, trace := w.trace stack })

/-- What a step makes of the stack and the control. -/
inductive Turn (m m' : Machine) : Prop
  /-- The topmost activation goes on. -/
  | onward {a a' : Activation} {rest : List Activation} (stack : m.stack = a :: rest)
      (stack' : m'.stack = a' :: rest) (kind : a'.kind = a.kind) (control : m'.control = .run)
      (caller : a'.caller? = a.caller?)
  /-- The topmost activation calls something. -/
  | called {a a' : Activation} {rest : List Activation} (stack : m.stack = a :: rest)
      (entered : Entered (a' :: rest) m') (kind : a'.kind = a.kind) (awaits : a'.awaits)
      (calm : ∀ f, m.control ≠ .fault f) (caller : a'.caller? = a.caller?)
  /-- The topmost activation returns. -/
  | returned {a : Activation} (stack : m.stack = a :: m'.stack) (vals : List StoreVal)
      (control : m'.control = .back vals)
  /-- The topmost activation fails with a trap. -/
  | failed {a : Activation} {f : Fault} {t : Trap} (stack : m.stack = a :: m'.stack)
      (control : m'.control = .fault f) (trap : f.trap? = some t)
  /-- The topmost activation lets a fault go on. A host function does that only with no call under
  way. -/
  | unwound {a : Activation} {f : Fault} (stack : m.stack = a :: m'.stack)
      (control : m.control = .fault f) (control' : m'.control = .fault f)
      (passes : a.kind = .host → a.awaits = false)

theorem entered_enter {m : Machine} {stack : List Activation} (hs : m.stack = stack)
    (func : FuncAddr) (args : List StoreVal) (caller : Option InstanceAddr) :
    Entered stack (m.enter func args caller) := by
  subst hs
  have houtcome := enter_outcome m func args caller
  generalize m.enter func args caller = m' at houtcome ⊢
  cases houtcome with
  | unknown | idle => exact .gave _ rfl rfl
  | full => exact .raised m.world _ rfl rfl
  | @code type _ _ known => exact .pushed _ rfl rfl ⟨⟨func, type, known⟩, rfl, rfl, ⟨_, rfl⟩, rfl, rfl⟩
  | host | command => exact .pushed _ rfl rfl trivial
  | @refused _ _ _ _ _ w => exact .raised (w.unholdAll args) _ rfl rfl
  | wasi known outcome =>
      cases outcome with
      | unattended => exact .raised m.world _ rfl rfl
      | failed => exact .raised _ _ rfl rfl
      | gave => exact .gave _ rfl rfl

theorem turn_enter {m m₁ : Machine} {a a' : Activation} {rest : List Activation}
    (stack₁ : m₁.stack = a' :: rest) (stack : m.stack = a :: rest) (kind : a'.kind = a.kind)
    (awaits : a'.awaits) (calm : ∀ f, m.control ≠ .fault f) (same : a'.caller? = a.caller?)
    (func : FuncAddr) (args : List StoreVal) (caller : Option InstanceAddr) :
    Turn m (m₁.enter func args caller) :=
  .called stack (entered_enter stack₁ func args caller) kind awaits calm same

section HostFunctions

variable {m m₁ : Machine} {h h' : HostFrame} {rest : List Activation}

@[simp] theorem popActivation_stack (m : Machine) : m.popActivation.stack = m.stack.tail := by
  unfold popActivation
  split
  · rename_i hs
    rw [hs, List.tail_nil]
  · rename_i hs
    rw [hs, List.tail_cons]

@[simp] theorem popActivation_control (m : Machine) : m.popActivation.control = m.control := by
  unfold popActivation
  split <;> rfl

theorem caller_putResult (i : Nat) (v : HostVal) (w : World) :
    (h.putResult i v w).1.caller = h.caller ∧ (h.putResult i v w).1.todo = h.todo := by
  unfold HostFrame.putResult
  split <;> exact ⟨rfl, rfl⟩

/-! A host function at work; `m₁` is the machine with some other world, and `h'` is what has become
of the host function. -/

theorem turn_onHost (stack : m.stack = .host h :: rest) (caller : h'.caller = h.caller)
    (w : World) : Turn m (m₁.onHost h' rest w) :=
  .onward stack rfl rfl rfl (congrArg some caller)

theorem turn_failHost (stack : m.stack = .host h :: rest) (same : m₁.stack = .host h :: rest)
    (t : Trap) (h' : HostFrame) : Turn m (m₁.failHost t h') := by
  refine .failed (a := .host h) ?_ rfl rfl
  simp [failHost, raise, leaveHost, same, stack]

theorem turn_afterFailure (stack : m.stack = .host h :: rest) (caller : h'.caller = h.caller)
    (same : m₁.stack = .host h :: rest) (f : Failure) (catches : Bool) :
    Turn m (m₁.afterFailure f catches h' rest) := by
  unfold afterFailure
  split
  · exact turn_onHost stack caller _
  · exact turn_failHost stack same _ h'

theorem turn_finishHost (stack : m.stack = .host h :: rest) (h' : HostFrame) :
    Turn m (m.finishHost h') := by
  unfold finishHost
  dsimp only
  split
  · exact turn_failHost stack (by exact stack) _ h'
  · refine .returned (a := .host h) ?_ _ rfl
    simp [giveBack, leaveHost, stack]

theorem turn_hostCall (stack : m.stack = .host h :: rest) (caller : h'.caller = h.caller)
    (control : m.control = .run) (func : FuncAddr) (args : List HostVal) (result : Option Nat)
    (catches : Bool) : Turn m (m.hostCall func args result catches h' rest) := by
  unfold hostCall
  split
  · exact turn_afterFailure stack caller stack _ catches
  · refine turn_enter rfl stack (by rfl) rfl (fun f hf => ?_) ?_ func _ none
    · rw [control] at hf
      cases hf
    · exact congrArg some caller

theorem turn_hostOp (stack : m.stack = .host h :: rest) (caller : h'.caller = h.caller)
    (control : m.control = .run) (op : HostOp) : Turn m (m.hostOp op h' rest) := by
  have hputs (i : Nat) (v : HostVal) (w : World) : (h'.putResult i v w).1.caller = h.caller :=
    (caller_putResult i v w).1.trans caller
  have houtcome := hostOp_outcome m h' rest op
  generalize m.hostOp op h' rest = m' at houtcome ⊢
  cases houtcome with
  | set | copy | added | peeked => exact turn_onHost stack (hputs _ _ _) _
  | trapped | refused | unfueled => exact turn_failHost stack stack _ h'
  | called => exact turn_hostCall stack caller control _ _ _ _
  | branched => exact turn_onHost stack (by exact caller) _
  | _ => exact turn_onHost stack caller _

theorem turn_hostResume (stack : m.stack = .host h :: rest) (vals : List StoreVal)
    (p : PendingCall) : Turn m (m.hostResume vals p h rest) := by
  refine turn_onHost stack ?_ _
  split
  · exact (caller_putResult _ _ _).1
  · rfl

theorem turn_hostFault {f : Fault} (stack : m.stack = .host h :: rest)
    (control : m.control = .fault f) : Turn m (m.hostFault f h rest) := by
  unfold hostFault
  split
  · refine turn_afterFailure stack ?_ (by exact stack) _ _
    rfl
  · rename_i hp
    refine .unwound (a := .host h) ?_ control ?_ fun _ => ?_
    · simp [leaveHost, stack]
    · simpa [leaveHost] using control
    · simp [Activation.awaits, hp]

end HostFunctions

/-- Every step is a turn. -/
theorem turn_of_steps {m m' : Machine} (hs : m.Steps m') : Turn m m' := by
  cases step_sound hs with
  | next | resume | hostLeft => exact .onward rfl rfl rfl rfl rfl
  | trap => exact .called rfl (.raised _ _ rfl rfl) rfl rfl (by simp) rfl
  | call => exact turn_enter rfl rfl (by rfl) rfl (by simp) (by rfl) _ _ _
  | exit => exact .returned rfl _ rfl
  | unwind | commandFault => exact .unwound rfl rfl rfl (by simp [Activation.kind])
  | @hostRun w h rest =>
      unfold hostStep
      split
      · exact turn_finishHost rfl h
      · exact turn_hostOp rfl (by rfl) rfl _
  | hostBack => exact turn_hostResume rfl _ _
  | hostFault => exact turn_hostFault rfl rfl
  | commandRun =>
      unfold commandStep
      dsimp only
      split
      · exact turn_enter rfl rfl (by rfl) rfl (by simp) (by rfl) _ _ _
      · exact .called rfl (.gave _ rfl rfl) rfl rfl (by simp) rfl
  | commandBack =>
      unfold commandResume
      split
      · exact .returned rfl _ rfl
      · dsimp only
        split
        · exact turn_enter rfl rfl (by rfl) rfl (by simp) (by rfl) _ _ _
        · exact .called rfl (.gave _ rfl rfl) rfl rfl (by simp) rfl

/-! ## Stacks in order -/

/-- The activations that wait for the end of what they called. -/
def waiting (m : Machine) : List Activation :=
  match m.control with
  | .run => m.stack.tail
  | .back _ | .fault _ => m.stack

/-- What waits has a call under way, and a fault that is no trap finds no code on the stack. -/
structure Framed (m : Machine) : Prop where
  waiting : ∀ a ∈ m.waiting, a.awaits
  codeless : ∀ f, m.control = .fault f → f.trap? = none → ∀ a ∈ m.stack, a.kind ≠ .code

theorem Framed.of_run {m : Machine} {a : Activation} {rest : List Activation}
    (stack : m.stack = a :: rest) (control : m.control = .run) (h : ∀ b ∈ rest, b.awaits) :
    m.Framed := by
  constructor
  · rw [Machine.waiting, control, stack]
    exact h
  · intro f hf
    rw [control] at hf
    cases hf

theorem Framed.of_back {m : Machine} {vals : List StoreVal} (control : m.control = .back vals)
    (h : ∀ b ∈ m.stack, b.awaits) : m.Framed := by
  constructor
  · rw [Machine.waiting, control]
    exact h
  · intro f hf
    rw [control] at hf
    cases hf

theorem Framed.of_fault {m : Machine} {f : Fault} (control : m.control = .fault f)
    (h : ∀ b ∈ m.stack, b.awaits) (hc : f.trap? = none → ∀ b ∈ m.stack, b.kind ≠ .code) :
    m.Framed := by
  constructor
  · rw [Machine.waiting, control]
    exact h
  · intro g hg
    rw [control] at hg
    cases hg
    exact hc

theorem Framed.of_entered {m : Machine} {stack : List Activation} (h : Entered stack m)
    (hs : ∀ b ∈ stack, b.awaits) : m.Framed := by
  cases h with
  | pushed a hpushed control => exact .of_run hpushed control hs
  | gave vals same control => exact .of_back control (same ▸ hs)
  | raised w c same control =>
      refine .of_fault control (same ▸ hs) fun hbare => ?_
      rw [same]
      exact w.no_code_of_trap? hbare

variable {m m' : Machine} {f : Fault}

/-- Everything under the topmost activation waits for it. -/
theorem Framed.awaits {a : Activation} {rest : List Activation} (h : m.Framed)
    (stack : m.stack = a :: rest) : ∀ b ∈ rest, b.awaits := by
  intro b hb
  refine h.waiting b ?_
  unfold Machine.waiting
  rw [stack]
  split
  · exact hb
  · exact List.mem_cons_of_mem a hb
  · exact List.mem_cons_of_mem a hb

theorem Framed.turn (h : m.Framed) (ht : Turn m m') : m'.Framed := by
  cases ht with
  | onward stack stack' kind control => exact .of_run stack' control (h.awaits stack)
  | @called a a' rest stack entered kind awaits calm =>
      refine .of_entered entered fun b hb => ?_
      rcases List.mem_cons.mp hb with rfl | hb
      · exact awaits
      · exact h.awaits stack b hb
  | returned stack vals control => exact .of_back control (h.awaits stack)
  | failed stack control trap =>
      refine .of_fault control (h.awaits stack) fun hbare => ?_
      rw [trap] at hbare
      cases hbare
  | unwound stack control control' passes =>
      refine .of_fault control' (h.awaits stack) fun hbare b hb => ?_
      exact h.codeless _ control hbare b (stack ▸ List.mem_cons_of_mem _ hb)

theorem Framed.reaches (h : m.Framed) (hr : m.Reaches m') : m'.Framed := by
  induction hr with
  | refl => exact h
  | tail _ hs ih => exact ih.turn (turn_of_steps hs)

/-- What lets a fault go on that is no trap is a command. -/
theorem Framed.command_of_unwound {a : Activation} {rest : List Activation} (h : m.Framed)
    (stack : m.stack = a :: rest) (control : m.control = .fault f) (bare : f.trap? = none)
    (passes : a.kind = .host → a.awaits = false) : a.kind = .command := by
  have ha : a ∈ m.stack := by simp [stack]
  have hcode := h.codeless f control bare a ha
  have hwaits : a.awaits := h.waiting a (by simpa [Machine.waiting, control] using ha)
  cases hk : a.kind with
  | code => exact absurd hk hcode
  | host =>
      rw [passes hk] at hwaits
      cases hwaits
  | command => rfl

/-! ## Where such a fault is raised -/

/-- In a run from `m₀` a fault has just been raised at `m`: none of the stack is unwound yet. -/
structure Raised (m₀ m : Machine) (f : Fault) : Prop where
  control : m.control = .fault f
  fresh : m = m₀ ∨ ∃ m₁, m₀.Reaches m₁ ∧ m₁.Steps m ∧ ∀ g, m₁.control ≠ .fault g

/-- A fault that is no trap is raised in a run while nothing but commands is at work. -/
def Escapes (m₀ : Machine) (f : Fault) : Prop :=
  f.trap? = none ∧ ∃ m, m₀.Raised m f ∧ ∀ a ∈ m.stack, a.kind = .command

theorem Raised.reached {m₀ : Machine} (h : m₀.Raised m f) : m₀.Reaches m := by
  rcases h.fresh with rfl | ⟨m₁, hr, hs, -⟩
  · exact .refl
  · exact hr.tail hs

/-- Under commands a fault stays as it is. -/
theorem ends_of_commands {stack : List Activation} (hs : ∀ a ∈ stack, a.kind = .command)
    (w : World) (used : Nat) : ∃ w', Ends ⟨w, stack, .fault f, used⟩ (.error f, w') := by
  induction stack generalizing w used with
  | nil => exact ⟨w, 1, rfl⟩
  | cons a rest ih =>
      have ha := hs a List.mem_cons_self
      cases a with
      | code | host => cases ha
      | command c =>
          obtain ⟨w', hends⟩ := ih (fun b hb => hs b (List.mem_cons_of_mem _ hb)) _ _
          exact ⟨w', hends.of_steps rfl⟩

theorem Escapes.ends {m₀ : Machine} (h : m₀.Escapes f) : ∃ w, m₀.Ends (.error f, w) := by
  obtain ⟨-, ⟨w, stack, control, used⟩, hraised, hs⟩ := h
  obtain rfl : control = .fault f := hraised.control
  obtain ⟨w', hends⟩ := ends_of_commands hs w used
  exact ⟨w', hends.of_reaches hraised.reached⟩

/-- A fault that is no trap and finds nothing but commands was raised that way. -/
theorem Framed.escapes {m₀ : Machine} (h : m₀.Framed) (hr : m₀.Reaches m)
    (hc : m.control = .fault f) (bare : f.trap? = none) (hs : ∀ a ∈ m.stack, a.kind = .command) :
    m₀.Escapes f := by
  induction hr with
  | refl => exact ⟨bare, m₀, ⟨hc, .inl rfl⟩, hs⟩
  | @tail m₁ m hr hstep ih =>
      cases turn_of_steps hstep with
      | onward _ _ _ control | returned _ _ control => simp [control] at hc
      | failed _ control trap =>
          rw [control] at hc
          cases hc
          rw [trap] at bare
          cases bare
      | called stack entered kind awaits calm =>
          exact ⟨bare, m, ⟨hc, .inr ⟨m₁, hr, hstep, calm⟩⟩, hs⟩
      | @unwound a g stack control control' passes =>
          obtain rfl : g = f := by simpa [control'] using hc
          -- the fault was the same before, under one more command
          refine ih control fun b hb => ?_
          rw [stack] at hb
          rcases List.mem_cons.mp hb with rfl | hb
          · exact (h.reaches hr).command_of_unwound stack control bare passes
          · exact hs b hb

theorem Ends.reaches {r : RunResult} (h : m.Ends r) : ∃ m', m.Reaches m' ∧ m'.step = .inr r := by
  obtain ⟨n, hn⟩ := h
  induction n generalizing m with
  | zero => cases hn
  | succ n ih =>
      simp only [run] at hn
      split at hn
      · rename_i m₁ hs
        obtain ⟨m', hr, he⟩ := ih hn
        exact ⟨m', .head hs hr, he⟩
      · rename_i r' hs
        cases hn
        exact ⟨m, .refl, hs⟩

/-- A run ends with a fault that is no trap exactly if the fault is raised under nothing but
commands. -/
theorem Framed.ends_iff_escapes (h : m.Framed) (bare : f.trap? = none) :
    (∃ w, m.Ends (.error f, w)) ↔ m.Escapes f := by
  constructor
  · rintro ⟨w, hends⟩
    obtain ⟨m', hr, he⟩ := hends.reaches
    have hstack := stack_of_end he
    refine h.escapes hr ?_ bare (by simp [hstack])
    obtain ⟨w', stack, control, used⟩ := m'
    cases hstack
    cases control <;> cases he
    rfl
  · exact Escapes.ends

/-! ## What is at the bottom of the stack -/

/-- The lowest activation is of a kind; once it is gone, no fault is left that is no trap. -/
structure Based (k : ActivationKind) (m : Machine) : Prop where
  base : ∀ a, m.stack.getLast? = some a → a.kind = k
  done : m.stack = [] → ∀ f, m.control = .fault f → f.trap? ≠ none

theorem base_of_kind {k : ActivationKind} {a a' : Activation} {rest : List Activation}
    (h : ∀ b, (a :: rest).getLast? = some b → b.kind = k) (kind : a'.kind = a.kind) :
    ∀ b, (a' :: rest).getLast? = some b → b.kind = k := by
  cases rest with
  | nil => simpa [kind] using h
  | cons b rest => simpa [List.getLast?_cons_cons] using h

theorem base_of_cons {k : ActivationKind} {a : Activation} {rest : List Activation}
    (h : ∀ b, (a :: rest).getLast? = some b → b.kind = k) :
    ∀ b, rest.getLast? = some b → b.kind = k := by
  cases rest with
  | nil => simp
  | cons b rest => simpa [List.getLast?_cons_cons] using h

theorem Based.of_entered {k : ActivationKind} {a : Activation} {rest : List Activation}
    (h : Entered (a :: rest) m) (ha : ∀ b, (a :: rest).getLast? = some b → b.kind = k) :
    m.Based k := by
  cases h with
  | pushed b hpushed control =>
      refine ⟨?_, by simp [hpushed]⟩
      rw [hpushed, List.getLast?_cons_cons]
      exact ha
  | gave vals same control => exact ⟨same ▸ ha, by simp [same]⟩
  | raised w c same control => exact ⟨same ▸ ha, by simp [same]⟩

theorem Based.turn {k : ActivationKind} (h : m.Based k) (framed : m.Framed) (hk : k ≠ .command)
    (ht : Turn m m') : m'.Based k := by
  cases ht with
  | onward stack stack' kind control =>
      refine ⟨?_, by simp [stack']⟩
      rw [stack']
      exact base_of_kind (stack ▸ h.base) kind
  | called stack entered kind awaits calm =>
      exact .of_entered entered (base_of_kind (stack ▸ h.base) kind)
  | returned stack vals control => exact ⟨base_of_cons (stack ▸ h.base), by simp [control]⟩
  | failed stack control trap =>
      exact ⟨base_of_cons (stack ▸ h.base), by simp [control, trap]⟩
  | @unwound a f stack control control' passes =>
      refine ⟨base_of_cons (stack ▸ h.base), fun hnil g hg bare => ?_⟩
      obtain rfl : f = g := by simpa [control'] using hg
      -- the activation that let the fault go on was the lowest one
      have hbase := h.base a (by simp [stack, hnil])
      exact hk (hbase ▸ framed.command_of_unwound stack control bare passes)

theorem Based.reaches {k : ActivationKind} (h : m.Based k) (framed : m.Framed) (hk : k ≠ .command)
    (hr : m.Reaches m') : m'.Based k := by
  induction hr with
  | refl => exact h
  | tail hr hs ih => exact ih.turn (framed.reaches hr) hk (turn_of_steps hs)

/-- Above code or a host function every fault becomes a trap. -/
theorem Based.not_escapes {k : ActivationKind} (h : m.Based k) (framed : m.Framed)
    (hk : k ≠ .command) : ¬m.Escapes f := by
  rintro ⟨bare, m', hraised, hs⟩
  have hbased := h.reaches framed hk hraised.reached
  cases hlast : m'.stack.getLast? with
  | none => exact hbased.done (List.getLast?_eq_none_iff.mp hlast) f hraised.control bare
  | some a =>
      refine hk ?_
      rw [← hbased.base a hlast]
      exact hs a (List.mem_of_getLast? hlast)

/-! ## Calls -/

theorem framed_enter (w : World) (func : FuncAddr) (args : List StoreVal)
    (caller : Option InstanceAddr) : ((idle w).enter func args caller).Framed := by
  have hentered : Entered [] ((idle w).enter func args caller) := entered_enter (by rfl) _ _ _
  exact .of_entered hentered (by simp)

theorem Based.of_back {k : ActivationKind} {vals : List StoreVal} (stack : m.stack = [])
    (control : m.control = .back vals) : m.Based k := ⟨by simp [stack], by simp [control]⟩

theorem Based.of_single {k : ActivationKind} {a : Activation} (stack : m.stack = [a])
    (kind : a.kind = k) : m.Based k := ⟨by simp [stack, kind], by simp [stack]⟩

/-- A call from outside that fails with no trap is that of a command or of a function of the system
interface. -/
theorem Escapes.body {w : World} {func : FuncAddr} {args : List StoreVal}
    {caller : Option InstanceAddr} (h : ((idle w).enter func args caller).Escapes f) :
    ∃ g, w.store.funcs[func]? = some g ∧ match g.body with
      | .wasi _ | .command .. => True
      | .code .. | .host _ | .idle => False := by
  have bottom {k : ActivationKind} (hk : k ≠ .command)
      (hb : ((idle w).enter func args caller).Based k) : False :=
    hb.not_escapes (framed_enter w func args caller) hk h
  cases hg : (idle w).world.store.funcs[func]? with
  | none =>
      refine (bottom (k := .code) (by decide) ?_).elim
      rw [enter, hg]
      exact .of_back rfl rfl
  | some g =>
      refine ⟨g, hg, ?_⟩
      cases hbody : g.body with
      | wasi | command => trivial
      | idle =>
          refine bottom (k := .code) (by decide) ?_
          simp only [enter, hg, hbody]
          exact .of_back rfl rfl
      | host ops =>
          refine bottom (k := .host) (by decide) ?_
          simp only [enter, hg, hbody]
          exact .of_single (by rfl) rfl
      | code owner code =>
          refine bottom (k := .code) (by decide) ?_
          simp only [enter, hg, hbody]
          split
          · exact ⟨by simp [raise, idle], by simp [raise, Fault.trap?]⟩
          · exact .of_single (by rfl) rfl

theorem Ends.unique {r r' : RunResult} (h : m.Ends r) (h' : m.Ends r') : r = r' := by
  obtain ⟨n, hn⟩ := h
  obtain ⟨k, hk⟩ := h'
  have hle := run_mono hn (Nat.le_max_left n k)
  rw [run_mono hk (Nat.le_max_right n k)] at hle
  exact (Option.some.inj hle).symm

/-- The fault of a function of the system interface that no instance called. -/
def unattended : Fault := { cause := .other "missing required memory export" }

end Machine

end WasmHost

import WasmHost.Proofs.Embedding.FuelBounds
import WasmHost.Proofs.Embedding.HostFunctions
import WasmHost.Proofs.Machine.Callers

/-!
# What a host function sees of its caller

A host function sees the exports of one instance, or none. If a call instruction called it, they are
those of the instance whose code the instruction is in, wherever the function was found: among the
imports of the instance, in a table that several of them share, or as an export that was exported
again. Whatever the host function calls meanwhile, and whoever calls it anew, it goes on to see the
same instance.
-/

namespace WasmHost

open World

/-- What a host function does besides its operations is done at the top of the stack as well. -/
theorem HostMove.turn_run {w : World} {t : Task} {h : HostFrame} {rest : List Activation}
    (at_host : t.AtHost h rest) (c : HostMove) :
    Machine.Turn (t.machine w) (c.run h rest (t.machine w)) := by
  have stack : (t.machine w).stack = .host h :: rest := at_host.1
  have running : (t.machine w).control = .run := at_host.2
  cases c with
  | call func args result catches => exact Machine.turn_hostCall stack rfl running _ _ _ _
  | start addr catches =>
      simp only [run]
      split
      · refine Machine.turn_enter rfl stack (by rfl) rfl (fun f hf => ?_) (by rfl) _ _ _
        rw [running] at hf
        cases hf
      · exact .onward stack stack rfl running rfl
  | setResult i v => exact Machine.turn_onHost stack (Machine.caller_putResult _ _ _).1 _
  | fail trap => exact Machine.turn_failHost stack stack _ h
  | finish => exact Machine.turn_finishHost stack h

namespace Usage

variable {u u' v : Usage} {func : FuncAddr} {seen : List HostVal} {caller : Option InstanceAddr}
  {f : CodeFrame} {h : HostFrame} {above rest : List Activation}

/-! ## Code on the stack -/

/-- A frame of code after a step begins a function of the store, or runs the code of one before. -/
theorem Step.code (hu : u.Typed) (step : u.Step u') (hf : .code f ∈ u'.stack) :
    f.Begins u'.world ∨ ∃ g, .code g ∈ u.stack ∧ f.owner = g.owner ∧ f.code = g.code := by
  cases step with
  | shared | store | newLinker | dropLinker | link | resolve => exact .inr ⟨f, hf, rfl, rfl⟩
  | call | start =>
      have hentered := (Machine.entered_enter (by rfl) _ _ _).frame hf
      exact .inl (hentered.resolve_left List.not_mem_nil)
  | work task step =>
      obtain ⟨final, ht⟩ := hu.task _ task
      rw [stack_of_task task]
      exact Machine.code_of_steps ht step hf
  | @move t h rest task at_host c =>
      rw [stack_of_task task]
      have hkind : (Activation.host h).kind ≠ .code := by simp [Activation.kind]
      have hframe := ((HostMove.turn_run at_host c).frame at_host.1 hkind).1 hf
      exact hframe.symm.imp_right fun hf => ⟨f, hf, rfl, rfl⟩
  | answer => cases hf

/-- All code on the stack is that of functions of the store. -/
theorem Reachable.serves (hu : u.Reachable) : ∀ f, .code f ∈ u.stack → f.Serves u.world := by
  induction hu with
  | start => intro f hf; cases hf
  | step before step ih =>
      intro f hf
      rcases step.code before.typed hf with hbegins | ⟨g, hg, owner, code⟩
      · exact hbegins.known
      · exact ((ih g hg).extends (before.typed.step step).2).congr owner code

/-- What calls a function next, with the instance that a host function then is called by: that of
the code if a call instruction calls it, that of a start function, and none otherwise. -/
inductive CalledBy (u : Usage) (func : FuncAddr) : Option InstanceAddr → Prop
  /-- A call instruction is at work, in a function of the instance. -/
  | instruction {t : Task} {f g : CodeFrame} {below : List Activation} {args : List StoreVal}
      {w : World} (task : u.task = some t) (stack : t.stack = .code f :: below)
      (running : t.control = .run) (serves : f.Serves u.world) (at_call : f.AtCall)
      (step : f.step u.world = .call func args g w) : CalledBy u func (some f.owner)
  /-- The function is the start function of the instance, which the host runs. -/
  | start {addr : InstanceAddr} (by_host : ∀ f below, u.stack ≠ .code f :: below)
      (start : u.world.startFunc? addr = some func) : CalledBy u func (some addr)
  /-- The host calls the function. -/
  | direct (by_host : ∀ f below, u.stack ≠ .code f :: below) : CalledBy u func none

theorem Calls.calledBy (hu : u.Reachable) (calls : u.Calls func seen caller u') :
    u.CalledBy func caller := by
  have idle (hidle : u.task = none) (f : CodeFrame) (below : List Activation) :
      u.stack ≠ .code f :: below := by
    rw [stack, hidle]
    exact (List.cons_ne_nil _ _).symm
  have by_host {t : Task} {h : HostFrame} {below : List Activation} (task : u.task = some t)
      (at_host : t.AtHost h below) (f : CodeFrame) (below' : List Activation) :
      u.stack ≠ .code f :: below' := by
    rw [stack_of_task task, at_host.1]
    simp
  have by_command {t : Task} {c : CommandFrame} {below : List Activation} (task : u.task = some t)
      (stack : t.stack = .command c :: below) (f : CodeFrame) (below' : List Activation) :
      u.stack ≠ .code f :: below' := by
    rw [stack_of_task task, stack]
    simp
  cases calls with
  | outside hidle => exact .direct (idle hidle)
  | start hidle start => exact .start (idle hidle) start
  | @code t f g below args w task stack running step =>
      obtain ⟨final, ht⟩ := hu.typed.task t task
      obtain ⟨owner, at_call⟩ := (ht.frame stack running).atCall step
      have serves := hu.serves f (stack_of_task task ▸ stack ▸ List.mem_cons_self)
      rw [owner]
      exact .instruction task stack running serves at_call step
  | op task at_host | host task at_host => exact .direct (by_host task at_host)
  | hostStart task at_host start => exact .start (by_host task at_host) start
  | commandStart task stack _ start => exact .start (by_command task stack) start
  | commandEntry task stack => exact .direct (by_command task stack)

/-! ## Host functions on the stack -/

/-- A host function that a call has put on the stack has the caller of the call. -/
theorem Calls.caller_eq (calls : u.Calls func seen caller u') (pushed : u'.stack = .host h :: rest)
    (length : rest.length = u.stack.length) : h.caller = caller := by
  obtain ⟨t, m, args, rfl, -, -, hlength⟩ := calls.enters
  exact Machine.caller_of_enter pushed (length.trans hlength.symm)

/-- A step changes the stack at its top only. -/
theorem Step.alters (step : u.Step u') : Alters u.stack u'.stack := by
  cases step with
  | shared | store | newLinker | dropLinker | link | resolve => exact .shifts .same
  | call idle | start idle =>
      have hnone : u.stack = [] := by rw [stack, idle, Option.elim_none]
      rw [hnone]
      exact (Machine.entered_enter (by rfl) _ _ _).alters .same rfl
  | work task step =>
      rw [stack_of_task task]
      exact (Machine.turn_of_steps step).alters
  | move task at_host c =>
      rw [stack_of_task task]
      exact (HostMove.turn_run at_host c).alters
  | answer task ended =>
      have hnone := Machine.stack_of_end ended
      rw [stack_of_task task, show Task.stack _ = [] from hnone]
      exact .shifts .same

/-- The stack shifts, or a call puts something on it. -/
theorem Step.calls_or_shifts (step : u.Step u') : Shifts u.stack u'.stack ∨
    ∃ func seen caller b s, u.Calls func seen caller u' ∧ u'.stack = b :: s ∧ Shifts u.stack s ∧
      s.length = u.stack.length ∧ ∀ h, b = .host h → h.caller = caller := by
  cases step.alters with
  | shifts shifts => exact .inl shifts
  | @pushed b s pushed shifts length =>
      have grown : u.stack.length < u'.stack.length := by
        rw [pushed, List.length_cons, length]
        exact Nat.lt_succ_self _
      cases htask : u'.task with
      | none =>
          rw [stack, htask] at pushed
          cases pushed
      | some t' =>
          rw [stack_of_task htask] at grown
          obtain ⟨func, seen, caller, calls⟩ :=
            step.exists_calls htask fun t ht => stack_of_task ht ▸ grown
          refine .inr ⟨func, seen, caller, b, s, calls, pushed, shifts, length, fun h hb => ?_⟩
          exact calls.caller_eq (hb ▸ pushed) length

/-- The store goes on being used while more than `n` activations are on the stack. -/
abbrev StaysAbove (n : Nat) : Usage → Usage → Prop :=
  Relation.ReflTransGen fun u u' => u.Step u' ∧ n < u'.stack.length

/-- A call with a caller has put a host function on `rest`, and it has been there since. -/
inductive Began (caller : Option InstanceAddr) (rest : List Activation) (u : Usage) : Prop
  | mk {u₀ u₁ : Usage} {func : FuncAddr} {seen : List HostVal} {h : HostFrame}
      (before : u₀.Reachable) (calls : u₀.Calls func seen caller u₁)
      (calledBy : u₀.CalledBy func caller) (begun : u₁.stack = .host h :: rest)
      (stays : StaysAbove rest.length u₁ u)

theorem Began.step (began : u.Began caller rest) (step : u.Step u')
    (long : rest.length < u'.stack.length) : u'.Began caller rest := by
  obtain ⟨before, calls, calledBy, begun, stays⟩ := began
  exact ⟨before, calls, calledBy, begun, stays.tail ⟨step, long⟩⟩

/-- A host function on the stack was put there by a call. -/
theorem Reachable.began (hu : u.Reachable) (hstack : u.stack = above ++ .host h :: rest) :
    u.Began h.caller rest := by
  induction hu generalizing above h with
  | start => exact absurd hstack.symm (List.append_ne_nil_of_right_ne_nil _ (by simp))
  | @step u u' before step ih =>
      have long : rest.length < u'.stack.length := by
        rw [hstack, List.length_append, List.length_cons]
        omega
      rcases step.calls_or_shifts with shifts |
        ⟨func, seen, caller, b, s, calls, pushed, shifts, -, hcaller⟩
      · obtain ⟨above₁, h₁, stack₁, caller⟩ := shifts.was_there hstack
        exact caller ▸ (ih stack₁).step step long
      · rw [hstack] at pushed
        cases above with
        | nil =>
            cases pushed
            have calls := hcaller h rfl ▸ calls
            exact ⟨before, calls, calls.calledBy before, hstack, .refl⟩
        | cons a above =>
            cases pushed
            obtain ⟨above₁, h₁, stack₁, caller⟩ := shifts.was_there rfl
            exact caller ▸ (ih stack₁).step step long

end Usage

end WasmHost

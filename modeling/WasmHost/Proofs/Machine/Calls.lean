import WasmHost.Proofs.Machine.Bases

/-!
# How calls end

`Clears` says how what is at work above a stack ends: with the first machine that has nothing but
the stack left. `World.CallEnds` says so of a call. A call that is made by an activation that is no
code ends as it would without the activation: that is how a call is taken out of the run it is in.
-/

namespace WasmHost

namespace Machine

variable {base base' above : List Activation} {n : Nat} {w w' : World} {c c' : Control}
  {a : Activation} {m m' : Machine}

theorem Entered.stack_above (h : Entered base m) :
    ∃ above, m.stack = above ++ base ∧ (above = [] → m.control ≠ .run) := by
  cases h with
  | pushed a pushed => exact ⟨[a], pushed, by simp⟩
  | gave vals same control => exact ⟨[], same, by simp [control]⟩
  | raised w c same control => exact ⟨[], same, by simp [control]⟩

/-- A step leaves all but the topmost activation, and goes on only if something is left above
them. -/
theorem Steps.stack_above {rest : List Activation} (h : m.Steps m') (hstack : m.stack = a :: rest) :
    ∃ above, m'.stack = above ++ rest ∧ (above = [] → m'.control ≠ .run) := by
  cases turn_of_steps h with
  | @onward _ a' _ stack stack' =>
      rw [hstack] at stack
      cases stack
      exact ⟨[a'], stack', by simp⟩
  | @called _ a' _ stack entered =>
      rw [hstack] at stack
      cases stack
      obtain ⟨above, habove, -⟩ := entered.stack_above
      exact ⟨above ++ [a'], by simp [habove], by simp⟩
  | returned stack vals control =>
      rw [hstack] at stack
      cases stack
      exact ⟨[], rfl, by simp [control]⟩
  | failed stack control =>
      rw [hstack] at stack
      cases stack
      exact ⟨[], rfl, by simp [control]⟩
  | unwound stack _ control =>
      rw [hstack] at stack
      cases stack
      exact ⟨[], rfl, by simp [control]⟩

/-- What is at work above a stack comes to its end: the second machine is the first one that has
nothing but the stack left. -/
inductive Clears (base : List Activation) : Machine → Machine → Prop
  | done {m : Machine} (stack : m.stack = base) (control : m.control ≠ .run) : Clears base m m
  | step {m m₁ m' : Machine} (above : base.length < m.stack.length) (first : m.Steps m₁)
      (rest : Clears base m₁ m') : Clears base m m'

theorem Steps.unique {m₁ : Machine} (h : m.Steps m') (h' : m.Steps m₁) : m' = m₁ :=
  Sum.inl.inj (Eq.trans (Eq.symm h) h')

namespace Clears

variable {m₁ m'' : Machine}

theorem ended (h : Clears base m m') : m'.stack = base ∧ m'.control ≠ .run := by
  induction h with
  | done stack control => exact ⟨stack, control⟩
  | step _ _ _ ih => exact ih

theorem reaches (h : Clears base m m') : m.Reaches m' := by
  induction h with
  | done => exact .refl
  | step _ first _ ih => exact .head first ih

theorem step_iff (above : base.length < m.stack.length) (first : m.Steps m₁) :
    Clears base m m' ↔ Clears base m₁ m' := by
  refine ⟨fun h => ?_, .step above first⟩
  cases h with
  | done stack => exact absurd above (by simp [stack])
  | step _ first' rest => exact first'.unique first ▸ rest

theorem done_iff (stack : m.stack = base) (control : m.control ≠ .run) :
    Clears base m m' ↔ m' = m := by
  refine ⟨fun h => ?_, fun h => by rw [h]; exact .done stack control⟩
  cases h with
  | done => rfl
  | step above => exact absurd above (by simp [stack])

/-- What is above a larger stack comes to its end first. -/
theorem append (h : Clears (a :: base) m m₁) (h' : Clears base m₁ m') : Clears base m m' := by
  induction h with
  | done => exact h'
  | step above first _ ih => exact .step (Nat.lt_of_succ_lt above) first (ih h')

theorem split (h : Clears base m m') (stack : m.stack = above ++ a :: base)
    (control : above = [] → m.control ≠ .run) :
    ∃ m₁, Clears (a :: base) m m₁ ∧ Clears base m₁ m' := by
  induction h generalizing above with
  | done hstack =>
      have hlength := congrArg List.length (hstack.symm.trans stack)
      simp only [List.length_append, List.length_cons] at hlength
      omega
  | @step m m₁ m' hlength first rest ih =>
      cases above with
      | nil => exact ⟨m, .done stack (control rfl), .step hlength first rest⟩
      | cons b above =>
          have hstack : m.stack = b :: (above ++ a :: base) := stack
          obtain ⟨above', hstack, hcontrol⟩ := first.stack_above hstack
          rw [← List.append_assoc] at hstack
          obtain ⟨m₂, hclears, hrest⟩ := ih hstack fun hnil =>
            hcontrol (List.append_eq_nil_iff.mp hnil).1
          refine ⟨m₂, .step ?_ first hclears, hrest⟩
          simp only [stack, List.cons_append, List.length_cons, List.length_append]
          omega

/-- Above stacks with the same frames of code the ends are the same. -/
theorem alike (h : Clears base m m') (same : codeFrames base = codeFrames base')
    (hm : Alike base base' n m m₁) :
    ∃ w c, c ≠ .run ∧ m' = ⟨w, base, c, n⟩ ∧ Clears base' m₁ ⟨w, base', c, n⟩ := by
  induction h generalizing m₁ with
  | done stack control =>
      obtain ⟨w, above, c, rfl, rfl⟩ := hm
      obtain rfl : above = [] := List.append_cancel_right (stack.trans (List.nil_append _).symm)
      exact ⟨w, c, control, rfl, .done rfl control⟩
  | step hlength first _ ih =>
      obtain ⟨w, above, c, rfl, rfl⟩ := hm
      cases above with
      | nil => simp at hlength
      | cons a above =>
          obtain ⟨m₂, m₂', hs, hs', halike⟩ := alike_step (n := n) (w := w) (a := a)
            (c := c) same
          obtain ⟨w', c', hcontrol, rfl, hclears⟩ := ih (hs.unique first ▸ halike)
          refine ⟨w', c', hcontrol, rfl, .step ?_ hs' hclears⟩
          simp only [atop_stack, List.cons_append, List.length_cons, List.length_append]
          omega

end Clears

/-! ## Calls -/

/-- What begins a call does not look at the control. -/
theorem enter_control (func : FuncAddr) (args : List StoreVal) (caller : Option InstanceAddr)
    (w : World) (stack : List Activation) (c c' : Control) (n : Nat) :
    enter func args caller ⟨w, stack, c, n⟩ = enter func args caller ⟨w, stack, c', n⟩ := by
  unfold enter
  dsimp only
  cases w.store.funcs[func]? with
  | none => rfl
  | some f =>
      obtain ⟨type, body⟩ := f
      cases body with
      | code owner code =>
          exact ite_congr rfl (fun _ => rfl) fun _ => rfl
      | host | idle => rfl
      | command module imports entry =>
          dsimp only
          split <;> rfl
      | wasi g =>
          dsimp only [enterWasi]
          split
          · rfl
          · split <;> rfl

end Machine

/-- The control with which a call ends. -/
def Control.of : Except Fault (List StoreVal) → Control
  | .ok vals => .back vals
  | .error f => .fault f

@[simp] theorem Control.of_ne_run (r : Except Fault (List StoreVal)) : Control.of r ≠ .run := by
  cases r <;> simp [Control.of]

theorem Control.of_injective {r s : Except Fault (List StoreVal)} (h : Control.of r = .of s) :
    r = s := by
  cases r <;> cases s <;> cases h <;> rfl

theorem Control.exists_of {c : Control} (h : c ≠ .run) : ∃ r, c = Control.of r := by
  cases c with
  | run => exact absurd rfl h
  | back vals => exact ⟨.ok vals, rfl⟩
  | fault f => exact ⟨.error f, rfl⟩

/-- A call that is made above a stack which needs so many bytes comes to an end. -/
def World.CallEnds (w : World) (base : List Activation) (n : Nat) (func : FuncAddr)
    (args : List StoreVal) (caller : Option InstanceAddr) (r : RunResult) : Prop :=
  (Machine.enter func args caller ⟨w, base, .run, n⟩).Clears base ⟨r.2, base, .of r.1, n⟩

namespace Machine

variable {base : List Activation} {n : Nat} {w : World} {a : Activation} {m : Machine}
  {func : FuncAddr} {args : List StoreVal} {caller : Option InstanceAddr}

theorem codeFrames_cons_of_ne (h : a.kind ≠ .code) : codeFrames (a :: base) = codeFrames base := by
  cases a with
  | code => exact absurd rfl h
  | host | command => rfl

/-- Where nothing is left above the stack, that is the end. -/
theorem clears_ended_iff {r : RunResult} {r' : Except Fault (List StoreVal)} :
    Clears base ⟨w, base, .of r', n⟩ ⟨r.2, base, .of r.1, n⟩ ↔ r = (r', w) := by
  have hdone := @Clears.done_iff base ⟨w, base, .of r', n⟩ ⟨r.2, base, .of r.1, n⟩ rfl
    (Control.of_ne_run r')
  refine hdone.trans ⟨?_, ?_⟩
  · intro h
    obtain ⟨hw, -, hr, -⟩ := Machine.mk.inj h
    exact Prod.ext (Control.of_injective hr) hw
  · intro h
    rw [h]

/-- A call that an activation makes is one that is made above the stack under it, and then the
activation goes on. -/
theorem clears_call_iff (c : Control) (h : a.kind ≠ .code) :
    (enter func args caller ⟨w, a :: base, c, n⟩).Clears base m ↔
      ∃ r, w.CallEnds base n func args caller r ∧
        Clears base ⟨r.2, a :: base, .of r.1, n⟩ m := by
  have halike : Alike (a :: base) base n (enter func args caller ⟨w, a :: base, c, n⟩)
      (enter func args caller ⟨w, base, .run, n⟩) := by
    rw [enter_control func args caller w (a :: base) c .run n]
    exact Alike.enter (codeFrames_cons_of_ne h) (.refl w [] .run) func args caller
  constructor
  · intro hclears
    have hentered : Entered (a :: base) (enter func args caller ⟨w, a :: base, c, n⟩) :=
      entered_enter (by rfl) func args caller
    obtain ⟨above, hstack, hcontrol⟩ := hentered.stack_above
    obtain ⟨m₁, hfirst, hrest⟩ := hclears.split hstack hcontrol
    obtain ⟨w', c', hc', rfl, hcall⟩ := hfirst.alike (codeFrames_cons_of_ne h) halike
    obtain ⟨r, rfl⟩ := Control.exists_of hc'
    exact ⟨(r, w'), hcall, hrest⟩
  · rintro ⟨⟨r, w'⟩, hcall, hrest⟩
    obtain ⟨w'', c', -, heq, hfirst⟩ :=
      Clears.alike hcall (codeFrames_cons_of_ne h).symm halike.symm
    cases heq
    exact hfirst.append hrest

theorem clears_of_reaches {m' : Machine} (h : m.Reaches m') (stack : m'.stack = [])
    (control : m.stack = [] → m.control ≠ .run) : Clears [] m m' := by
  induction h using Relation.ReflTransGen.head_induction_on with
  | refl => exact .done stack (control stack)
  | @head m m₁ first _ ih =>
      cases hstack : m.stack with
      | nil =>
          -- a machine with nothing to do takes no step
          cases step_sound first <;> cases hstack
      | cons a rest =>
          refine .step (by simp [hstack]) first (ih fun hnil => ?_)
          obtain ⟨above, habove, hcontrol⟩ := first.stack_above hstack
          rw [hnil] at habove
          exact hcontrol (List.append_eq_nil_iff.mp habove.symm).1

/-- A call from outside ends as its run does. -/
theorem ends_iff_callEnds {r : RunResult} :
    ((idle w).enter func args caller).Ends r ↔ w.CallEnds [] 0 func args caller r := by
  obtain ⟨r, w'⟩ := r
  have hentered : Entered [] ((idle w).enter func args caller) :=
    entered_enter (by rfl) func args caller
  have halike : Alike [] [] 0 ((idle w).enter func args caller)
      ((idle w).enter func args caller) :=
    Alike.enter rfl (.refl w [] .run) func args caller
  constructor
  · intro hends
    obtain ⟨m', hreaches, hlast⟩ := hends.reaches
    have hstack := stack_of_end hlast
    have hclears := clears_of_reaches hreaches hstack fun hnil => by
      obtain ⟨above, habove, hcontrol⟩ := hentered.stack_above
      rw [hnil, List.append_nil] at habove
      exact hcontrol habove.symm
    obtain ⟨v, c, hc, rfl, -⟩ := hclears.alike rfl halike
    obtain ⟨r', rfl⟩ := Control.exists_of hc
    cases r' <;> cases hlast <;> exact hclears
  · intro hcall
    refine Ends.of_reaches (Clears.reaches hcall) ⟨1, ?_⟩
    cases r <;> rfl

end Machine

end WasmHost

import Mathlib.Data.Nat.Find
import Mathlib.Logic.Relation
import WasmHost.Machine.Run

/-!
# Runs of a machine

A machine takes steps until it ends. `Steps` and `Reaches` are the relations behind `step`, and
`Ends` is the one behind `run`. `Step` tells by rules what a step is: by what is on top of the stack,
and by what is done next. A machine that ends does so after a number of steps that is its own: a
limit below that number gives no answer, and every other limit gives the same one.
-/

namespace WasmHost.Machine

/-- One step leads from one machine to another. -/
def Steps (m m' : Machine) : Prop := m.step = .inl m'

/-- A step, with a rule for each thing that is done next. -/
inductive Step : Machine → Machine → Prop
  | next {w w' : World} {f g : CodeFrame} {rest : List Activation} {used : Nat}
      (out : f.step w = .next g w') :
      Step ⟨w, .code f :: rest, .run, used⟩ ⟨w', .code g :: rest, .run, used⟩
  | trap {w w' : World} {f g : CodeFrame} {rest : List Activation} {used : Nat} {c : TrapCode}
      (out : f.step w = .trap c g w') :
      Step ⟨w, .code f :: rest, .run, used⟩ (raise (.code c) ⟨w', .code g :: rest, .run, used⟩)
  | call {w w' : World} {f g : CodeFrame} {rest : List Activation} {used : Nat} {func : FuncAddr}
      {args : List StoreVal} (out : f.step w = .call func args g w') :
      Step ⟨w, .code f :: rest, .run, used⟩
        (enter func args (some g.owner) ⟨w', .code g :: rest, .run, used⟩)
  | exit {w w' : World} {f : CodeFrame} {rest : List Activation} {used : Nat}
      {vals : List StoreVal} (out : f.step w = .exit vals w') :
      Step ⟨w, .code f :: rest, .run, used⟩ ⟨w', rest, .back vals, used - Activation.codeSize⟩
  | resume {w : World} {f : CodeFrame} {rest : List Activation} {used : Nat}
      {vals : List StoreVal} :
      Step ⟨w, .code f :: rest, .back vals, used⟩
        ⟨w, .code (f.pushAll vals).advance :: rest, .run, used⟩
  | unwind {w : World} {f : CodeFrame} {rest : List Activation} {used : Nat} {e : Fault} :
      Step ⟨w, .code f :: rest, .fault e, used⟩
        (popActivation ⟨w, .code f :: rest, .fault e, used⟩)
  | hostRun {w : World} {h : HostFrame} {rest : List Activation} {used : Nat} :
      Step ⟨w, .host h :: rest, .run, used⟩ (hostStep h rest ⟨w, .host h :: rest, .run, used⟩)
  | hostBack {w : World} {h : HostFrame} {rest : List Activation} {used : Nat}
      {vals : List StoreVal} {p : PendingCall} (pending : h.pending = some p) :
      Step ⟨w, .host h :: rest, .back vals, used⟩
        (hostResume vals p h rest ⟨w, .host h :: rest, .back vals, used⟩)
  | hostLeft {w : World} {h : HostFrame} {rest : List Activation} {used : Nat}
      {vals : List StoreVal} (pending : h.pending = none) :
      Step ⟨w, .host h :: rest, .back vals, used⟩ ⟨w, .host h :: rest, .run, used⟩
  | hostFault {w : World} {h : HostFrame} {rest : List Activation} {used : Nat} {e : Fault} :
      Step ⟨w, .host h :: rest, .fault e, used⟩
        (hostFault e h rest ⟨w, .host h :: rest, .fault e, used⟩)
  | commandRun {w : World} {c : CommandFrame} {rest : List Activation} {used : Nat} :
      Step ⟨w, .command c :: rest, .run, used⟩
        (commandStep c rest ⟨w, .command c :: rest, .run, used⟩)
  | commandBack {w : World} {c : CommandFrame} {rest : List Activation} {used : Nat}
      {vals : List StoreVal} :
      Step ⟨w, .command c :: rest, .back vals, used⟩
        (commandResume vals c rest ⟨w, .command c :: rest, .back vals, used⟩)
  | commandFault {w : World} {c : CommandFrame} {rest : List Activation} {used : Nat} {e : Fault} :
      Step ⟨w, .command c :: rest, .fault e, used⟩
        (popActivation ⟨w.unholdAll c.held, .command c :: rest, .fault e, used⟩)

theorem step_sound {m m' : Machine} (h : m.Steps m') : Step m m' := by
  obtain ⟨w, stack, control, used⟩ := m
  rcases stack with _ | ⟨f | h | c, rest⟩
  · cases control <;> cases h
  · cases control with
    | run =>
        simp only [Steps, step] at h
        split at h <;> rename_i out <;> cases h
        · exact .next out
        · exact .trap out
        · exact .call out
        · exact .exit out
    | back vals => cases h; exact .resume
    | fault e => cases h; exact .unwind
  · cases control with
    | run => cases h; exact .hostRun
    | back vals =>
        simp only [Steps, step] at h
        split at h <;> rename_i pending <;> cases h
        · exact .hostBack pending
        · exact .hostLeft pending
    | fault e => cases h; exact .hostFault
  · cases control with
    | run => cases h; exact .commandRun
    | back vals => cases h; exact .commandBack
    | fault e => cases h; exact .commandFault

theorem step_complete {m m' : Machine} (h : Step m m') : m.Steps m' := by
  cases h with
  | next out | trap out | call out | exit out => simp [Steps, step, out]
  | hostBack pending | hostLeft pending => simp [Steps, step, pending]
  | _ => rfl

/-- Some steps lead from one machine to another. -/
abbrev Reaches : Machine → Machine → Prop := Relation.ReflTransGen Steps

/-- The machine comes to an end. -/
def Ends (m : Machine) (r : RunResult) : Prop := ∃ n, m.run n = some r

theorem run_succ {m m' : Machine} (h : m.Steps m') (n : Nat) : m.run (n + 1) = m'.run n := by
  simp only [run]
  rw [show m.step = .inl m' from h]

theorem run_mono {m : Machine} {r : RunResult} {n k : Nat} (h : m.run n = some r) (hk : n ≤ k) :
    m.run k = some r := by
  induction n generalizing m k with
  | zero => simp [run] at h
  | succ n ih =>
      obtain ⟨k, rfl⟩ : ∃ j, k = j + 1 := ⟨k - 1, by omega⟩
      simp only [run] at h ⊢
      cases hs : m.step with
      | inl m' =>
          rw [hs] at h
          exact ih h (by omega)
      | inr r' =>
          rw [hs] at h
          exact h

theorem Ends.of_steps {m m' : Machine} {r : RunResult} (h : m.Steps m') (hr : m'.Ends r) :
    m.Ends r := by
  obtain ⟨n, hn⟩ := hr
  exact ⟨n + 1, (run_succ h n).trans hn⟩

theorem Ends.of_reaches {m m' : Machine} {r : RunResult} (h : m.Reaches m') (hr : m'.Ends r) :
    m.Ends r := by
  induction h using Relation.ReflTransGen.head_induction_on with
  | refl => exact hr
  | head hs _ ih => exact ih.of_steps hs

/-- The steps that a machine takes to its end are the least limit that gives an answer. -/
theorem Ends.run_eq {m : Machine} {r : RunResult} (h : m.Ends r) :
    ∃ n, ∀ limit, m.run limit = if n ≤ limit then some r else none := by
  classical
  refine ⟨Nat.find h, fun limit => ?_⟩
  split
  · exact run_mono (Nat.find_spec h) ‹_›
  · rename_i hlt
    cases hr : m.run limit with
    | none => rfl
    | some r' =>
        -- an answer below the least limit would be that of the least limit as well
        have hle := run_mono hr (Nat.le_of_not_le hlt)
        rw [Nat.find_spec h, Option.some.injEq] at hle
        exact absurd (Nat.find_min' h (hle ▸ hr)) hlt

/-- A machine comes to its end at some limit, or goes on at every limit. -/
theorem run_eq_or_none (m : Machine) :
    (∃ n r, m.Ends r ∧ ∀ limit, m.run limit = if n ≤ limit then some r else none) ∨
      ∀ limit, m.run limit = none := by
  by_cases hends : ∃ r, m.Ends r
  · obtain ⟨r, hends⟩ := hends
    obtain ⟨n, hrun⟩ := hends.run_eq
    exact .inl ⟨n, r, hends, hrun⟩
  · refine .inr fun limit => ?_
    rw [Option.eq_none_iff_forall_ne_some]
    exact fun r hr => hends ⟨r, limit, hr⟩

end WasmHost.Machine

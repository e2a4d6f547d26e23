import WasmHost.Proofs.Machine.Suspension

/-!
# Host functions below the top of a stack

Only the activation on top of a stack changes, and a host function that changes keeps its caller. So
whatever is called above it, a host function that is still there has the caller that it began with.
-/

namespace WasmHost

/-- The second stack comes of the first one without a call: the activation on top has ended or goes
on, if anything has changed. -/
inductive Shifts : List Activation → List Activation → Prop
  | same {s : List Activation} : Shifts s s
  | ended {a : Activation} {rest : List Activation} : Shifts (a :: rest) rest
  | onward {a a' : Activation} {rest : List Activation} (caller : a'.caller? = a.caller?) :
      Shifts (a :: rest) (a' :: rest)

namespace Shifts

variable {s s' above rest : List Activation} {h : HostFrame}

/-- A host function was there before. -/
theorem was_there (hs : Shifts s s') (stack : s' = above ++ .host h :: rest) :
    ∃ above' h', s = above' ++ .host h' :: rest ∧ h'.caller = h.caller := by
  cases hs with
  | same => exact ⟨above, h, stack, rfl⟩
  | @ended a => exact ⟨a :: above, h, by rw [stack, List.cons_append], rfl⟩
  | @onward a a' below caller =>
      cases above with
      | nil =>
          cases stack
          cases a with
          | host h' => exact ⟨[], h', rfl, (Option.some.inj caller).symm⟩
          | code _ | command _ => cases caller
      | cons b above =>
          cases stack
          exact ⟨a :: above, h, rfl, rfl⟩

end Shifts

/-- What becomes of a stack: it shifts, and perhaps a call puts something on it. -/
inductive Alters (s s' : List Activation) : Prop
  | shifts (shifts : Shifts s s')
  | pushed {b : Activation} {t : List Activation} (stack : s' = b :: t) (shifts : Shifts s t)
      (length : t.length = s.length) : Alters s s'

namespace Machine

variable {m m' : Machine} {s rest : List Activation} {h : HostFrame}

theorem Entered.alters {t : List Activation} (entered : Entered t m) (shifts : Shifts s t)
    (length : t.length = s.length) : Alters s m.stack := by
  cases entered with
  | pushed b pushed => exact .pushed pushed shifts length
  | gave _ same | raised _ _ same => exact .shifts (same ▸ shifts)

/-- A stack changes at its top only. -/
theorem Turn.alters (ht : Turn m m') : Alters m.stack m'.stack := by
  cases ht with
  | onward stack stack' _ _ caller =>
      rw [stack, stack']
      exact .shifts (.onward caller)
  | called stack entered _ _ _ caller =>
      rw [stack]
      exact entered.alters (.onward caller) rfl
  | returned stack | failed stack | unwound stack =>
      rw [stack]
      exact .shifts .ended

/-- A host function that is called has the caller of the call. -/
theorem caller_of_enter {func : FuncAddr} {args : List StoreVal} {caller : Option InstanceAddr}
    (pushed : (m.enter func args caller).stack = .host h :: rest)
    (length : rest.length = m.stack.length) : h.caller = caller := by
  have hne (stack : m.stack = .host h :: rest) : h.caller = caller := by
    rw [stack] at length
    exact absurd length (Nat.ne_of_lt (Nat.lt_succ_self _))
  have houtcome := enter_outcome m func args caller
  generalize m.enter func args caller = m' at houtcome pushed
  cases houtcome with
  | unknown | full | refused | idle => exact hne pushed
  | code | command => cases pushed
  | host =>
      cases pushed
      rfl
  | wasi known outcome => cases outcome <;> exact hne pushed

end Machine

end WasmHost

import WasmHost.Proofs.Machine.Runs

/-!
# The arguments of a call

A call from outside looks at its arguments first. Those that fit are as many as the function has
parameters and have their kinds, one by one; all others are refused with a type mismatch.
-/

namespace WasmHost

theorem argError?_eq_none_iff {ts : List ValType} {vs : List HostVal}
    (hlength : ts.length = vs.length) : argError? ts vs = none ↔ vs.map Val.type = ts := by
  induction ts generalizing vs with
  | nil =>
      obtain rfl := List.length_eq_zero_iff.mp hlength.symm
      simp [argError?]
  | cons t ts ih =>
      cases vs with
      | nil => cases hlength
      | cons v vs =>
          simp only [argError?, List.map_cons, List.cons.injEq]
          split
          · rename_i hv
            rw [ih (Nat.succ.inj hlength)]
            simp [hv]
          · rename_i hv
            simp [hv]

theorem checkArgs_eq_ok_iff {type : FuncType} {args : List HostVal} :
    checkArgs type args = .ok () ↔ args.map Val.type = type.params := by
  unfold checkArgs
  split
  · rename_i hlength
    simp only [reduceCtorEq, false_iff]
    intro h
    exact hlength (by rw [← h, List.length_map])
  · rename_i hlength
    rw [← argError?_eq_none_iff (by simpa using hlength)]
    split <;> simp_all

theorem isType_argError? {ts : List ValType} {vs : List HostVal} {e : Error}
    (h : argError? ts vs = some e) : ∃ text, e = .typeMismatch text := by
  induction ts generalizing vs with
  | nil => simp [argError?] at h
  | cons t ts ih =>
      cases vs with
      | nil => simp [argError?] at h
      | cons v vs =>
          simp only [argError?] at h
          split at h
          · exact ih h
          · cases h
            exact ⟨_, rfl⟩

/-- Arguments are refused with a type mismatch only. -/
theorem checkArgs_error {type : FuncType} {args : List HostVal} {e : Error}
    (h : checkArgs type args = .error e) : ∃ text, e = .typeMismatch text := by
  unfold checkArgs at h
  split at h
  · cases h
    exact ⟨_, rfl⟩
  · split at h
    · rename_i he
      cases h
      exact isType_argError? he
    · cases h

/-- Arguments that do not fit differ from the parameters in number or in the kind at some place. -/
theorem misfit_iff {params : List ValType} {args : List HostVal} :
    args.map Val.type ≠ params ↔ args.length ≠ params.length ∨
      ∃ (i : Nat) (v : HostVal) (t : ValType),
        args[i]? = some v ∧ params[i]? = some t ∧ v.type ≠ t := by
  constructor
  · intro h
    by_cases hlength : args.length = params.length
    · refine .inr ?_
      by_contra hfit
      refine h (List.ext_getElem (by simpa using hlength) fun i hi hi' => ?_)
      by_contra hne
      rw [List.length_map] at hi
      exact hfit ⟨i, args[i], params[i], List.getElem?_eq_getElem hi, List.getElem?_eq_getElem hi',
        by simpa using hne⟩
    · exact .inl hlength
  · rintro (hlength | ⟨i, v, t, hv, ht, hne⟩) rfl
    · simp at hlength
    · rw [List.getElem?_map, hv] at ht
      cases ht
      exact hne rfl

/-- The machine that a call from outside sets going. -/
def World.begin (func : FuncAddr) (args : List HostVal) (w : World) : Machine :=
  (Machine.idle ((w.acceptAll args).2.exposeAll (w.acceptAll args).1)).enter func
    (w.acceptAll args).1 none

end WasmHost

import WasmHost.Datum.Json
import Mathlib.Tactic.IntervalCases

/-!
# Decimal digits

The digits that a number is written with, read again.
-/

namespace WasmHost.Datum.Json

theorem isDigit_of_decimal {n : Nat} {c : Char} (h : c ∈ Nat.toDigits 10 n) : c.isDigit = true :=
  Nat.isDigit_of_mem_toDigits (by decide) (by decide) h

theorem decimal_ne_nil (n : Nat) : Nat.toDigits 10 n ≠ [] :=
  List.ne_nil_of_length_pos Nat.length_toDigits_pos

theorem ne_minus_of_isDigit {c : Char} (h : c.isDigit = true) : c ≠ '-' := by
  rintro rfl; simp at h

theorem digitsValue_decimal (n : Nat) : digitsValue (Nat.toDigits 10 n) = n := by
  have h := Nat.ofDigitChars_toDigits (b := 10) (n := n) (by decide) (by decide)
  rwa [Nat.ofDigitChars] at h

/-- No zero stands before other digits. -/
theorem decimal_eq_of_zero {n : Nat} {ds : List Char} (h : Nat.toDigits 10 n = '0' :: ds) :
    ds = [] := by
  have hn : n = 0 := by
    induction n using Nat.strongRecOn generalizing ds with
    | ind n ih =>
      by_cases hlt : n < 10
      · rw [Nat.toDigits_of_lt_base hlt] at h
        have hc : n.digitChar = '0' := (List.cons.inj h).1
        interval_cases n <;> simp_all
      · rw [Nat.toDigits_of_base_le (by decide) (by omega)] at h
        obtain ⟨d, rest, hd⟩ := List.exists_cons_of_ne_nil (decimal_ne_nil (n / 10))
        rw [hd, List.cons_append, List.cons.injEq] at h
        have hz := ih (n / 10) (by omega) (h.1 ▸ hd)
        omega
  subst hn
  simpa using h.symm

end WasmHost.Datum.Json

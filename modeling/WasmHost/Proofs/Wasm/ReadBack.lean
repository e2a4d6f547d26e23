import Mathlib.Data.List.Forall2
import WasmHost.Proofs.Text.Utf8
import WasmHost.Proofs.Wasm.Reading

/-!
# What is written is read back

`Reader.Finds` says what a reader makes of bytes that were written for it, wherever they stand and
whatever comes behind them: if it succeeds at all, it has read all of them and no more. So it is with
the types, the imports and the exports of a module, which are read as they were written.
-/

namespace WasmHost.Wasm

/-! ## Numbers -/

namespace Leb

theorem lt_twoTo_iff {n width : Nat} (h : 7 < width) :
    n < twoTo width ↔ n / 128 < twoTo (width - 7) := by
  obtain ⟨k, rfl⟩ : ∃ k, width = k + 7 := ⟨width - 7, by omega⟩
  have hpow : twoTo (k + 7) = twoTo k * 128 := Nat.pow_add 2 k 7
  rw [Nat.add_sub_cancel, Nat.div_lt_iff_lt_mul (by decide), hpow]

theorem groups_unsigned (n : Nat) {width : Nat} (hw : 0 < width) (rest : List UInt8) :
    (groups (fun w g => g < twoTo w) width (unsigned n ++ rest)).map (fun r => (r.1, r.2.2)) =
      if n < twoTo width then some (n, rest) else none := by
  induction n using Nat.strongRecOn generalizing width with
  | ind n ih =>
      rw [unsigned]
      split
      · rename_i hn
        have hbyte : (UInt8.ofNat n).toNat = n := Text.toNat_ofNat (by omega)
        simp only [List.cons_append, List.nil_append, groups, hbyte, Nat.mod_eq_of_lt hn, hn,
          true_and, if_true, decide_eq_true_eq]
        by_cases hwide : width ≤ 7
        · simp only [hwide, if_true]
          split <;> rfl
        · have hlt : n < twoTo width := by
            rw [lt_twoTo_iff (by omega), Nat.div_eq_of_lt hn]
            exact Nat.two_pow_pos _
          simp only [hwide, if_false, hlt, if_true]
          rfl
      · rename_i hn
        have hbyte : (UInt8.ofNat (n % 128 + 128)).toNat = n % 128 + 128 :=
          Text.toNat_ofNat (by omega)
        have hmore : ¬ n % 128 + 128 < 128 := by omega
        simp only [List.cons_append, groups, hbyte, hmore, false_and, if_false]
        by_cases hwide : width ≤ 7
        · have hle : twoTo width ≤ twoTo 7 := Nat.pow_le_pow_right (by decide) hwide
          have hlt : ¬ n < twoTo width := by
            have : twoTo 7 = 128 := rfl
            omega
          simp only [hwide, if_true, hlt, if_false, Option.map_none]
        · have hrest := @ih (n / 128) (by omega) (width - 7) (by omega)
          simp only [hwide, if_false, lt_twoTo_iff (show 7 < width by omega), Option.bind_eq_bind]
          by_cases hlt : n / 128 < twoTo (width - 7)
          · rw [if_pos hlt] at hrest ⊢
            obtain ⟨⟨high, bits, rest'⟩, hgroups, heq⟩ := Option.map_eq_some_iff.mp hrest
            cases heq
            have hvalue : (n % 128 + 128) % 128 + 128 * (n / 128) = n := by omega
            rw [hgroups, Option.bind_some]
            exact congrArg (fun v => some (v, rest')) hvalue
          · rw [if_neg hlt] at hrest ⊢
            rw [Option.map_eq_none_iff.mp hrest]
            rfl

/-- A number is read back if it is within the width. -/
theorem readUnsigned_unsigned (n : Nat) {width : Nat} (hw : 0 < width) (rest : List UInt8) :
    readUnsigned width (unsigned n ++ rest) = if n < twoTo width then some (n, rest) else none := by
  rw [← groups_unsigned n hw rest, readUnsigned, Option.bind_eq_bind]
  exact Option.map_eq_bind.symm

/-- Bytes of which only the last ends a number. -/
def IsNumber (bytes : List UInt8) : Prop :=
  ∃ init last, bytes = init ++ [last] ∧ (∀ b ∈ init, 128 ≤ b.toNat) ∧ last.toNat < 128

theorem isNumber_signed (n : Int) : IsNumber (signed n) := by
  fun_induction signed n with
  | case1 n h =>
      refine ⟨[], _, rfl, by simp, ?_⟩
      rw [Text.toNat_ofNat (by omega)]
      omega
  | case2 n h ih =>
      obtain ⟨init, last, heq, hinit, hlast⟩ := ih
      refine ⟨UInt8.ofNat ((n % 128).toNat + 128) :: init, last, by rw [heq]; rfl, ?_, hlast⟩
      intro b hb
      rcases List.mem_cons.mp hb with rfl | hb
      · rw [Text.toNat_ofNat (by omega)]
        omega
      · exact hinit b hb

/-- A number is read to the end of its bytes. -/
theorem IsNumber.rest_of_groups {last : Nat → Nat → Bool} {width n bits : Nat}
    {bytes rest rest' : List UInt8} (h : IsNumber bytes)
    (hr : groups last width (bytes ++ rest) = some (n, bits, rest')) : rest' = rest := by
  obtain ⟨init, b, rfl, hinit, hb⟩ := h
  induction init generalizing width n bits with
  | nil =>
      simp only [List.nil_append, List.cons_append, groups, hb, true_and, if_true] at hr
      split at hr
      · split at hr <;> cases hr
        rfl
      · cases hr
        rfl
  | cons c init ih =>
      have hc : ¬ c.toNat < 128 := Nat.not_lt.mpr (hinit c List.mem_cons_self)
      simp only [List.cons_append, groups, hc, false_and, if_false, Option.bind_eq_bind] at hr
      split at hr
      · cases hr
      · obtain ⟨⟨high, bits', rest''⟩, hgroups, heq⟩ := Option.bind_eq_some_iff.mp hr
        cases heq
        exact ih hgroups fun b hb => hinit b (List.mem_cons_of_mem c hb)

end Leb

/-! ## Readers -/

namespace Reader

variable {α β : Type} {r : Reader α} {k : α → Reader β} {bytes more : Bytes} {P P' : α → Prop}
  {Q : β → Prop}

theorem run_u32 (n place : Nat) (rest : Bytes) : u32.run ⟨place, Leb.unsigned n ++ rest⟩ =
    if n < twoTo 32 then some (n, ⟨place + (Leb.unsigned n).length, rest⟩) else none := by
  rw [u32, run_leb, Leb.readUnsigned_unsigned n (by decide)]
  split
  · rw [Option.map_some, List.length_append, Nat.add_sub_cancel]
  · rfl

/-- Where some bytes stand, whatever comes behind them, a reader that succeeds has read a thing of a
kind and just these bytes. -/
def Finds (r : Reader α) (bytes : Bytes) (P : α → Prop) : Prop :=
  ∀ place rest a i, r.run ⟨place, bytes ++ rest⟩ = some (a, i) →
    P a ∧ i = ⟨place + bytes.length, rest⟩

namespace Finds

theorem pure {a : α} (h : P a) : Finds (pure a : Reader α) [] P := by
  intro place rest a' i hr
  cases hr
  exact ⟨h, rfl⟩

theorem fail : Finds (fail : Reader α) bytes P := fun _ _ _ _ hr => by cases hr

theorem lift (o : Option α) : Finds (StateT.lift o : Reader α) [] (fun a => o = some a) := by
  intro place rest a i hr
  obtain ⟨a', ho, heq⟩ := Option.bind_eq_some_iff.mp hr
  cases heq
  exact ⟨ho, rfl⟩

theorem get : Finds (get : Reader Input) [] (fun _ => True) := by
  intro place rest a i hr
  cases hr
  exact ⟨trivial, rfl⟩

theorem bind (hr : Finds r bytes P) (hk : ∀ a, P a → Finds (k a) more Q) :
    Finds (r >>= k) (bytes ++ more) Q := by
  intro place rest b i h
  rw [StateT.run_bind, List.append_assoc] at h
  obtain ⟨⟨a, j⟩, ha, h⟩ := Option.bind_eq_some_iff.mp h
  obtain ⟨hP, rfl⟩ := hr _ _ _ _ ha
  obtain ⟨hQ, rfl⟩ := hk a hP _ _ _ _ h
  exact ⟨hQ, by rw [List.length_append, Nat.add_assoc]⟩

/-- A step that reads nothing. -/
theorem skip (hr : Finds r [] P) (hk : ∀ a, P a → Finds (k a) more Q) :
    Finds (r >>= k) more Q := hr.bind hk

/-- The last step. -/
theorem last (hr : Finds r bytes P) (hk : ∀ a, P a → Finds (k a) [] Q) :
    Finds (r >>= k) bytes Q := by
  have h := hr.bind hk
  rwa [List.append_nil] at h

/-- A last step that makes something of what was read. -/
theorem map {a : α} {f : α → β} (hr : Finds r bytes (· = a)) :
    Finds (do return f (← r)) bytes (· = f a) :=
  hr.last fun _ ha => .pure (congrArg f ha)

theorem mono (hr : Finds r bytes P) (h : ∀ a, P a → P' a) : Finds r bytes P' := by
  intro place rest a i ha
  obtain ⟨hP, hi⟩ := hr place rest a i ha
  exact ⟨h a hP, hi⟩

theorem ite {p : Prop} [Decidable p] {r' : Reader α} (h : p → Finds r bytes P)
    (h' : ¬ p → Finds r' bytes P) : Finds (if p then r else r') bytes P := by
  split
  · exact h ‹_›
  · exact h' ‹_›

theorem byte (b : UInt8) : Finds byte [b] (· = b) := by
  intro place rest a i hr
  cases hr
  exact ⟨rfl, rfl⟩

/-- The next byte decides how reading goes on. -/
theorem cons {b : UInt8} {k : UInt8 → Reader β} (hk : Finds (k b) more Q) :
    Finds (Reader.byte >>= k) (b :: more) Q :=
  (byte b).bind fun _ ha => ha ▸ hk

theorem u32 (n : Nat) : Finds u32 (Leb.unsigned n) (· = n) := by
  intro place rest a i hr
  rw [run_u32] at hr
  split at hr
  · cases hr
    exact ⟨rfl, rfl⟩
  · cases hr

theorem take (bytes : Bytes) : Finds (take bytes.length) bytes (· = bytes) := by
  intro place rest a i hr
  rw [run_take, List.take_left', List.drop_left'] at hr
  split at hr
  · cases hr
    exact ⟨rfl, rfl⟩
  · cases hr
  all_goals rfl

theorem times {γ : Type} {R : γ → α → Prop} {write : γ → Bytes} (xs : List γ)
    (h : ∀ x ∈ xs, Finds r (write x) (R x)) :
    Finds (times r xs.length) (xs.flatMap write) (List.Forall₂ R xs) := by
  induction xs with
  | nil => exact .pure .nil
  | cons x xs ih =>
      refine .bind (h x List.mem_cons_self) fun a ha => ?_
      exact .last (ih fun y hy => h y (List.mem_cons_of_mem x hy)) fun as has =>
        .pure (.cons ha has)

theorem vector {γ : Type} {R : γ → α → Prop} {write : γ → Bytes} (xs : List γ)
    (h : ∀ x ∈ xs, Finds r (write x) (R x)) :
    Finds (vector r) (Encode.vector write xs) (List.Forall₂ R xs) := by
  refine .bind (.u32 xs.length) fun n hn => ?_
  subst hn
  exact .times xs h

/-- A list of things is read back if all of them are. -/
theorem list {write : α → Bytes} (h : ∀ a, Finds r (write a) (· = a)) (xs : List α) :
    Finds (Reader.vector r) (Encode.vector write xs) (· = xs) := by
  refine (Finds.vector (R := fun x a => a = x) xs fun x _ => h x).mono fun as has => ?_
  rw [← List.forall₂_eq_eq_eq]
  exact has.flip

theorem name (s : String) : Finds name (Encode.name s) (· = s) := by
  refine .bind (.u32 _) fun n hn => ?_
  subst hn
  refine .last (.take _) fun bytes hbytes => ?_
  subst hbytes
  refine (Finds.lift _).mono fun a ha => ?_
  rw [Text.decodeUtf8_encodeUtf8] at ha
  cases ha
  rfl

end Finds

/-! ## Types -/

theorem valTypeOf?_valType (t : ValType) : valTypeOf? (Encode.valType t) = some t := by
  cases t <;> rfl

theorem finds_valType (t : ValType) : Finds valType [Encode.valType t] (· = t) := by
  refine .last (.byte _) fun b hb => ?_
  subst hb
  refine .ite (fun h => ?_) fun _ => ?_
  · cases t <;> cases h
  · refine (Finds.lift _).mono fun a ha => ?_
    rw [valTypeOf?_valType] at ha
    cases ha
    rfl

theorem finds_globalType (t : GlobalType) : Finds globalType (Encode.globalType t) (· = t) := by
  obtain ⟨content, isMutable⟩ := t
  refine .bind (show Finds _ [_] _ from finds_valType content) fun content' hcontent => .cons ?_
  subst hcontent
  cases isMutable <;> exact .pure rfl

/-! ## Imports and exports -/

end Reader

end WasmHost.Wasm

import Mathlib.Order.Bounds.Defs
import WasmHost.Proofs.Text.Utf8

/-!
# Where bytes stop being a text

Bytes begin with a character, or reading them fails at once. So what is read of any bytes is the
longest part in front that is a text: nothing is left of it, or the fault stands right behind it.
-/

namespace WasmHost.Text

/-- Bytes are a text in UTF-8. -/
def IsUtf8 (bytes : List UInt8) : Prop := ∃ text, encodeUtf8 text = bytes

/-- How many bytes are read well in front of a fault. -/
def Utf8Fault.index : Utf8Fault → Nat
  | invalid _ index => index
  | incomplete index => index

/-! ## The bytes of a character that is read -/

theorem isContinuation_iff (b : UInt8) : isContinuation b ↔ 0x80 ≤ b.toNat ∧ b.toNat ≤ 0xbf := by
  simp [isContinuation, UInt8.le_iff_toNat_le]

/-- The bounds of a second byte keep the number from being overlong, a surrogate or past the last
character. -/
theorem bounds_of_mayFollow {a b : UInt8} (h : mayFollow a b) :
    0x80 ≤ b.toNat ∧ b.toNat ≤ 0xbf ∧ (a.toNat = 0xe0 → 0xa0 ≤ b.toNat) ∧
      (a.toNat = 0xed → b.toNat ≤ 0x9f) ∧ (a.toNat = 0xf0 → 0x90 ≤ b.toNat) ∧
      (a.toNat = 0xf4 → b.toNat ≤ 0x8f) := by
  simp only [mayFollow, ← UInt8.toNat_inj, UInt8.toNat_ofNat] at h
  split_ifs at h <;> simp [isContinuation, UInt8.le_iff_toNat_le] at h <;> omega

theorem toNat_charOfNat {n : Nat} (h : n < 0xd800 ∨ 0xdfff < n ∧ n < 0x110000) :
    (Char.ofNat n).val.toNat = n := by
  have hvalid : n.isValidChar := by
    rcases h with h | h
    · exact .inl h
    · exact .inr h
  rw [Char.ofNat, dif_pos hvalid]
  rfl

theorem ofNat_eq {n : Nat} {b : UInt8} (h : n = b.toNat) : UInt8.ofNat n = b := by
  rw [h, UInt8.ofNat_toNat]

variable {a b c d : UInt8}

theorem encodeChar_one (ha : a.toNat < 0x80) :
    String.utf8EncodeChar (Char.ofNat a.toNat) = [a] := by
  rw [String.utf8EncodeChar, toNat_charOfNat (by omega), if_pos (by omega), ofNat_eq rfl]

theorem encodeChar_two (ha : 0xc2 ≤ a.toNat ∧ a.toNat ≤ 0xdf) (hb : isContinuation b) :
    String.utf8EncodeChar (Char.ofNat (a.toNat % 32 * 64 + payload b)) = [a, b] := by
  have hb' := (isContinuation_iff b).mp hb
  unfold payload
  rw [String.utf8EncodeChar, toNat_charOfNat (by omega), if_neg (by omega), if_pos (by omega),
    ofNat_eq (b := a) (by omega), ofNat_eq (b := b) (by omega)]

theorem encodeChar_three (ha : 0xe0 ≤ a.toNat ∧ a.toNat ≤ 0xef) (hb : mayFollow a b)
    (hc : isContinuation c) :
    String.utf8EncodeChar (Char.ofNat (a.toNat % 16 * 4096 + payload b * 64 + payload c)) =
      [a, b, c] := by
  have hb' := bounds_of_mayFollow hb
  have hc' := (isContinuation_iff c).mp hc
  unfold payload
  rw [String.utf8EncodeChar, toNat_charOfNat (by omega), if_neg (by omega), if_neg (by omega),
    if_pos (by omega), ofNat_eq (b := a) (by omega), ofNat_eq (b := b) (by omega),
    ofNat_eq (b := c) (by omega)]

theorem encodeChar_four (ha : 0xf0 ≤ a.toNat ∧ a.toNat ≤ 0xf4) (hb : mayFollow a b)
    (hc : isContinuation c) (hd : isContinuation d) :
    String.utf8EncodeChar (Char.ofNat (a.toNat % 8 * 262144 + payload b * 4096 + payload c * 64
      + payload d)) = [a, b, c, d] := by
  have hb' := bounds_of_mayFollow hb
  have hc' := (isContinuation_iff c).mp hc
  have hd' := (isContinuation_iff d).mp hd
  unfold payload
  rw [String.utf8EncodeChar, toNat_charOfNat (by omega), if_neg (by omega), if_neg (by omega),
    if_neg (by omega), ofNat_eq (b := a) (by omega), ofNat_eq (b := b) (by omega),
    ofNat_eq (b := c) (by omega), ofNat_eq (b := d) (by omega)]

/-! ## What bytes begin with -/

/-- Reading fails at the first byte. -/
def FailsAtOnce (bytes : List UInt8) : Prop :=
  ∀ index, ∃ f, decodeUtf8From index bytes = .error f ∧ f.index = index

theorem FailsAtOnce.incomplete {bytes : List UInt8}
    (h : ∀ i, decodeUtf8From i bytes = .error (.incomplete i)) : FailsAtOnce bytes :=
  fun i => ⟨.incomplete i, h i, rfl⟩

theorem FailsAtOnce.invalid {bytes : List UInt8} (n : Nat)
    (h : ∀ i, decodeUtf8From i bytes = .error (.invalid n i)) : FailsAtOnce bytes :=
  fun i => ⟨.invalid n i, h i, rfl⟩

/-- Bytes begin with those of a character. -/
def BeginsWell (bytes : List UInt8) : Prop :=
  ∃ c rest, bytes = String.utf8EncodeChar c ++ rest

theorem BeginsWell.of {ch : Char} {front : List UInt8} (h : String.utf8EncodeChar ch = front)
    (rest : List UInt8) : BeginsWell (front ++ rest) := ⟨ch, rest, by rw [h]⟩

theorem beginsWell_or_failsAtOnce_two {rest : List UInt8} (hone : ¬a < 0x80)
    (h : 0xc2 ≤ a ∧ a ≤ 0xdf) : BeginsWell (a :: rest) ∨ FailsAtOnce (a :: rest) := by
  rcases rest with _ | ⟨b, rest⟩
  · exact .inr (.incomplete fun i => by rw [decodeUtf8From.eq_def]; simp [hone, h])
  by_cases hb : isContinuation b
  · have ha := And.imp UInt8.le_iff_toNat_le.mp UInt8.le_iff_toNat_le.mp h
    exact .inl (.of (encodeChar_two ha hb) rest)
  · exact .inr (.invalid 1 fun i => by rw [decodeUtf8From.eq_def]; simp [hone, h, hb])

theorem beginsWell_or_failsAtOnce_three {rest : List UInt8} (hone : ¬a < 0x80)
    (htwo : ¬(0xc2 ≤ a ∧ a ≤ 0xdf)) (h : 0xe0 ≤ a ∧ a ≤ 0xef) :
    BeginsWell (a :: rest) ∨ FailsAtOnce (a :: rest) := by
  rcases rest with _ | ⟨b, rest⟩
  · exact .inr (.incomplete fun i => by rw [decodeUtf8From.eq_def]; simp [hone, htwo, h])
  by_cases hb : mayFollow a b
  · rcases rest with _ | ⟨c, rest⟩
    · exact .inr (.incomplete fun i => by rw [decodeUtf8From.eq_def]; simp [hone, htwo, h, hb])
    by_cases hc : isContinuation c
    · have ha := And.imp UInt8.le_iff_toNat_le.mp UInt8.le_iff_toNat_le.mp h
      exact .inl (.of (encodeChar_three ha hb hc) rest)
    · exact .inr (.invalid 2 fun i => by rw [decodeUtf8From.eq_def]; simp [hone, htwo, h, hb, hc])
  · exact .inr (.invalid 1 fun i => by rw [decodeUtf8From.eq_def]; simp [hone, htwo, h, hb])

theorem beginsWell_or_failsAtOnce_four {rest : List UInt8} (hone : ¬a < 0x80)
    (htwo : ¬(0xc2 ≤ a ∧ a ≤ 0xdf)) (hthree : ¬(0xe0 ≤ a ∧ a ≤ 0xef)) (h : 0xf0 ≤ a ∧ a ≤ 0xf4) :
    BeginsWell (a :: rest) ∨ FailsAtOnce (a :: rest) := by
  rcases rest with _ | ⟨b, rest⟩
  · exact .inr (.incomplete fun i => by rw [decodeUtf8From.eq_def]; simp [hone, htwo, hthree, h])
  by_cases hb : mayFollow a b
  · rcases rest with _ | ⟨c, rest⟩
    · exact .inr (.incomplete fun i => by
        rw [decodeUtf8From.eq_def]
        simp [hone, htwo, hthree, h, hb])
    by_cases hc : isContinuation c
    · rcases rest with _ | ⟨d, rest⟩
      · exact .inr (.incomplete fun i => by
          rw [decodeUtf8From.eq_def]
          simp [hone, htwo, hthree, h, hb, hc])
      by_cases hd : isContinuation d
      · have ha := And.imp UInt8.le_iff_toNat_le.mp UInt8.le_iff_toNat_le.mp h
        exact .inl (.of (encodeChar_four ha hb hc hd) rest)
      · exact .inr (.invalid 3 fun i => by
          rw [decodeUtf8From.eq_def]
          simp [hone, htwo, hthree, h, hb, hc, hd])
    · exact .inr (.invalid 2 fun i => by
        rw [decodeUtf8From.eq_def]
        simp [hone, htwo, hthree, h, hb, hc])
  · exact .inr (.invalid 1 fun i => by rw [decodeUtf8From.eq_def]; simp [hone, htwo, hthree, h, hb])

/-- The first byte says how long a character would be, or that none begins here. -/
theorem beginsWell_or_failsAtOnce (a : UInt8) (rest : List UInt8) :
    BeginsWell (a :: rest) ∨ FailsAtOnce (a :: rest) := by
  by_cases hone : a < 0x80
  · exact .inl (.of (encodeChar_one (UInt8.lt_iff_toNat_lt.mp hone)) rest)
  by_cases htwo : 0xc2 ≤ a ∧ a ≤ 0xdf
  · exact beginsWell_or_failsAtOnce_two hone htwo
  by_cases hthree : 0xe0 ≤ a ∧ a ≤ 0xef
  · exact beginsWell_or_failsAtOnce_three hone htwo hthree
  by_cases hfour : 0xf0 ≤ a ∧ a ≤ 0xf4
  · exact beginsWell_or_failsAtOnce_four hone htwo hthree hfour
  · exact .inr (.invalid 1 fun i => by rw [decodeUtf8From.eq_def]; simp [hone, htwo, hthree, hfour])

/-! ## The longest text in front -/

/-- Bytes are those of some characters, and behind them nothing or what fails at once. -/
theorem exists_longest (bytes : List UInt8) : ∃ (cs : List Char) (rest : List UInt8),
    bytes = cs.flatMap String.utf8EncodeChar ++ rest ∧ (rest = [] ∨ FailsAtOnce rest) := by
  induction h : bytes.length using Nat.strongRecOn generalizing bytes with
  | _ n ih =>
    rcases bytes with _ | ⟨a, bytes⟩
    · exact ⟨[], [], rfl, .inl rfl⟩
    rcases beginsWell_or_failsAtOnce a bytes with ⟨c, rest, heq⟩ | hfails
    · have hshorter : rest.length < n := by
        have hpos := List.length_pos_of_ne_nil (String.utf8EncodeChar_ne_nil (c := c))
        have hlength := congrArg List.length heq
        rw [List.length_append] at hlength
        omega
      obtain ⟨cs, rest', rfl, hrest⟩ := ih _ hshorter rest rfl
      exact ⟨c :: cs, rest', by rw [heq, List.flatMap_cons, List.append_assoc], hrest⟩
    · exact ⟨[], a :: bytes, rfl, .inr hfails⟩

theorem isUtf8_iff (bytes : List UInt8) :
    IsUtf8 bytes ↔ ∃ cs : List Char, bytes = cs.flatMap String.utf8EncodeChar := by
  constructor
  · rintro ⟨text, rfl⟩
    exact ⟨text.toList, by rw [← encodeUtf8_ofList, String.ofList_toList]⟩
  · rintro ⟨cs, rfl⟩
    exact ⟨String.ofList cs, encodeUtf8_ofList cs⟩

/-- A fault never stands in front of where reading starts. -/
theorem le_index_of_error {bytes : List UInt8} {index : Nat} {f : Utf8Fault}
    (h : decodeUtf8From index bytes = .error f) : index ≤ f.index := by
  obtain ⟨cs, rest, rfl, hrest⟩ := exists_longest bytes
  rw [decodeUtf8From_encode_append] at h
  rcases hrest with rfl | hfails
  · rw [decodeUtf8From] at h
    cases h
  · obtain ⟨g, hg, hindex⟩ := hfails (index + (cs.flatMap String.utf8EncodeChar).length)
    rw [hg] at h
    cases h
    omega

/-- Bytes that are no text are not read, and the fault stands behind the longest part in front that
is one. -/
theorem decodeUtf8_of_not_isUtf8 {bytes : List UInt8} (h : ¬IsUtf8 bytes) :
    ∃ f, decodeUtf8 bytes = .error f ∧
      IsGreatest {n | n ≤ bytes.length ∧ IsUtf8 (bytes.take n)} f.index := by
  obtain ⟨cs, rest, rfl, hrest⟩ := exists_longest bytes
  have hfails : FailsAtOnce rest := by
    rcases hrest with rfl | hfails
    · exact absurd ((isUtf8_iff _).mpr ⟨cs, List.append_nil _⟩) h
    · exact hfails
  obtain ⟨f, hf, hindex⟩ := hfails (0 + (cs.flatMap String.utf8EncodeChar).length)
  have hdec : decodeUtf8From 0 (cs.flatMap String.utf8EncodeChar ++ rest) = .error f := by
    rw [decodeUtf8From_encode_append, hf]
    rfl
  rw [Nat.zero_add] at hindex
  refine ⟨f, by rw [decodeUtf8, hdec]; rfl, ⟨?_, ?_⟩, ?_⟩
  · rw [hindex, List.length_append]
    exact Nat.le_add_right _ _
  · rw [hindex, List.take_left]
    exact (isUtf8_iff _).mpr ⟨cs, rfl⟩
  · rintro n ⟨hn, htext⟩
    -- what is read well in front of `n` moves the fault behind it
    obtain ⟨cs', hcs'⟩ := (isUtf8_iff _).mp htext
    have hlength : (cs'.flatMap String.utf8EncodeChar).length = n := by
      rw [← hcs', List.length_take, Nat.min_eq_left hn]
    rw [← List.take_append_drop n (cs.flatMap String.utf8EncodeChar ++ rest), hcs',
      decodeUtf8From_encode_append, hlength, Nat.zero_add] at hdec
    cases hlater : decodeUtf8From n ((cs.flatMap String.utf8EncodeChar ++ rest).drop n) with
    | ok later => rw [hlater] at hdec; cases hdec
    | error g =>
      rw [hlater] at hdec
      cases hdec
      exact le_index_of_error hlater

end WasmHost.Text

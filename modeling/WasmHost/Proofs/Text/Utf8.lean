import Mathlib.Data.List.Basic
import WasmHost.Text.Utf8

/-!
# Reading back a text

`decodeUtf8` reads the bytes of a text as that text: each character is read from its own bytes, and
what follows is read behind it.
-/

namespace WasmHost.Text

/-! ## The bytes of a text -/

theorem toList_loop (bytes : ByteArray) (i : Nat) (done : List UInt8) :
    ByteArray.toList.loop bytes i done = done.reverse ++ bytes.data.toList.drop i := by
  fun_induction ByteArray.toList.loop bytes i done with
  | case1 i done hlt ih =>
      have hlength : i < bytes.data.toList.length := by simpa using hlt
      have hget : bytes.get! i = bytes.data.toList[i] := getElem!_pos bytes.data i hlt
      rw [ih, List.drop_eq_getElem_cons hlength, hget, List.reverse_cons, List.append_assoc]
      rfl
  | case2 i done hge =>
      rw [List.drop_eq_nil_of_le (by simpa using Nat.le_of_not_lt hge), List.append_nil]

theorem encodeUtf8_ofList (cs : List Char) :
    encodeUtf8 (String.ofList cs) = cs.flatMap String.utf8EncodeChar := by
  rw [encodeUtf8, String.toUTF8_eq_toByteArray, String.toByteArray_ofList, ByteArray.toList,
    toList_loop, List.utf8Encode, List.toList_data_toByteArray]
  rfl

/-! ## Single bytes -/

theorem toNat_ofNat {n : Nat} (h : n < 256) : (UInt8.ofNat n).toNat = n := by
  simp [Nat.mod_eq_of_lt h]

theorem ofNat_le {n k : Nat} (hn : n < 256) (hk : k < 256) :
    UInt8.ofNat n ≤ UInt8.ofNat k ↔ n ≤ k := by
  rw [UInt8.le_iff_toNat_le, toNat_ofNat hn, toNat_ofNat hk]

theorem ofNat_inj {n k : Nat} (hn : n < 256) (hk : k < 256) :
    UInt8.ofNat n = UInt8.ofNat k ↔ n = k := by
  rw [← UInt8.toNat_inj, toNat_ofNat hn, toNat_ofNat hk]

/-- A byte that continues a character carries six bits. -/
theorem isContinuation_ofNat {n : Nat} (h : n < 64) : isContinuation (UInt8.ofNat (n + 128)) := by
  have hlow : UInt8.ofNat 0x80 ≤ UInt8.ofNat (n + 128) :=
    (ofNat_le (by omega) (by omega)).mpr (by omega)
  have hhigh : UInt8.ofNat (n + 128) ≤ UInt8.ofNat 0xbf :=
    (ofNat_le (by omega) (by omega)).mpr (by omega)
  exact Bool.and_eq_true_iff.mpr ⟨decide_eq_true hlow, decide_eq_true hhigh⟩

theorem payload_ofNat {n : Nat} (h : n < 64) : payload (UInt8.ofNat (n + 128)) = n := by
  rw [payload, toNat_ofNat (by omega)]
  omega

/-- The second byte of a character of three or four bytes may follow the first one if the number
needs that many bytes, is no surrogate and is not past the last character. -/
theorem mayFollow_ofNat {a n : Nat} (ha : a < 32) (hn : n < 64) (hlong : a = 0 → 32 ≤ n)
    (hsurrogate : a = 13 → n < 32) (hlonger : a = 16 → 16 ≤ n) (hlast : a = 20 → n < 16) :
    mayFollow (UInt8.ofNat (a + 224)) (UInt8.ofNat (n + 128)) := by
  have hat {k : Nat} (hk : k < 256) (h : UInt8.ofNat (a + 224) = UInt8.ofNat k) : a + 224 = k :=
    (ofNat_inj (by omega) hk).mp h
  have hbounds {k l : Nat} (hk : k ≤ n + 128) (hl : n + 128 ≤ l) (hl' : l < 256) :
      (decide (UInt8.ofNat k ≤ UInt8.ofNat (n + 128)) &&
        decide (UInt8.ofNat (n + 128) ≤ UInt8.ofNat l)) = true :=
    Bool.and_eq_true_iff.mpr ⟨decide_eq_true ((ofNat_le (by omega) (by omega)).mpr hk),
      decide_eq_true ((ofNat_le (by omega) hl').mpr hl)⟩
  unfold mayFollow
  split
  · have := hat (k := 0xe0) (by omega) ‹_›
    exact hbounds (k := 0xa0) (l := 0xbf) (by omega) (by omega) (by omega)
  · split
    · have := hat (k := 0xed) (by omega) ‹_›
      exact hbounds (k := 0x80) (l := 0x9f) (by omega) (by omega) (by omega)
    · split
      · have := hat (k := 0xf0) (by omega) ‹_›
        exact hbounds (k := 0x90) (l := 0xbf) (by omega) (by omega) (by omega)
      · split
        · have := hat (k := 0xf4) (by omega) ‹_›
          exact hbounds (k := 0x80) (l := 0x8f) (by omega) (by omega) (by omega)
        · exact isContinuation_ofNat hn

/-! ## Characters -/

section
variable {a b c d : UInt8} (index : Nat) (rest : List UInt8)

theorem decode_one (ha : a.toNat < 0x80) : decodeUtf8From index (a :: rest) =
    (decodeUtf8From (index + 1) rest).map (Char.ofNat a.toNat :: ·) := by
  have hone : a < 0x80 := UInt8.lt_iff_toNat_lt.mpr ha
  rw [decodeUtf8From.eq_def]
  simp only [hone, if_true]

theorem decode_two (ha : 0xc2 ≤ a.toNat ∧ a.toNat ≤ 0xdf) (hb : isContinuation b) :
    decodeUtf8From index (a :: b :: rest) = (decodeUtf8From (index + 2) rest).map
      (Char.ofNat (a.toNat % 32 * 64 + payload b) :: ·) := by
  have hone : ¬a < 0x80 := fun h => by
    have : a.toNat < 0x80 := UInt8.lt_iff_toNat_lt.mp h
    omega
  have htwo : 0xc2 ≤ a ∧ a ≤ 0xdf :=
    ⟨UInt8.le_iff_toNat_le.mpr ha.1, UInt8.le_iff_toNat_le.mpr ha.2⟩
  rw [decodeUtf8From.eq_def]
  simp only [hone, htwo, hb, and_self, if_true, if_false]

theorem decode_three (ha : 0xe0 ≤ a.toNat ∧ a.toNat ≤ 0xef) (hb : mayFollow a b)
    (hc : isContinuation c) :
    decodeUtf8From index (a :: b :: c :: rest) = (decodeUtf8From (index + 3) rest).map
      (Char.ofNat (a.toNat % 16 * 4096 + payload b * 64 + payload c) :: ·) := by
  have hone : ¬a < 0x80 := fun h => by
    have : a.toNat < 0x80 := UInt8.lt_iff_toNat_lt.mp h
    omega
  have htwo : ¬(0xc2 ≤ a ∧ a ≤ 0xdf) := fun h => by
    have : a.toNat ≤ 0xdf := UInt8.le_iff_toNat_le.mp h.2
    omega
  have hthree : 0xe0 ≤ a ∧ a ≤ 0xef :=
    ⟨UInt8.le_iff_toNat_le.mpr ha.1, UInt8.le_iff_toNat_le.mpr ha.2⟩
  rw [decodeUtf8From.eq_def]
  simp only [hone, htwo, hthree, hb, hc, and_self, if_true, if_false]

theorem decode_four (ha : 0xf0 ≤ a.toNat ∧ a.toNat ≤ 0xf4) (hb : mayFollow a b)
    (hc : isContinuation c) (hd : isContinuation d) :
    decodeUtf8From index (a :: b :: c :: d :: rest) = (decodeUtf8From (index + 4) rest).map
      (Char.ofNat (a.toNat % 8 * 262144 + payload b * 4096 + payload c * 64 + payload d) :: ·) := by
  have hone : ¬a < 0x80 := fun h => by
    have : a.toNat < 0x80 := UInt8.lt_iff_toNat_lt.mp h
    omega
  have htwo : ¬(0xc2 ≤ a ∧ a ≤ 0xdf) := fun h => by
    have : a.toNat ≤ 0xdf := UInt8.le_iff_toNat_le.mp h.2
    omega
  have hthree : ¬(0xe0 ≤ a ∧ a ≤ 0xef) := fun h => by
    have : a.toNat ≤ 0xef := UInt8.le_iff_toNat_le.mp h.2
    omega
  have hfour : 0xf0 ≤ a ∧ a ≤ 0xf4 :=
    ⟨UInt8.le_iff_toNat_le.mpr ha.1, UInt8.le_iff_toNat_le.mpr ha.2⟩
  rw [decodeUtf8From.eq_def]
  simp only [hone, htwo, hthree, hfour, hb, hc, hd, and_self, if_true, if_false]

end

/-- A character is read from its own bytes. -/
theorem decodeUtf8From_encodeChar (c : Char) (index : Nat) (rest : List UInt8) :
    decodeUtf8From index (String.utf8EncodeChar c ++ rest) =
      (decodeUtf8From (index + (String.utf8EncodeChar c).length) rest).map (c :: ·) := by
  have hvalid : c.toNat < 0xd800 ∨ 0xdfff < c.toNat ∧ c.toNat < 0x110000 := c.valid
  have hchar {n : Nat} (h : n = c.toNat) : Char.ofNat n = c := by rw [h, Char.ofNat_toNat]
  unfold String.utf8EncodeChar
  simp only [show c.val.toNat = c.toNat from rfl]
  split
  · have hone : (UInt8.ofNat c.toNat).toNat = c.toNat := toNat_ofNat (by omega)
    rw [List.singleton_append, decode_one index rest (by omega), hone, hchar rfl]
    rfl
  · split
    · have htwo := toNat_ofNat (show c.toNat / 64 % 32 + 192 < 256 by omega)
      rw [List.cons_append, List.singleton_append, decode_two index rest (by omega)
        (isContinuation_ofNat (by omega)), htwo, payload_ofNat (by omega), hchar (by omega)]
      rfl
    · split
      · have hthree := toNat_ofNat (show c.toNat / 4096 % 16 + 224 < 256 by omega)
        rw [List.cons_append, List.cons_append, List.singleton_append,
          decode_three index rest (by omega)
            (mayFollow_ofNat (by omega) (by omega) (by omega) (by omega) (by omega) (by omega))
            (isContinuation_ofNat (by omega)),
          hthree, payload_ofNat (by omega), payload_ofNat (by omega), hchar (by omega)]
        rfl
      · have hlead : c.toNat / 262144 % 8 + 240 = 16 + c.toNat / 262144 % 8 + 224 := by omega
        have hfour := toNat_ofNat (show 16 + c.toNat / 262144 % 8 + 224 < 256 by omega)
        rw [hlead, List.cons_append, List.cons_append, List.cons_append, List.singleton_append,
          decode_four index rest (by omega)
            (mayFollow_ofNat (by omega) (by omega) (by omega) (by omega) (by omega) (by omega))
            (isContinuation_ofNat (by omega)) (isContinuation_ofNat (by omega)),
          hfour, payload_ofNat (by omega), payload_ofNat (by omega), payload_ofNat (by omega),
          hchar (by omega)]
        rfl

/-- Only the character zero begins with a byte zero. -/
theorem eq_zero_of_encodeChar {c : Char} {rest bytes : List UInt8}
    (h : String.utf8EncodeChar c ++ rest = 0 :: bytes) : c = '\x00' := by
  have hzero {n : Nat} (hn : n < 256) (h : UInt8.ofNat n = 0) : n = 0 :=
    (ofNat_inj (k := 0) hn (by omega)).mp h
  unfold String.utf8EncodeChar at h
  simp only [show c.val.toNat = c.toNat from rfl] at h
  split at h
  · have hc := hzero (by omega) (List.cons.inj h).1
    rw [← Char.ofNat_toNat c, hc]
  · split at h
    · have := hzero (by omega) (List.cons.inj h).1
      omega
    · split at h
      · have := hzero (by omega) (List.cons.inj h).1
        omega
      · have := hzero (by omega) (List.cons.inj h).1
        omega

/-- Characters are read from their bytes, one behind the other, and then what follows them. -/
theorem decodeUtf8From_encode_append (cs : List Char) (index : Nat) (rest : List UInt8) :
    decodeUtf8From index (cs.flatMap String.utf8EncodeChar ++ rest) =
      (decodeUtf8From (index + (cs.flatMap String.utf8EncodeChar).length) rest).map (cs ++ ·) := by
  induction cs generalizing index with
  | nil =>
      cases h : decodeUtf8From index rest <;> simp [h, Except.map]
  | cons c cs ih =>
      rw [List.flatMap_cons, List.append_assoc, decodeUtf8From_encodeChar, ih, List.length_append,
        Nat.add_assoc]
      cases decodeUtf8From (index + _) rest <;> rfl

/-- Characters are read from their bytes. -/
theorem decodeUtf8From_encode (cs : List Char) (index : Nat) :
    decodeUtf8From index (cs.flatMap String.utf8EncodeChar) = .ok cs := by
  have h := decodeUtf8From_encode_append cs index []
  rw [List.append_nil, decodeUtf8From] at h
  simpa [Except.map] using h

/-- A text is read from its bytes. -/
theorem decodeUtf8_encodeUtf8 (s : String) : decodeUtf8 (encodeUtf8 s) = .ok s := by
  obtain ⟨cs, rfl⟩ : ∃ cs, s = String.ofList cs := ⟨s.toList, String.ofList_toList.symm⟩
  rw [decodeUtf8, encodeUtf8_ofList, decodeUtf8From_encode]
  rfl

end WasmHost.Text

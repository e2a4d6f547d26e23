import WasmHost.Proofs.Datum.Digits

/-!
# The grammar of JSON

`Spells d cs` says that the characters `cs` are a way to write the datum `d`, by the rules of the
format and without a word about how they are read. Blanks may stand between all parts. A text may
be written that has no datum of its own, a number past the greatest double or half of a surrogate
pair: it counts as `skipOnly`.

The main result is `read_of_text`: whatever is written is read back.
-/

namespace WasmHost.Datum.Json

/-! ## Strings -/

/-- Escapes of one letter: the letter, and what it stands for. -/
def shortEscapes : List (Char × Char) :=
  [('"', '"'), ('\\', '\\'), ('/', '/'), ('b', '\x08'), ('f', '\x0c'), ('n', '\n'), ('r', '\r'),
    ('t', '\t')]

/-- How a piece of a quoted text is written. -/
inductive SpellsPiece : Piece → List Char → Prop
  | plain {c : Char} : 0x20 ≤ c.toNat → c ≠ '"' → c ≠ '\\' → SpellsPiece (.char c) [c]
  | short {e c : Char} : (e, c) ∈ shortEscapes → SpellsPiece (.char c) ['\\', e]
  | unit {a b c d : Char} {i j k l : Nat} : Text.hexDigit? a = some i → Text.hexDigit? b = some j →
      Text.hexDigit? c = some k → Text.hexDigit? d = some l →
      SpellsPiece (.unit (0x1000 * i + 0x100 * j + 0x10 * k + l)) ['\\', 'u', a, b, c, d]

/-- Pieces one after the other. -/
inductive SpellsPieces : List Piece → List Char → Prop
  | nil : SpellsPieces [] []
  | cons {p ps cs ts} : SpellsPiece p cs → SpellsPieces ps ts → SpellsPieces (p :: ps) (cs ++ ts)

/-- The text that pieces stand for. Of the 16-bit units those between `0xd800` and `0xdfff` make
characters in pairs only. -/
inductive Denotes : List Piece → List Char → Prop
  | nil : Denotes [] []
  | char {c ps cs} : Denotes ps cs → Denotes (.char c :: ps) (c :: cs)
  | unit {n ps cs} : n < 0xd800 ∨ 0xdfff < n → Denotes ps cs →
      Denotes (.unit n :: ps) (Char.ofNat n :: cs)
  | pair {n m ps cs} : 0xd800 ≤ n → n < 0xdc00 → 0xdc00 ≤ m → m ≤ 0xdfff → Denotes ps cs →
      Denotes (.unit n :: .unit m :: ps)
        (Char.ofNat (0x10000 + (n - 0xd800) * 0x400 + (m - 0xdc00)) :: cs)

/-- A quoted text with its quotes. -/
inductive SpellsString : Datum → List Char → Prop
  | text {ps ts cs} : SpellsPieces ps ts → Denotes ps cs →
      SpellsString (.string (String.ofList cs)) ('"' :: (ts ++ ['"']))
  | loose {ps ts} : SpellsPieces ps ts → (∀ cs, ¬Denotes ps cs) →
      SpellsString .skipOnly ('"' :: (ts ++ ['"']))

theorem escaped?_of_mem {e c : Char} (h : (e, c) ∈ shortEscapes) : escaped? e = some c := by
  simp only [shortEscapes, List.mem_cons, Prod.mk.injEq, List.not_mem_nil, or_false] at h
  rcases h with ⟨rfl, rfl⟩ | ⟨rfl, rfl⟩ | ⟨rfl, rfl⟩ | ⟨rfl, rfl⟩ | ⟨rfl, rfl⟩ | ⟨rfl, rfl⟩ |
    ⟨rfl, rfl⟩ | ⟨rfl, rfl⟩ <;> rfl

theorem pieces_of_piece {p : Piece} {cs : List Char} (h : SpellsPiece p cs) (rest : List Char) :
    pieces (cs ++ rest) = (pieces rest).map fun (ps, rest) => (p :: ps, rest) := by
  cases h with
  | plain hc hq hb =>
    rw [List.singleton_append, pieces]
    · rw [if_neg (by simp [hb]; omega)]
      cases pieces rest <;> rfl
    · exact hq
    · rintro a b c d rest' rfl; exact absurd rfl hb
    · rintro e rest' rfl; exact absurd rfl hb
  | short he =>
    rename_i e c
    have hu : e ≠ 'u' := by
      rintro rfl; simp [shortEscapes] at he
    rw [List.cons_append, List.singleton_append, pieces, escaped?_of_mem he]
    · cases pieces rest <;> rfl
    · rintro a b c d rest' rfl; exact absurd rfl hu
  | unit ha hb hc hd =>
    simp only [List.cons_append, List.nil_append, pieces, unit?, ha, hb, hc, hd]
    cases pieces rest
    · rfl
    · simp; omega

theorem pieces_of_spells {ps : List Piece} {ts : List Char} (h : SpellsPieces ps ts)
    (rest : List Char) : pieces (ts ++ '"' :: rest) = some (ps, rest) := by
  induction h with
  | nil => simp [pieces]
  | cons hp _ ih => rw [List.append_assoc, pieces_of_piece hp, ih]; rfl

theorem characters_unit {n : Nat} (h : n < 0xd800 ∨ 0xdfff < n) (ps : List Piece) :
    characters (.unit n :: ps) = (characters ps).map (Char.ofNat n :: ·) := by
  rw [characters.eq_def]
  simp only [h, if_true]
  cases characters ps <;> rfl

theorem characters_of_denotes {ps : List Piece} {cs : List Char} (h : Denotes ps cs) :
    characters ps = some cs := by
  induction h with
  | nil => rfl
  | char _ ih => simp [characters, ih]
  | unit hn _ ih => rw [characters_unit hn, ih]; rfl
  | pair h1 h2 h3 h4 _ ih =>
    rw [characters, if_neg (by omega), if_pos h2, if_pos ⟨h3, h4⟩, ih]
    rfl

theorem denotes_of_characters {ps : List Piece} {cs : List Char} (h : characters ps = some cs) :
    Denotes ps cs := by
  induction ps using characters.induct generalizing cs with
  | case1 => cases h; exact .nil
  | case2 c ps ih =>
    simp only [characters, Option.bind_eq_bind, Option.bind_eq_some_iff, Option.pure_def,
      Option.some.injEq] at h
    obtain ⟨cs, hcs, rfl⟩ := h
    exact .char (ih hcs)
  | case3 n ps hn ih =>
    rw [characters_unit hn, Option.map_eq_some_iff] at h
    obtain ⟨cs, hcs, rfl⟩ := h
    exact .unit hn (ih hcs)
  | case4 n hn hlt m ps hm ih =>
    rw [characters, if_neg hn, if_pos hlt, if_pos hm] at h
    simp only [Option.bind_eq_bind, Option.bind_eq_some_iff, Option.pure_def,
      Option.some.injEq] at h
    obtain ⟨cs, hcs, rfl⟩ := h
    exact .pair (by omega) hlt hm.1 hm.2 (ih hcs)
  | case5 n hn hlt m ps hm => simp [characters, hn, hlt, hm] at h
  | case6 n ps hn hlt hps =>
    rw [characters.eq_def] at h
    simp only [hn, hlt, if_true, if_false] at h
    cases h
  | case7 n ps hn hlt =>
    rw [characters.eq_def] at h
    simp [hn, hlt] at h

theorem readString_of_spells {d : Datum} {cs : List Char} (h : SpellsString d cs)
    (rest : List Char) : ∃ ts, cs = '"' :: ts ∧ readString (ts ++ rest) = (d, some rest) := by
  cases h with
  | text hp hd =>
    refine ⟨_, rfl, ?_⟩
    rw [List.append_assoc, List.singleton_append, readString, pieces_of_spells hp]
    simp [characters_of_denotes hd]
  | loose hp hd =>
    refine ⟨_, rfl, ?_⟩
    rw [List.append_assoc, List.singleton_append, readString, pieces_of_spells hp]
    have hnone : ∀ ps, (∀ cs, ¬Denotes ps cs) → characters ps = none := by
      intro ps hd
      cases hc : characters ps with
      | none => rfl
      | some cs => exact absurd (denotes_of_characters hc) (hd cs)
    simp [hnone _ hd]

/-! ## Numbers -/

/-- Digits of a whole number: no zero stands before others. -/
inductive SpellsWhole : List Char → Prop
  | zero : SpellsWhole ['0']
  | digits {c cs} : c ≠ '0' → (∀ d ∈ c :: cs, d.isDigit = true) → SpellsWhole (c :: cs)

/-- Digits of which there is at least one. -/
def Digits (ds : List Char) : Prop := ds ≠ [] ∧ ∀ d ∈ ds, d.isDigit = true

/-- A point and a fraction, or neither. -/
inductive SpellsFraction : List Char → Bool → List Char → Prop
  | none : SpellsFraction [] false []
  | some {ds} : Digits ds → SpellsFraction ds true ('.' :: ds)

/-- The sign of an exponent, and whether it is negative. -/
inductive SpellsSign : Bool → List Char → Prop
  | none : SpellsSign false []
  | plus : SpellsSign false ['+']
  | minus : SpellsSign true ['-']

/-- An exponent, or none. -/
inductive SpellsExponent : Option (Bool × List Char) → List Char → Prop
  | none : SpellsExponent none []
  | some {e down sign ds} : e = 'e' ∨ e = 'E' → SpellsSign down sign → Digits ds →
      SpellsExponent (some (down, ds)) (e :: (sign ++ ds))

/-- A number by its parts. -/
inductive SpellsNumber : NumberText → List Char → Prop
  | mk {negative whole fraction point exponent fs es} : SpellsWhole whole →
      SpellsFraction fraction point fs → SpellsExponent exponent es →
      SpellsNumber ⟨negative, whole, fraction, exponent, point || exponent.isSome⟩
        ((if negative then ['-'] else []) ++ whole ++ fs ++ es)

/-- What may follow a number: no digit, point or exponent. -/
def Stops (cs : List Char) : Prop :=
  ∀ c ∈ cs.head?, c.isDigit = false ∧ c ≠ '.' ∧ c ≠ 'e' ∧ c ≠ 'E'

theorem digits_append {ds rest : List Char} (hd : ∀ d ∈ ds, d.isDigit = true)
    (hr : ∀ c ∈ rest.head?, c.isDigit = false) : digits (ds ++ rest) = (ds, rest) := by
  induction ds with
  | nil =>
    cases rest with
    | nil => rfl
    | cons c cs => simp [digits, hr c rfl]
  | cons d ds ih =>
    rw [List.forall_mem_cons] at hd
    simp [digits, hd.1, ih hd.2]

theorem exponentText_of_spells {exponent : Option (Bool × List Char)} {es rest : List Char}
    (h : SpellsExponent exponent es) (hr : Stops rest) :
    exponentText (es ++ rest) = some (exponent, rest) := by
  cases h with
  | none =>
    cases rest with
    | nil => rfl
    | cons c cs => simp [exponentText, hr c rfl]
  | @some e down sign ds he hs hd =>
    obtain ⟨d, ds, rfl⟩ := List.exists_cons_of_ne_nil hd.1
    have hrun : digits (d :: (ds ++ rest)) = (d :: ds, rest) :=
      digits_append hd.2 (fun c hc => (hr c hc).1)
    have hdig := hd.2 d (by simp)
    cases hs with
    | none =>
      have hp : d ≠ '+' := by rintro rfl; simp at hdig
      have hm := ne_minus_of_isDigit hdig
      simp [exponentText, he, hrun, hp, hm]
    | plus => simp [exponentText, he, hrun]
    | minus => simp [exponentText, he, hrun]

theorem exponent_head {exponent : Option (Bool × List Char)} {es rest : List Char}
    (h : SpellsExponent exponent es) (hr : Stops rest) :
    ∀ c ∈ (es ++ rest).head?, c.isDigit = false ∧ c ≠ '.' := by
  intro c hc
  cases h with
  | none => exact ⟨(hr c hc).1, (hr c hc).2.1⟩
  | some he _ _ =>
    simp only [List.cons_append, List.head?_cons, Option.mem_some_iff] at hc
    subst hc
    rcases he with rfl | rfl <;> decide

theorem fractionText_of_spells {ds fs tail : List Char} {point : Bool}
    (h : SpellsFraction ds point fs) (ht : ∀ c ∈ tail.head?, c.isDigit = false ∧ c ≠ '.') :
    fractionText (fs ++ tail) = some (ds, point, tail) := by
  cases h with
  | none =>
    cases tail with
    | nil => rfl
    | cons c cs => simp [fractionText, (ht c rfl).2]
  | some hd =>
    obtain ⟨d, ds, rfl⟩ := List.exists_cons_of_ne_nil hd.1
    have hrun : digits (d :: (ds ++ tail)) = (d :: ds, tail) :=
      digits_append hd.2 (fun c hc => (ht c hc).1)
    simp [fractionText, hrun]

theorem numberText_of_spells {t : NumberText} {cs rest : List Char} (h : SpellsNumber t cs)
    (hr : Stops rest) : numberText (cs ++ rest) = some (t, rest) := by
  cases h with
  | @mk negative whole fraction point exponent fs es hw hf he =>
    have hexp := exponentText_of_spells he hr
    have hfrac := fractionText_of_spells hf (exponent_head he hr)
    have hdigit : ∀ d ∈ whole, d.isDigit = true := by
      cases hw with
      | zero => simp
      | digits _ hd => exact hd
    have hrun : digits (whole ++ (fs ++ (es ++ rest))) = (whole, fs ++ (es ++ rest)) := by
      refine digits_append hdigit ?_
      intro c hc
      cases hf with
      | none => exact (exponent_head he hr c hc).1
      | some _ => simp at hc; subst hc; rfl
    -- the digits are read behind the sign, and the first of them is no sign
    rw [List.append_assoc, List.append_assoc, List.append_assoc]
    cases hw with
    | zero =>
      rw [List.singleton_append] at hrun
      cases negative <;> simp [numberText, hrun, hfrac, hexp]
    | @digits c cs hz _ =>
      have hm := ne_minus_of_isDigit (hdigit c (by simp))
      rw [List.cons_append] at hrun
      cases negative <;> simp [numberText, hrun, hfrac, hexp, hz, hm]

theorem readNumber_of_spells {t : NumberText} {cs rest : List Char} (h : SpellsNumber t cs)
    (hr : Stops rest) : readNumber (cs ++ rest) = (numberDatum t, some rest) := by
  simp [readNumber, numberText_of_spells h hr]

theorem spellsWhole_decimal (n : Nat) : SpellsWhole (Nat.toDigits 10 n) := by
  obtain ⟨d, ds, hd⟩ := List.exists_cons_of_ne_nil (decimal_ne_nil n)
  by_cases hz : d = '0'
  · subst hz
    rw [hd, decimal_eq_of_zero hd]
    exact .zero
  · rw [hd]
    refine .digits hz ?_
    intro c hc
    exact isDigit_of_decimal (hd ▸ hc)

theorem spellsNumber_decimal (negative : Bool) (n : Nat) :
    SpellsNumber ⟨negative, Nat.toDigits 10 n, [], none, false⟩
      ((if negative then ['-'] else []) ++ Nat.toDigits 10 n) := by
  have h := @SpellsNumber.mk negative _ _ _ _ _ _ (spellsWhole_decimal n) .none .none
  simpa using h

/-- Whether a number is kept as it is: it is whole and has 64 bits, with a sign if it is negative.
-/
def NumberText.IsExact (t : NumberText) : Prop :=
  t.isFloat = false ∧
    if t.negative then 0 < digitsValue t.whole ∧ digitsValue t.whole ≤ 2 ^ 63
    else digitsValue t.whole < 2 ^ 64

theorem wholeBound_eq : wholeBound = 2 ^ 64 - 1 := rfl

theorem twoTo_eq (n : Nat) : twoTo n = 2 ^ n := rfl

theorem numberDatum_inexact {t : NumberText} (h : ¬t.IsExact) : numberDatum t = floatDatum t := by
  rw [NumberText.IsExact, not_and] at h
  unfold numberDatum
  by_cases hf : t.isFloat = true
  · simp [hf]
  · have hsize := h (by simpa using hf)
    by_cases hn : t.negative = true
    · rw [if_pos hn] at hsize
      simp only [hf, hn, if_true, Bool.false_eq_true, if_false]
      rw [if_pos (by rw [twoTo_eq]; omega)]
    · rw [if_neg hn] at hsize
      simp only [hf, hn, Bool.false_eq_true, if_false]
      rw [if_neg (by rw [wholeBound_eq]; omega)]

theorem numberDatum_decimal {negative : Bool} {n : Nat}
    (h : if negative then 0 < n ∧ n ≤ 2 ^ 63 else n < 2 ^ 64) :
    numberDatum ⟨negative, Nat.toDigits 10 n, [], none, false⟩ =
      .int (if negative then -(n : Int) else n) := by
  cases negative with
  | false =>
    rw [if_neg (by decide)] at h
    have hle : n ≤ wholeBound := by rw [wholeBound_eq]; omega
    simp [numberDatum, digitsValue_decimal, hle]
  | true =>
    rw [if_pos rfl] at h
    have hlt : ¬(n = 0 ∨ twoTo 63 < n) := by rw [twoTo_eq]; omega
    simp only [numberDatum, digitsValue_decimal, if_true, Bool.false_eq_true, if_false]
    rw [if_neg hlt]

/-! ## Values -/

/-- A character that may stand between the parts of a text. -/
def IsBlank (c : Char) : Prop := c = ' ' ∨ c = '\n' ∨ c = '\t' ∨ c = '\r'

/-- Characters that may stand between the parts of a text. -/
def Blanks (cs : List Char) : Prop := ∀ c ∈ cs, IsBlank c

mutual

/-- How a datum is written, without blanks around it. -/
inductive Spells : Datum → List Char → Prop
  | null : Spells .null ['n', 'u', 'l', 'l']
  | yes : Spells (.bool true) ['t', 'r', 'u', 'e']
  | no : Spells (.bool false) ['f', 'a', 'l', 's', 'e']
  | natural {n : Nat} : n < 2 ^ 64 → Spells (.int n) (Nat.toDigits 10 n)
  | negative {n : Nat} : 0 < n → n ≤ 2 ^ 63 → Spells (.int (-n)) ('-' :: Nat.toDigits 10 n)
  | inexact {t cs} : SpellsNumber t cs → ¬t.IsExact → Spells (floatDatum t) cs
  | string {d cs} : SpellsString d cs → Spells d cs
  | emptySeq {b} : Blanks b → Spells (.seq []) ('[' :: (b ++ [']']))
  | seq {ds cs} : SpellsItems ds cs → Spells (.seq ds) ('[' :: (cs ++ [']']))
  | emptyMap {b} : Blanks b → Spells (.map []) ('\x7b' :: (b ++ ['\x7d']))
  | map {es cs} : SpellsEntries es cs → Spells (.map es) ('\x7b' :: (cs ++ ['\x7d']))

/-- Items of a list, with commas between them. -/
inductive SpellsItems : List Datum → List Char → Prop
  | one {d b cs b'} : Blanks b → Spells d cs → Blanks b' → SpellsItems [d] (b ++ cs ++ b')
  | cons {d ds b cs b' ts} : Blanks b → Spells d cs → Blanks b' → SpellsItems ds ts →
      SpellsItems (d :: ds) (b ++ cs ++ b' ++ ',' :: ts)

/-- Entries of a map, with commas between them. -/
inductive SpellsEntries : List (Datum × Datum) → List Char → Prop
  | one {k v b ks b' c vs c'} : Blanks b → SpellsString k ks → Blanks b' → Blanks c → Spells v vs →
      Blanks c' → SpellsEntries [(k, v)] (b ++ ks ++ b' ++ ':' :: (c ++ vs ++ c'))
  | cons {k v es b ks b' c vs c' ts} : Blanks b → SpellsString k ks → Blanks b' → Blanks c →
      Spells v vs → Blanks c' → SpellsEntries es ts →
      SpellsEntries ((k, v) :: es) (b ++ ks ++ b' ++ ':' :: (c ++ vs ++ c' ++ ',' :: ts))

end

/-- A whole text that writes a datum. -/
def Text (d : Datum) (text : String) : Prop :=
  ∃ b cs b', Blanks b ∧ Spells d cs ∧ Blanks b' ∧ text = String.ofList (b ++ cs ++ b')

theorem blanks_nil : Blanks [] := by simp [Blanks]

theorem skipBlanks_append {b : List Char} (hb : Blanks b) (cs : List Char) :
    skipBlanks (b ++ cs) = skipBlanks cs := by
  induction b with
  | nil => rfl
  | cons c b ih =>
    have hc : IsBlank c := hb c (by simp)
    simp only [IsBlank] at hc
    rw [List.cons_append, skipBlanks, if_pos hc, ih (fun x hx => hb x (by simp [hx]))]

theorem skipBlanks_of_head {cs : List Char} (h : ∀ c ∈ cs.head?, ¬IsBlank c) :
    skipBlanks cs = cs := by
  cases cs with
  | nil => rfl
  | cons c cs =>
    have hc := h c rfl
    simp only [IsBlank] at hc
    rw [skipBlanks, if_neg hc]

theorem not_isBlank_of_isDigit {c : Char} (h : c.isDigit = true) : ¬IsBlank c := by
  rintro (rfl | rfl | rfl | rfl) <;> simp at h

theorem ne_of_isDigit {c d : Char} (h : c.isDigit = true) (hd : d.isDigit = false) : c ≠ d := by
  rintro rfl; simp [hd] at h

/-- What a number starts with. -/
theorem SpellsNumber.head {t : NumberText} {cs : List Char} (h : SpellsNumber t cs) :
    ∃ c rest, cs = c :: rest ∧ (c = '-' ∨ c.isDigit = true) := by
  cases h with
  | @mk negative whole fraction point exponent fs es hw _ _ =>
    cases negative with
    | true => exact ⟨'-', _, rfl, .inl rfl⟩
    | false =>
      cases hw with
      | zero => exact ⟨'0', _, rfl, .inr rfl⟩
      | @digits c cs _ hd => exact ⟨c, _, rfl, .inr (hd c (by simp))⟩

/-- What a datum starts with tells it from blanks and from the end of a list. -/
theorem Spells.head {d : Datum} {cs : List Char} (h : Spells d cs) :
    ∃ c rest, cs = c :: rest ∧ ¬IsBlank c ∧ c ≠ ']' := by
  have number : ∀ {t cs}, SpellsNumber t cs → ∃ c rest, cs = c :: rest ∧ ¬IsBlank c ∧ c ≠ ']' := by
    intro t cs h
    obtain ⟨c, rest, rfl, rfl | hc⟩ := h.head
    · exact ⟨'-', rest, rfl, by simp [IsBlank], by decide⟩
    · exact ⟨c, rest, rfl, not_isBlank_of_isDigit hc, ne_of_isDigit hc rfl⟩
  cases h with
  | natural _ => exact number (spellsNumber_decimal false _)
  | negative _ _ => exact number (spellsNumber_decimal true _)
  | inexact h _ => exact number h
  | string h => cases h <;> exact ⟨'"', _, rfl, by simp [IsBlank], by decide⟩
  | _ => exact ⟨_, _, rfl, by simp [IsBlank], by decide⟩

/-! ## Reading -/

theorem stops_of_blanks {b rest : List Char} (hb : Blanks b) (hr : Stops rest) :
    Stops (b ++ rest) := by
  cases b with
  | nil => exact hr
  | cons c b =>
    intro d hd
    obtain rfl : c = d := by simpa using hd
    rcases hb c (by simp) with rfl | rfl | rfl | rfl <;> decide

theorem stops_cons {c : Char} (h : c.isDigit = false ∧ c ≠ '.' ∧ c ≠ 'e' ∧ c ≠ 'E')
    (rest : List Char) : Stops (c :: rest) := by
  intro d hd
  obtain rfl : c = d := by simpa using hd
  exact h

theorem value_number {t : NumberText} {cs b rest : List Char} (h : SpellsNumber t cs)
    (hb : Blanks b) (hr : Stops rest) (fuel : Nat) :
    value (fuel + 1) (b ++ (cs ++ rest)) = (numberDatum t, some rest) := by
  have hread := readNumber_of_spells h hr
  obtain ⟨c, ds, rfl, hc⟩ := h.head
  have hblank : ¬IsBlank c := by
    rcases hc with rfl | hc
    · simp [IsBlank]
    · exact not_isBlank_of_isDigit hc
  have hother : ∀ d : Char, d ≠ '-' → d.isDigit = false → c ≠ d := by
    rintro d hm hd rfl
    rcases hc with rfl | hc
    · exact hm rfl
    · simp [hd] at hc
  rw [value, skipBlanks_append hb, skipBlanks_of_head (by simpa using hblank)]
  rw [List.cons_append] at hread ⊢
  split <;> rename_i heq
  case h_7 =>
    obtain ⟨rfl, rfl⟩ := List.cons.inj heq
    rw [if_pos hc, hread]
  case h_8 => cases heq
  all_goals exact absurd (List.cons.inj heq).1 (hother _ (by decide) (by decide))

theorem elements_end {b : List Char} (hb : Blanks b) (fuel : Nat) (first : Bool)
    (rest : List Char) : elements (fuel + 1) first (b ++ ']' :: rest) = ([], some rest) := by
  rw [elements, skipBlanks_append hb, skipBlanks_of_head (by simp [IsBlank])]
  rfl

theorem elements_first {b cs rest : List Char} {c : Char} {d : Datum} {fuel : Nat}
    (hb : Blanks b) (hc : ¬IsBlank c) (hend : c ≠ ']')
    (hv : value fuel (c :: cs) = (d, some rest)) :
    elements (fuel + 1) true (b ++ c :: cs) =
      (d :: (elements fuel false rest).1, (elements fuel false rest).2) := by
  rw [elements, skipBlanks_append hb, skipBlanks_of_head (by simpa using hc)]
  simp [hv]

theorem elements_next {b b' cs rest : List Char} {c : Char} {d : Datum} {fuel : Nat}
    (hb' : Blanks b') (hb : Blanks b) (hc : ¬IsBlank c) (hend : c ≠ ']')
    (hv : value fuel (c :: cs) = (d, some rest)) :
    elements (fuel + 1) false (b' ++ ',' :: (b ++ c :: cs)) =
      (d :: (elements fuel false rest).1, (elements fuel false rest).2) := by
  have hskip : skipBlanks (b ++ c :: cs) = c :: cs := by
    rw [skipBlanks_append hb, skipBlanks_of_head (by simpa using hc)]
  rw [elements, skipBlanks_append hb', skipBlanks_of_head (by simp [IsBlank])]
  simp [hskip, hend, hv]

theorem members_end {b : List Char} (hb : Blanks b) (fuel : Nat) (first : Bool)
    (rest : List Char) : members (fuel + 1) first (b ++ '\x7d' :: rest) = ([], some rest) := by
  rw [members, skipBlanks_append hb, skipBlanks_of_head (by simp [IsBlank])]
  rfl

/-- How an entry is read once its opening quote is met. -/
theorem members_entry {ks b' rest vs : List Char} {k v : Datum} {fuel : Nat}
    (hk : readString (ks ++ (b' ++ ':' :: vs)) = (k, some (b' ++ ':' :: vs))) (hb' : Blanks b')
    (hv : value fuel vs = (v, some rest)) :
    (∀ b, Blanks b → members (fuel + 1) true (b ++ '"' :: (ks ++ (b' ++ ':' :: vs))) =
      ((k, v) :: (members fuel false rest).1, (members fuel false rest).2)) ∧
    (∀ a b, Blanks a → Blanks b →
      members (fuel + 1) false (a ++ ',' :: (b ++ '"' :: (ks ++ (b' ++ ':' :: vs)))) =
      ((k, v) :: (members fuel false rest).1, (members fuel false rest).2)) := by
  have hcolon : skipBlanks (b' ++ ':' :: vs) = ':' :: vs := by
    rw [skipBlanks_append hb', skipBlanks_of_head (by simp [IsBlank])]
  have hquote : ∀ b, Blanks b → skipBlanks (b ++ '"' :: (ks ++ (b' ++ ':' :: vs))) =
      '"' :: (ks ++ (b' ++ ':' :: vs)) := by
    intro b hb
    rw [skipBlanks_append hb, skipBlanks_of_head (by simp [IsBlank])]
  constructor
  · intro b hb
    rw [members, hquote b hb]
    simp [hk, hcolon, hv]
  · intro a b ha hb
    rw [members, skipBlanks_append ha, skipBlanks_of_head (by simp [IsBlank])]
    simp [hquote b hb, hk, hcolon, hv]

mutual

theorem value_of_spells {d : Datum} {b cs : List Char} (h : Spells d cs) (fuel : Nat)
    (rest : List Char) (hf : 2 * cs.length ≤ fuel) (hb : Blanks b) (hr : Stops rest) :
    value fuel (b ++ (cs ++ rest)) = (d, some rest) := by
  -- each level takes at most two units of fuel, and has at least one character to pay for them
  obtain ⟨fuel, rfl⟩ : ∃ f, fuel = f + 1 := by
    obtain ⟨c, ts, rfl, -⟩ := h.head
    rw [List.length_cons] at hf
    exact ⟨fuel - 1, by omega⟩
  have start : ∀ {c ts}, ¬IsBlank c → skipBlanks (b ++ (c :: ts ++ rest)) = c :: (ts ++ rest) := by
    intro c ts hc
    rw [skipBlanks_append hb]
    exact skipBlanks_of_head (by simpa using hc)
  match h with
  | .null | .yes | .no => rw [value, start (by simp [IsBlank])]; rfl
  | .natural (n := n) hn =>
    have hnum := value_number (spellsNumber_decimal false n) hb hr fuel
    rwa [numberDatum_decimal (by simpa using hn)] at hnum
  | .negative (n := n) hpos hn =>
    have hnum := value_number (spellsNumber_decimal true n) hb hr fuel
    rwa [numberDatum_decimal (by simpa using ⟨hpos, hn⟩)] at hnum
  | .inexact ht hx => rw [value_number ht hb hr fuel, numberDatum_inexact hx]
  | .string hs =>
    obtain ⟨ts, rfl, hread⟩ := readString_of_spells hs rest
    rw [value, start (by simp [IsBlank])]
    exact hread
  | .emptySeq hb' =>
    rw [value, start (by simp [IsBlank])]
    obtain ⟨f, rfl⟩ : ∃ f, fuel = f + 1 := ⟨fuel - 1, by simp at hf; omega⟩
    simp only [List.append_assoc, List.singleton_append, elements_end hb']
  | .seq hi =>
    rw [value, start (by simp [IsBlank])]
    have hitems := (elements_of_spells hi fuel rest (by simp at hf; omega)).1
    simp only [List.append_assoc, List.singleton_append, hitems]
  | .emptyMap hb' =>
    rw [value, start (by simp [IsBlank])]
    obtain ⟨f, rfl⟩ : ∃ f, fuel = f + 1 := ⟨fuel - 1, by simp at hf; omega⟩
    simp only [List.append_assoc, List.singleton_append, members_end hb']
  | .map he =>
    rw [value, start (by simp [IsBlank])]
    have hentries := (members_of_spells he fuel rest (by simp at hf; omega)).1
    simp only [List.append_assoc, List.singleton_append, hentries]

theorem elements_of_spells {ds : List Datum} {cs : List Char} (h : SpellsItems ds cs) (fuel : Nat)
    (rest : List Char) (hf : 2 * cs.length + 2 ≤ fuel) :
    elements fuel true (cs ++ ']' :: rest) = (ds, some rest) ∧
      ∀ b, Blanks b → elements fuel false (b ++ ',' :: (cs ++ ']' :: rest)) = (ds, some rest) := by
  obtain ⟨fuel, rfl⟩ : ∃ f, fuel = f + 1 := ⟨fuel - 1, by omega⟩
  match h with
  | @SpellsItems.one _ b cs b' hb hd hb' =>
    simp only [List.length_append] at hf
    have hv := value_of_spells hd fuel (b' ++ ']' :: rest) (by omega)
      blanks_nil (stops_of_blanks hb' (stops_cons (by decide) _))
    obtain ⟨f, rfl⟩ : ∃ f, fuel = f + 1 := ⟨fuel - 1, by omega⟩
    have hend := elements_end hb' f false rest
    obtain ⟨c, ts, rfl, hc, hne⟩ := hd.head
    constructor
    · have := elements_first hb hc hne hv
      simpa [hend] using this
    · intro a ha
      have := elements_next ha hb hc hne hv
      simpa [hend] using this
  | @SpellsItems.cons _ _ b cs b' ts hb hd hb' hi =>
    simp only [List.length_append, List.length_cons] at hf
    have hv := value_of_spells hd fuel (b' ++ ',' :: (ts ++ ']' :: rest))
      (by omega) blanks_nil (stops_of_blanks hb' (stops_cons (by decide) _))
    have hnext := (elements_of_spells hi fuel rest (by omega)).2 b' hb'
    obtain ⟨c, cs, rfl, hc, hne⟩ := hd.head
    constructor
    · have := elements_first hb hc hne hv
      simpa [hnext] using this
    · intro a ha
      have := elements_next ha hb hc hne hv
      simpa [hnext] using this

theorem members_of_spells {es : List (Datum × Datum)} {cs : List Char} (h : SpellsEntries es cs)
    (fuel : Nat) (rest : List Char) (hf : 2 * cs.length + 2 ≤ fuel) :
    members fuel true (cs ++ '\x7d' :: rest) = (es, some rest) ∧
      ∀ b, Blanks b →
        members fuel false (b ++ ',' :: (cs ++ '\x7d' :: rest)) = (es, some rest) := by
  obtain ⟨fuel, rfl⟩ : ∃ f, fuel = f + 1 := ⟨fuel - 1, by omega⟩
  match h with
  | @SpellsEntries.one _ _ b ks b' c vs c' hb hk hb' hc hv hc' =>
    simp only [List.length_append, List.length_cons] at hf
    have hval := value_of_spells hv fuel (c' ++ '\x7d' :: rest) (by omega)
      hc (stops_of_blanks hc' (stops_cons (by decide) _))
    obtain ⟨ts, rfl, hread⟩ := readString_of_spells hk
      (b' ++ ':' :: (c ++ (vs ++ (c' ++ '\x7d' :: rest))))
    obtain ⟨hfirst, hnext⟩ := members_entry hread hb' hval
    obtain ⟨f, rfl⟩ : ∃ f, fuel = f + 1 := ⟨fuel - 1, by omega⟩
    have hend := members_end hc' f false rest
    constructor
    · simpa [hend] using hfirst b hb
    · intro a ha
      simpa [hend] using hnext a b ha hb
  | @SpellsEntries.cons _ _ _ b ks b' c vs c' es' hb hk hb' hc hv hc' hes =>
    simp only [List.length_append, List.length_cons] at hf
    have hval := value_of_spells hv fuel (c' ++ ',' :: (es' ++ '\x7d' :: rest)) (by omega) hc
      (stops_of_blanks hc' (stops_cons (by decide) _))
    obtain ⟨ts, rfl, hread⟩ := readString_of_spells hk
      (b' ++ ':' :: (c ++ (vs ++ (c' ++ ',' :: (es' ++ '\x7d' :: rest)))))
    obtain ⟨hfirst, hnext⟩ := members_entry hread hb' hval
    have hrest := (members_of_spells hes fuel rest (by omega)).2 c' hc'
    constructor
    · simpa [hrest] using hfirst b hb
    · intro a ha
      simpa [hrest] using hnext a b ha hb

end

/-- Whatever is written is read back, and nothing but blanks is left. -/
theorem read_of_text {d : Datum} {text : String} (h : Text d text) : read text = (d, true) := by
  obtain ⟨b, cs, b', hb, hd, hb', rfl⟩ := h
  have hend : Stops (b' ++ []) := stops_of_blanks hb' (by simp [Stops])
  have hv := value_of_spells hd (2 * (b ++ cs ++ b').length + 2) (b' ++ [])
    (by simp only [List.length_append]; omega)
    hb hend
  have hskip : skipBlanks b' = [] := by simpa [skipBlanks] using skipBlanks_append hb' []
  simp only [List.append_nil] at hv
  simp only [read, String.toList_ofList, List.append_assoc] at hv ⊢
  rw [hv]
  simp [hskip]

/-! ## What can be written is whole -/

theorem floatDatum_cases (t : NumberText) :
    (∃ bits, floatDatum t = .float bits) ∨ floatDatum t = .skipOnly := by
  unfold floatDatum
  simp only
  split
  · exact .inl ⟨_, rfl⟩
  · exact .inr rfl

theorem SpellsString.isWhole {d : Datum} {cs : List Char} (h : SpellsString d cs) :
    d.isWhole = true := by
  cases h <;> rfl

mutual

theorem Spells.isWhole {d : Datum} {cs : List Char} (h : Spells d cs) : d.isWhole = true :=
  match h with
  | .null | .yes | .no | .natural _ | .negative _ _ | .emptySeq _ | .emptyMap _ => rfl
  | .inexact (t := t) _ _ => by
    rcases floatDatum_cases t with ⟨bits, ht⟩ | ht <;> simp [ht, Datum.isWhole]
  | .string hs => hs.isWhole
  | .seq hi => by simpa [Datum.isWhole] using hi.isWhole
  | .map he => by simpa [Datum.isWhole] using he.isWhole

theorem SpellsItems.isWhole {ds : List Datum} {cs : List Char} (h : SpellsItems ds cs) :
    itemsWhole ds = true :=
  match h with
  | .one _ hd _ => by simp [itemsWhole, hd.isWhole]
  | .cons _ hd _ hi => by simp [itemsWhole, hd.isWhole, hi.isWhole]

theorem SpellsEntries.isWhole {es : List (Datum × Datum)} {cs : List Char}
    (h : SpellsEntries es cs) : entriesWhole es = true :=
  match h with
  | .one _ hk _ _ hv _ => by simp [entriesWhole, hk.isWhole, hv.isWhole]
  | .cons _ hk _ _ hv _ hes => by simp [entriesWhole, hk.isWhole, hv.isWhole, hes.isWhole]

end

theorem Text.isWhole {d : Datum} {text : String} (h : Text d text) : d.isWhole = true := by
  obtain ⟨b, cs, b', -, hd, -⟩ := h
  exact hd.isWhole

end WasmHost.Datum.Json

import WasmHost.Proofs.Datum.JsonText

/-!
# The compact text

`Datum.compact` writes a datum that settings are made of by the grammar of the format, so that it
is read back as it was.
-/

namespace WasmHost.Datum

open Json

mutual

/-- Whether a datum has a compact text of its own: its numbers have 64 bits and its keys are
texts. -/
def Printable : Datum → Prop
  | null | bool _ | string _ => True
  | int n => -2 ^ 63 ≤ n ∧ n < 2 ^ 64
  | seq items => ItemsPrintable items
  | map entries => EntriesPrintable entries
  | _ => False

/-- Whether every item of a list has a compact text. -/
def ItemsPrintable : List Datum → Prop
  | [] => True
  | d :: ds => d.Printable ∧ ItemsPrintable ds

/-- Whether every entry of a map has a compact text. -/
def EntriesPrintable : List (Datum × Datum) → Prop
  | [] => True
  | (k, v) :: es => (∃ s, k = string s) ∧ v.Printable ∧ EntriesPrintable es

end

theorem itemsPrintable_iff (ds : List Datum) : ItemsPrintable ds ↔ ∀ d ∈ ds, d.Printable := by
  induction ds with
  | nil => simp [ItemsPrintable]
  | cons d ds ih => simp [ItemsPrintable, ih]

theorem printable_object (ms : List (String × Datum)) :
    (object ms).Printable ↔ ∀ m ∈ ms, m.2.Printable := by
  rw [object, Printable]
  induction ms with
  | nil => simp [EntriesPrintable]
  | cons m ms ih => simp [EntriesPrintable, ih]

theorem printable_optional {α : Type} {toDatum : α → Datum} {o : Option α}
    (h : ∀ a ∈ o, (toDatum a).Printable) : (optional toDatum o).Printable := by
  cases o with
  | none => trivial
  | some a => exact h a rfl

theorem printable_list {α : Type} {toDatum : α → Datum} {as : List α}
    (h : ∀ a ∈ as, (toDatum a).Printable) : (seq (as.map toDatum)).Printable := by
  simpa [Printable, itemsPrintable_iff] using h

/-! ## Strings -/

theorem hexDigit?_digitChar : ∀ n < 16, Text.hexDigit? n.digitChar = some n := by decide

theorem hexPadded_control : ∀ n < 0x20, (Text.hexPadded 4 n).toList =
    ['0', '0', (n / 16).digitChar, (n % 16).digitChar] := by decide

theorem spellsPiece_control {c : Char} (h : c.toNat < 0x20) :
    SpellsPiece (.unit c.toNat) ("\\u" ++ Text.hexPadded 4 c.toNat).toList := by
  have hp := SpellsPiece.unit (a := '0') (b := '0') (i := 0) (j := 0) (by decide) (by decide)
    (hexDigit?_digitChar (c.toNat / 16) (by omega)) (hexDigit?_digitChar (c.toNat % 16) (by omega))
  have hn : 0x1000 * 0 + 0x100 * 0 + 0x10 * (c.toNat / 16) + c.toNat % 16 = c.toNat := by omega
  rw [hn] at hp
  simpa [hexPadded_control c.toNat h] using hp

theorem spellsPiece_of_char (c : Char) : ∃ p, SpellsPiece p (Text.jsonChar c).toList ∧
    ∀ ps cs, Denotes ps cs → Denotes (p :: ps) (c :: cs) := by
  have short : ∀ {e : Char} {t : String}, (e, c) ∈ shortEscapes → t.toList = ['\\', e] →
      ∃ p, SpellsPiece p t.toList ∧ ∀ ps cs, Denotes ps cs → Denotes (p :: ps) (c :: cs) := by
    intro e t he ht
    rw [ht]
    exact ⟨.char c, .short he, fun ps cs hd => .char hd⟩
  unfold Text.jsonChar
  split_ifs with h1 h2 h3 h4 h5 h6 h7 h8
  · subst h1; exact short (e := '"') (by decide) rfl
  · subst h2; exact short (e := '\\') (by decide) rfl
  · subst h3; exact short (e := 'n') (by decide) rfl
  · subst h4; exact short (e := 'r') (by decide) rfl
  · subst h5; exact short (e := 't') (by decide) rfl
  · subst h6; exact short (e := 'b') (by decide) rfl
  · subst h7; exact short (e := 'f') (by decide) rfl
  · refine ⟨.unit c.toNat, spellsPiece_control h8, ?_⟩
    intro ps cs hd
    have h := Denotes.unit (n := c.toNat) (.inl (by omega)) hd
    rwa [Char.ofNat_toNat] at h
  · refine ⟨.char c, ?_, fun ps cs hd => .char hd⟩
    simpa using SpellsPiece.plain (by omega) h1 h2

theorem spellsString_quoted (s : String) : SpellsString (.string s) (Text.quotedJson s).toList := by
  have h : ∀ cs : List Char, ∃ ps, SpellsPieces ps (String.join (cs.map Text.jsonChar)).toList ∧
      Denotes ps cs := by
    intro cs
    induction cs with
    | nil => exact ⟨[], .nil, .nil⟩
    | cons c cs ih =>
      obtain ⟨ps, hps, hden⟩ := ih
      obtain ⟨p, hp, hd⟩ := spellsPiece_of_char c
      refine ⟨p :: ps, ?_, hd ps cs hden⟩
      simpa using SpellsPieces.cons hp hps
  obtain ⟨ps, hps, hden⟩ := h s.toList
  simpa [Text.quotedJson] using SpellsString.text hps hden

/-! ## Data -/

theorem spells_int {n : Int} (h : -2 ^ 63 ≤ n ∧ n < 2 ^ 64) :
    Spells (.int n) (toString n).toList := by
  cases n with
  | ofNat n =>
    have hs := Spells.natural (n := n) (by simp at h; omega)
    simpa [Int.repr, Nat.repr_eq_ofList_toDigits] using hs
  | negSucc n =>
    have hs := Spells.negative (n := n + 1) (by omega) (by omega)
    have ht : (toString (Int.negSucc n)).toList = '-' :: Nat.toDigits 10 (n + 1) := by
      change ("-" ++ Nat.repr (n + 1)).toList = _
      simp [Nat.repr_eq_ofList_toDigits]
    rw [ht]
    exact hs

mutual

theorem spells_compact : (d : Datum) → d.Printable → Spells d d.compact.toList
  | null, _ => by simpa [compact] using Spells.null
  | bool b, _ => by cases b <;> simp [compact] <;> constructor
  | int n, h => by simpa [compact] using spells_int h
  | string s, _ => by simpa [compact] using Spells.string (spellsString_quoted s)
  | seq [], _ => by simpa [compact, compactItems] using Spells.emptySeq (b := []) blanks_nil
  | seq (d :: ds), h => by
    simpa [compact] using Spells.seq (spells_compactItems (d :: ds) (by simp) h)
  | map [], _ => by
    simpa [compact, compactEntries] using Spells.emptyMap (b := []) blanks_nil
  | map (e :: es), h => by
    simpa [compact] using Spells.map (spells_compactEntries (e :: es) (by simp) h)

theorem spells_compactItems : (ds : List Datum) → ds ≠ [] → ItemsPrintable ds →
    SpellsItems ds (compactItems ds).toList
  | [], h, _ => absurd rfl h
  | [d], _, h => by
    have hd := spells_compact d h.1
    simpa [compactItems] using SpellsItems.one blanks_nil hd blanks_nil
  | d :: e :: ds, _, h => by
    have hd := spells_compact d h.1
    have hds := spells_compactItems (e :: ds) (by simp) h.2
    simpa [compactItems] using SpellsItems.cons blanks_nil hd blanks_nil hds

theorem spells_compactEntries : (es : List (Datum × Datum)) → es ≠ [] → EntriesPrintable es →
    SpellsEntries es (compactEntries es).toList
  | [], h, _ => absurd rfl h
  | [(k, v)], _, h => by
    obtain ⟨⟨s, rfl⟩, hv, -⟩ := h
    have hs := spellsString_quoted s
    simpa [compactEntries, compact] using SpellsEntries.one blanks_nil hs blanks_nil blanks_nil
      (spells_compact v hv) blanks_nil
  | (k, v) :: e :: es, _, h => by
    obtain ⟨⟨s, rfl⟩, hv, hes⟩ := h
    have hs := spellsString_quoted s
    have hrest := spells_compactEntries (e :: es) (by simp) hes
    simpa [compactEntries, compact] using SpellsEntries.cons blanks_nil hs blanks_nil blanks_nil
      (spells_compact v hv) blanks_nil hrest

end

theorem text_compact {d : Datum} (h : d.Printable) : Text d d.compact :=
  ⟨[], d.compact.toList, [], blanks_nil, spells_compact d h, blanks_nil, by simp⟩

/-- What the compact writer writes is read back as it was. -/
theorem read_compact {d : Datum} (h : d.Printable) : read d.compact = (d, true) :=
  read_of_text (text_compact h)

end WasmHost.Datum

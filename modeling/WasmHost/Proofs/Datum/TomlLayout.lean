import WasmHost.Proofs.Datum.TomlTables
import WasmHost.Proofs.Datum.CompactText
import WasmHost.Proofs.Datum.RecordMeaning

/-!
# Laying out data as documents

A datum of tables, whose entries are plain values, tables of plain values or arrays of such tables,
has a document: each table gets a section, and so does each table in it and each table of an array.
-/

namespace WasmHost.Datum.Toml

/-! ## Texts of values -/

/-- Truth values, texts, and numbers of 63 bits. -/
inductive Scalar : Datum → Prop
  | bool (b : Bool) : Scalar (.bool b)
  | nat {n : Nat} : n < 2 ^ 63 → Scalar (.int n)
  | string (s : String) : Scalar (.string s)

/-- A scalar or a list of scalars. -/
def Plain (d : Datum) : Prop := Scalar d ∨ ∃ ds, d = seq ds ∧ ∀ d ∈ ds, Scalar d

theorem hexDigits_byte {n : Nat} (h : n < 0x100) :
    HexDigits ['0', '0', (n / 16).digitChar, (n % 16).digitChar] n := by
  have hhigh := hexDigit?_digitChar (n / 16) (by omega)
  have hlow := hexDigit?_digitChar (n % 16) (by omega)
  refine ⟨[0, 0, n / 16, n % 16], ?_, by simp; omega⟩
  exact .cons (by decide) (.cons (by decide) (.cons hhigh (.cons hlow .nil)))

theorem exists_spellsChar (c : Char) : ∃ t, SpellsChar c t := by
  by_cases hq : c = '"'
  · subst hq
    exact ⟨_, .short (e := '"') (by decide)⟩
  by_cases hs : c = '\\'
  · subst hs
    exact ⟨_, .short (e := '\\') (by decide)⟩
  by_cases ht : isTextChar c = true
  · exact ⟨_, .plain ht hq hs⟩
  · have hlt : c.toNat < 0x100 := by
      simp only [isTextChar, Bool.or_eq_true, Bool.and_eq_true, decide_eq_true_eq] at ht
      omega
    exact ⟨_, .code rfl (hexDigits_byte hlt)⟩

theorem exists_spellsString (s : String) : ∃ ts, SpellsString s ts := by
  obtain ⟨ts, hts⟩ : ∃ ts, SpellsChars s.toList ts := by
    induction s.toList with
    | nil => exact ⟨_, .nil⟩
    | cons c cs ih =>
      obtain ⟨ts, hts⟩ := ih
      obtain ⟨t, ht⟩ := exists_spellsChar c
      exact ⟨_, .cons ht hts⟩
  have h := SpellsString.basic hts
  rw [String.ofList_toList] at h
  exact ⟨_, h⟩

theorem spellsDigits_self {ds : List Char} (hne : ds ≠ []) (h : ∀ d ∈ ds, d.isDigit = true) :
    SpellsDigits ds ds := by
  induction ds with
  | nil => exact absurd rfl hne
  | cons d ds ih =>
    rw [List.forall_mem_cons] at h
    cases ds with
    | nil => exact .one h.1
    | cons e ds => exact .next h.1 (ih (by simp) h.2)

theorem Scalar.exists_spells {d : Datum} (h : Scalar d) (depth : Nat) :
    ∃ ts, Spells depth d ts := by
  cases h with
  | bool b =>
    cases b with
    | false => exact ⟨_, .no⟩
    | true => exact ⟨_, .yes⟩
  | @nat n hn =>
    have hd := spellsDigits_self (Json.decimal_ne_nil n) fun _ => Json.isDigit_of_decimal
    exact ⟨_, .int (.plain hn hd)⟩
  | string s =>
    obtain ⟨ts, hts⟩ := exists_spellsString s
    exact ⟨ts, .string hts⟩

theorem Plain.exists_spells {d : Datum} (h : Plain d) : ∃ ts, Spells 0 d ts := by
  rcases h with h | ⟨ds, rfl, hds⟩
  · exact h.exists_spells 0
  · obtain ⟨ts, hts⟩ : ∃ ts, SpellsItems 1 ds ts := by
      induction ds with
      | nil => exact ⟨_, .nil .nil⟩
      | cons d ds ih =>
        rw [List.forall_mem_cons] at hds
        obtain ⟨us, hus⟩ := ih hds.2
        obtain ⟨ts, hts⟩ := hds.1.exists_spells 1
        exact ⟨_, .cons .nil hts .nil hus⟩
    exact ⟨_, .seq (by decide) hts⟩

theorem Scalar.printable {d : Datum} (h : Scalar d) : d.Printable := by
  cases h with
  | bool b => trivial
  | nat hn =>
    simp only [Printable]
    omega
  | string s => trivial

theorem Plain.printable {d : Datum} (h : Plain d) : d.Printable := by
  rcases h with h | ⟨ds, rfl, hds⟩
  · exact h.printable
  · exact (itemsPrintable_iff ds).mpr fun d hd => (hds d hd).printable

/-! ## Texts of documents -/

/-- A line that can be written: its key is short and its value is plain. -/
inductive Line.Writable : Line → Prop
  | pair {k d} : Plain d → Writable (.pair k d)
  | outer (n) : Writable (.table [n])
  | inner (n k) : Writable (.table [n, k])
  | item (n k) : Writable (.item [n, k])

theorem exists_spellsKey (k : String) : ∃ ks, SpellsKey k ks := by
  obtain ⟨ks, hks⟩ := exists_spellsString k
  exact ⟨ks, .quoted hks⟩

theorem Line.Writable.exists_spells {l : Line} (h : l.Writable) : ∃ t, SpellsLine l t := by
  have one : ∀ n, ∃ ts, SpellsPath [n] ts := by
    intro n
    obtain ⟨ks, hks⟩ := exists_spellsKey n
    exact ⟨_, .one blanks_nil hks blanks_nil⟩
  have two : ∀ n k, ∃ ts, SpellsPath [n, k] ts := by
    intro n k
    obtain ⟨ks, hks⟩ := exists_spellsKey n
    obtain ⟨ts, hts⟩ := one k
    exact ⟨_, .cons blanks_nil hks blanks_nil hts⟩
  cases h with
  | @pair k d hd =>
    obtain ⟨ks, hks⟩ := exists_spellsKey k
    obtain ⟨ts, hts⟩ := hd.exists_spells
    exact ⟨_, .pair hks blanks_nil blanks_nil hts⟩
  | outer n =>
    obtain ⟨ts, hts⟩ := one n
    exact ⟨_, .table (by simp [nestingBound]) hts⟩
  | inner n k =>
    obtain ⟨ts, hts⟩ := two n k
    exact ⟨_, .table (by simp [nestingBound]) hts⟩
  | item n k =>
    obtain ⟨ts, hts⟩ := two n k
    exact ⟨_, .item (by simp [nestingBound]) hts⟩

theorem exists_document_text {ls : List Line} (h : ∀ l ∈ ls, l.Writable) :
    ∃ text : String, SpellsDocument ls text.toList := by
  obtain ⟨ts, hts⟩ : ∃ ts, SpellsLines ls ts := by
    induction ls with
    | nil => exact ⟨_, .empty (.last blanks_nil .none)⟩
    | cons l ls ih =>
      rw [List.forall_mem_cons] at h
      obtain ⟨ts, hts⟩ := ih h.2
      obtain ⟨t, ht⟩ := h.1.exists_spells
      exact ⟨_, .line blanks_nil ht (.next blanks_nil .none .lf hts)⟩
  exact ⟨String.ofList ts, by rw [String.toList_ofList]; exact .plain hts⟩

/-! ## Sections of data -/

/-- How the value of a key is laid out. -/
inductive Entry where
  /-- After the key. -/
  | value (d : Datum)
  /-- Below a header. -/
  | table (pairs : List (String × Datum))
  /-- Each table below a header of the array. -/
  | items (rows : List (List (String × Datum)))

namespace Entry

def toDatum : Entry → Datum
  | value d => d
  | table ps => object ps
  | items rows => seq (rows.map object)

/-- The sections that an entry has of its own. -/
def sections (n k : String) : Entry → List Section
  | value _ => []
  | table ps => [⟨false, [n, k], ps⟩]
  | items rows => rows.map (⟨true, [n, k], ·⟩)

/-- What is written after the key of an entry. -/
def value? : Entry → Option Datum
  | value d => some d
  | _ => none

/-- A table that can stand below a header. -/
def Row (ps : List (String × Datum)) : Prop := (ps.map (·.1)).Nodup ∧ ∀ p ∈ ps, Plain p.2

/-- An entry that can be laid out; an empty array has no header. -/
def Fits : Entry → Prop
  | value d => Plain d
  | table ps => Row ps
  | items rows => rows ≠ [] ∧ ∀ ps ∈ rows, Row ps

end Entry

/-- A table as it is laid out. -/
abbrev Layout := List (String × Entry)

namespace Layout

def toDatum (es : Layout) : Datum := object (es.map fun (k, e) => (k, e.toDatum))

/-- The pairs below the header of a table. -/
def pairs (es : Layout) : List (String × Datum) := present (es.map fun (k, e) => (k, e.value?))

/-- A table and what it has below headers of their own. -/
def sections (n : String) (es : Layout) : List Section :=
  ⟨false, [n], es.pairs⟩ :: es.flatMap fun (k, e) => e.sections n k

/-- Keys differ, and every entry can be laid out. -/
def Fits (es : Layout) : Prop := (es.map (·.1)).Nodup ∧ ∀ e ∈ es, e.2.Fits

end Layout

/-- A datum of tables that can be laid out. -/
def Tabular (d : Datum) : Prop :=
  ∃ ts : List (String × Layout), d = object (ts.map fun (n, es) => (n, es.toDatum)) ∧
    (ts.map (·.1)).Nodup ∧ ∀ t ∈ ts, t.2.Fits

theorem Entry.printable {e : Entry} (h : e.Fits) : e.toDatum.Printable := by
  have row : ∀ {ps}, Row ps → (object ps).Printable :=
    fun hps => (printable_object _).mpr fun p hp => (hps.2 p hp).printable
  cases e with
  | value d => exact Plain.printable h
  | table ps => exact row h
  | items rows => exact printable_list fun ps hps => row (h.2 ps hps)

theorem Tabular.printable {d : Datum} (h : Tabular d) : d.Printable := by
  obtain ⟨ts, rfl, -, hts⟩ := h
  refine (printable_object _).mpr ?_
  rw [List.forall_mem_map]
  intro t ht
  refine (printable_object _).mpr ?_
  rw [List.forall_mem_map]
  exact fun e he => Entry.printable ((hts t ht).2 e he)

/-! ### Sections that stand together -/

variable {n k : String} {es : Layout}

theorem Layout.mem_pairs {p : String × Datum} : p ∈ es.pairs ↔ (p.1, .value p.2) ∈ es := by
  rw [Layout.pairs, mem_present, List.mem_map]
  constructor
  · rintro ⟨⟨k, e⟩, he, hp⟩
    cases e <;> cases hp
    exact he
  · exact fun he => ⟨_, he, rfl⟩

theorem Layout.keys_pairs (es : Layout) : (es.pairs.map (·.1)).Sublist (es.map (·.1)) := by
  have h := keys_present (es.map fun (k, e) => (k, e.value?))
  rw [List.map_map] at h
  exact h

theorem Entry.path_sections {e : Entry} {s : Section} (h : s ∈ e.sections n k) :
    s.path = [n, k] := by
  cases e with
  | value d => cases h
  | table ps =>
    obtain rfl := List.mem_singleton.mp h
    rfl
  | items rows =>
    obtain ⟨ps, -, rfl⟩ := List.mem_map.mp h
    rfl

/-- The sections of a table are of itself or of one of its keys that has no pair. -/
theorem Layout.path_sections {s : Section} (h : s ∈ es.sections n) :
    s = ⟨false, [n], es.pairs⟩ ∨
      ∃ k e, (k, e) ∈ es ∧ s ∈ e.sections n k ∧ s.path = [n, k] := by
  rcases List.mem_cons.mp h with h | h
  · exact .inl h
  · obtain ⟨⟨k, e⟩, he, hs⟩ := List.mem_flatMap.mp h
    exact .inr ⟨k, e, he, hs, Entry.path_sections hs⟩

theorem Layout.head_sections {s : Section} (h : s ∈ es.sections n) : s.path.head? = some n := by
  rcases Layout.path_sections h with rfl | ⟨k, e, -, -, hp⟩
  · rfl
  · rw [hp]; rfl

theorem Section.compatible_of_head {s s' : Section} (h : s.path.head? ≠ s'.path.head?) :
    Compatible s s' where
  path _ hp := h (by rw [hp])
  left n k hp hp' := absurd (by rw [hp, hp']; rfl) h
  right n k hp hp' := absurd (by rw [hp, hp']; rfl) h

theorem Section.compatible_inner {s s' : Section} {k' : String} (h : s.path = [n, k])
    (h' : s'.path = [n, k']) (hne : s.isItem = false ∨ s'.isItem = false → k ≠ k') :
    Compatible s s' where
  path hb hp := hne hb (by simpa [h, h'] using hp)
  left n k hp := by simp [h] at hp
  right n k hp := by simp [h'] at hp

theorem Layout.Fits.no_pair (h : es.Fits) {e : Entry} (he : (k, e) ∈ es)
    {s : Section} (hs : s ∈ e.sections n k) : k ∉ es.pairs.map (·.1) := by
  intro hin
  obtain ⟨⟨k', d⟩, hp, rfl⟩ := List.mem_map.mp hin
  have h1 := (lookup_eq_some_iff h.1).mpr he
  have h2 := (lookup_eq_some_iff h.1).mpr (Layout.mem_pairs.mp hp)
  obtain rfl : e = .value d := Option.some.inj (h1.symm.trans h2)
  cases hs

theorem Layout.Fits.compatible (h : es.Fits) : (es.sections n).Pairwise Section.Compatible := by
  refine List.pairwise_cons.mpr ⟨?_, List.pairwise_flatMap.mpr ⟨?_, ?_⟩⟩
  · intro s hs
    obtain ⟨⟨k, e⟩, he, hs⟩ := List.mem_flatMap.mp hs
    have hp := Entry.path_sections hs
    refine ⟨by simp [hp], ?_, by simp⟩
    rintro m j hm hj
    rw [hp] at hj
    cases hj
    exact h.no_pair he hs
  · rintro ⟨k, e⟩ he
    cases e with
    | value d => exact .nil
    | table ps => exact List.pairwise_singleton _ _
    | items rows =>
      refine List.pairwise_map.mpr (List.pairwise_of_forall fun _ _ => ?_)
      exact Section.compatible_inner rfl rfl (by simp)
  · refine (List.pairwise_map.mp h.1).imp ?_
    rintro ⟨k, e⟩ ⟨k', e'⟩ hne s hs s' hs'
    exact Section.compatible_inner (Entry.path_sections hs) (Entry.path_sections hs') fun _ => hne

theorem Layout.Fits.valid (h : es.Fits) {s : Section} (hs : s ∈ es.sections n) :
    s.Valid ∧ ∀ l ∈ s.lines, l.Writable := by
  have plain : ∀ {ps : List (String × Datum)}, (∀ p ∈ ps, Plain p.2) →
      ∀ l ∈ ps.map fun p => Line.pair p.1 p.2, l.Writable := by
    intro ps hps l hl
    obtain ⟨p, hp, rfl⟩ := List.mem_map.mp hl
    exact .pair (hps p hp)
  have row : ∀ {b k ps}, Entry.Row ps → (⟨b, [n, k], ps⟩ : Section).Valid ∧
      ∀ l ∈ (⟨b, [n, k], ps⟩ : Section).lines, l.Writable := by
    intro b k ps hps
    refine ⟨⟨hps.1, .inr ⟨n, k, rfl⟩⟩, List.forall_mem_cons.mpr ⟨?_, plain hps.2⟩⟩
    cases b with
    | false => exact .inner n k
    | true => exact .item n k
  rcases Layout.path_sections hs with rfl | ⟨k, e, he, hs, -⟩
  · refine ⟨⟨es.keys_pairs.nodup h.1, .inl ⟨n, rfl, rfl⟩⟩, ?_⟩
    refine List.forall_mem_cons.mpr ⟨.outer n, plain ?_⟩
    exact fun p hp => h.2 _ (Layout.mem_pairs.mp hp)
  · have hfit := h.2 _ he
    cases e with
    | value d => cases hs
    | table ps =>
      obtain rfl := List.mem_singleton.mp hs
      exact row hfit
    | items rows =>
      obtain ⟨ps, hps, rfl⟩ := List.mem_map.mp hs
      exact row (hfit.2 ps hps)

/-! ### What the sections say -/

/-- Of entries with distinct keys only the one of a key counts for it. -/
theorem flatMap_of_mem {α β : Type} {xs : List (String × α)} (hd : (xs.map (·.1)).Nodup) {a : α}
    (ha : (k, a) ∈ xs) {f : String × α → List β} (hf : ∀ x ∈ xs, x.1 ≠ k → f x = []) :
    xs.flatMap f = f (k, a) := by
  induction xs with
  | nil => cases ha
  | cons x xs ih =>
    rw [List.map_cons, List.nodup_cons] at hd
    rw [List.forall_mem_cons] at hf
    rw [List.flatMap_cons]
    rcases List.mem_cons.mp ha with rfl | ha
    · have hnil : xs.flatMap f = [] := by
        rw [List.flatMap_eq_nil_iff]
        intro y hy
        exact hf.2 y hy fun heq => hd.1 (List.mem_map.mpr ⟨y, hy, heq⟩)
      rw [hnil, List.append_nil]
    · have hne : x.1 ≠ k := by
        rintro rfl
        exact hd.1 (List.mem_map.mpr ⟨_, ha, rfl⟩)
      rw [hf.1 hne, List.nil_append, ih hd.2 ha hf.2]

/-- The sections at a path. -/
def sectionsAt (ss : List Section) (path : List String) : List Section := ss.filter (·.path == path)

/-- What sections say of a path depends on the sections at the path. -/
theorem at_eq_of_sectionsAt {ss ss' : List Section} {path : List String}
    (h : sectionsAt ss path = ss') :
    headedAt ss path = ss'.any (!·.isItem) ∧
      pairsAt ss path = (ss'.filter (!·.isItem)).flatMap (·.pairs) ∧
      itemsAt ss path = (ss'.filter (·.isItem)).map (·.pairs) := by
  subst h
  simp only [headedAt, pairsAt, itemsAt, sectionsAt, List.any_filter, List.filter_filter,
    Section.heads, Section.adds]
  refine ⟨?_, trivial, trivial⟩
  congr 1
  funext s
  exact Bool.and_comm _ _

theorem sectionsAt_eq_nil {ss : List Section} {path : List String} (h : ∀ s ∈ ss, s.path ≠ path) :
    sectionsAt ss path = [] := by
  rw [sectionsAt, List.filter_eq_nil_iff]
  intro s hs
  simpa using h s hs

theorem sectionsAt_eq_self {ss : List Section} {path : List String} (h : ∀ s ∈ ss, s.path = path) :
    sectionsAt ss path = ss := by
  rw [sectionsAt, List.filter_eq_self]
  intro s hs
  simpa using h s hs

theorem sectionsAt_flatMap {α : Type} (xs : List α) (f : α → List Section) (path : List String) :
    sectionsAt (xs.flatMap f) path = xs.flatMap fun x => sectionsAt (f x) path := by
  rw [sectionsAt, List.filter_flatMap]
  rfl

theorem Layout.sectionsAt_outer (es : Layout) :
    sectionsAt (es.sections n) [n] = [⟨false, [n], es.pairs⟩] := by
  have hrest : sectionsAt (es.flatMap fun (k, e) => e.sections n k) [n] = [] := by
    refine sectionsAt_eq_nil ?_
    intro s hs
    obtain ⟨⟨k, e⟩, -, hs⟩ := List.mem_flatMap.mp hs
    simp [Entry.path_sections hs]
  rw [Layout.sections, sectionsAt, List.filter_cons_of_pos (by simp), ← sectionsAt, hrest]

theorem Layout.sectionsAt_inner (h : (es.map (·.1)).Nodup) :
    sectionsAt (es.sections n) [n, k] = ((es.lookup k).map (·.sections n k)).getD [] := by
  rw [Layout.sections, sectionsAt, List.filter_cons_of_neg (by simp), ← sectionsAt,
    sectionsAt_flatMap]
  have hother : ∀ x ∈ es, x.1 ≠ k → sectionsAt (x.2.sections n x.1) [n, k] = [] := by
    intro x _ hne
    refine sectionsAt_eq_nil fun s hs => ?_
    rw [Entry.path_sections hs]
    simpa using hne
  cases hl : es.lookup k with
  | none =>
    rw [Option.map_none, Option.getD_none, List.flatMap_eq_nil_iff]
    rintro ⟨j, e⟩ he
    refine hother _ he ?_
    rintro rfl
    rw [(lookup_eq_some_iff h).mpr he] at hl
    cases hl
  | some e =>
    rw [flatMap_of_mem h (mem_of_lookup hl) hother]
    exact sectionsAt_eq_self fun s hs => Entry.path_sections hs

theorem Layout.lookup_pairs (h : (es.map (·.1)).Nodup) :
    es.pairs.lookup k = (es.lookup k).bind Entry.value? := by
  ext d
  rw [lookup_eq_some_iff (es.keys_pairs.nodup h), Layout.mem_pairs]
  constructor
  · intro he
    rw [(lookup_eq_some_iff h).mpr he]
    rfl
  · intro hb
    obtain ⟨e, he, hd⟩ := Option.bind_eq_some_iff.mp hb
    cases e <;> cases hd
    exact mem_of_lookup he

theorem lookup_map {α β : Type} (f : α → β) (xs : List (String × α)) (key : String) :
    (xs.map fun (k, a) => (k, f a)).lookup key = (xs.lookup key).map f := by
  induction xs with
  | nil => rfl
  | cons x xs ih =>
    obtain ⟨k, a⟩ := x
    rw [List.map_cons, lookup_cons_eq, lookup_cons_eq, ih]
    split_ifs <;> rfl

/-- What sections with those of a table say of its keys. -/
theorem Layout.Fits.saidAt_eq (h : es.Fits) {ss : List Section}
    (hss : ∀ path, path.head? = some n → sectionsAt ss path = sectionsAt (es.sections n) path) :
    saidAt ss n k = (es.lookup k).map Entry.toDatum := by
  obtain ⟨-, hpairs, -⟩ := at_eq_of_sectionsAt ((hss [n] rfl).trans (sectionsAt_outer es))
  obtain ⟨hhead, hrow, hitems⟩ :=
    at_eq_of_sectionsAt ((hss [n, k] rfl).trans (sectionsAt_inner h.1))
  have hvalue : (pairsAt ss [n]).lookup k = (es.lookup k).bind Entry.value? := by
    rw [hpairs]
    simpa using lookup_pairs h.1
  rw [saidAt, hhead, hrow, hitems, hvalue]
  cases hl : es.lookup k with
  | none => simp
  | some e =>
    cases e with
    | value d => simp [Entry.sections, Entry.value?, Entry.toDatum]
    | table ps => simp [Entry.sections, Entry.toDatum]
    | items rows =>
      have hne : rows ≠ [] := (h.2 _ (mem_of_lookup hl)).1
      have hitem : (rows.map fun ps => (⟨true, [n, k], ps⟩ : Section)).filter (·.isItem) =
          rows.map fun ps => ⟨true, [n, k], ps⟩ := by simp
      simp [Entry.sections, Entry.toDatum, hne, hitem, Function.comp_def]

/-! ## Documents of layouts -/

variable {ts : List (String × Layout)}

theorem compatible_sections (hd : (ts.map (·.1)).Nodup) (hts : ∀ t ∈ ts, t.2.Fits) :
    (ts.flatMap fun t => t.2.sections t.1).Pairwise Section.Compatible := by
  refine List.pairwise_flatMap.mpr ⟨fun t ht => (hts t ht).compatible, ?_⟩
  refine (List.pairwise_map.mp hd).imp ?_
  rintro ⟨n, es⟩ ⟨n', es'⟩ hne s hs s' hs'
  refine Section.compatible_of_head ?_
  rw [Layout.head_sections hs, Layout.head_sections hs']
  simpa using hne

theorem mem_keys_iff_sections (n : String) : n ∈ ts.map (·.1) ↔
    ∃ s ∈ ts.flatMap fun t => t.2.sections t.1, s.path.head? = some n := by
  constructor
  · intro hn
    obtain ⟨⟨_, es⟩, ht, rfl⟩ := List.mem_map.mp hn
    exact ⟨⟨false, [_], es.pairs⟩, List.mem_flatMap.mpr ⟨_, ht, by simp [Layout.sections]⟩, rfl⟩
  · rintro ⟨s, hs, hp⟩
    obtain ⟨⟨m, es⟩, ht, hs⟩ := List.mem_flatMap.mp hs
    obtain rfl : m = n := Option.some.inj ((Layout.head_sections hs).symm.trans hp)
    exact List.mem_map_of_mem ht

theorem says_sections (hd : (ts.map (·.1)).Nodup) (hts : ∀ t ∈ ts, t.2.Fits) :
    Says (ts.flatMap fun t => t.2.sections t.1) (object (ts.map fun t => (t.1, t.2.toDatum))) := by
  refine ⟨_, rfl, by simpa [Function.comp_def] using hd, fun n => ?_, fun n t hm => ?_⟩
  · rw [List.map_map]
    exact mem_keys_iff_sections n
  · obtain ⟨⟨m, es⟩, ht, heq⟩ := List.mem_map.mp hm
    obtain ⟨rfl, rfl⟩ := Prod.mk.inj heq
    have hfit := hts _ ht
    refine ⟨_, rfl, by simpa [Function.comp_def] using hfit.1, fun k => ?_⟩
    rw [hfit.saidAt_eq, lookup_map]
    intro path hpath
    rw [sectionsAt_flatMap]
    refine flatMap_of_mem hd ht ?_
    rintro ⟨j, es'⟩ _ hne
    refine sectionsAt_eq_nil ?_
    rintro s hs rfl
    exact hne (Option.some.inj ((Layout.head_sections hs).symm.trans hpath))

/-- Every datum of tables has a document. -/
theorem Tabular.exists_document {d : Datum} (h : Tabular d) : ∃ text, Document d text := by
  obtain ⟨ts, rfl, hd, hts⟩ := h
  have hsection : ∀ s ∈ ts.flatMap fun t => t.2.sections t.1,
      s.Valid ∧ ∀ l ∈ s.lines, l.Writable := by
    intro s hs
    obtain ⟨t, ht, hs⟩ := List.mem_flatMap.mp hs
    exact (hts t ht).valid hs
  have hlines : ∀ l ∈ (ts.flatMap fun t => t.2.sections t.1).flatMap Section.lines,
      l.Writable := by
    intro l hl
    obtain ⟨s, hs, hl⟩ := List.mem_flatMap.mp hl
    exact (hsection s hs).2 l hl
  obtain ⟨text, htext⟩ := exists_document_text hlines
  exact ⟨text, _, ⟨fun s hs => (hsection s hs).1, compatible_sections hd hts,
    says_sections hd hts⟩, htext⟩

end WasmHost.Datum.Toml

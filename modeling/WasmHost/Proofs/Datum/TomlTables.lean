import WasmHost.Proofs.Datum.TomlDocument
import WasmHost.Proofs.Datum.Meaning

/-!
# The tables of a document

A document is written as sections, each a header and the pairs below it: of a table, of a table in a
table, or of one more table of an array in a table. Sections may stand in any order but for the
tables of one array. `Represents` says what the sections read so far have made of the document;
every section keeps it, so that in the end each table has what was written of it.
-/

namespace WasmHost.Datum.Toml

/-- A header and the pairs below it. -/
structure Section where
  /-- Whether the header is that of an array. -/
  isItem : Bool
  path : List String
  pairs : List (String × Datum)

namespace Section

/-- The lines of a section. -/
def lines (s : Section) : List Line :=
  (if s.isItem then .item s.path else .table s.path) :: s.pairs.map fun (k, d) => .pair k d

/-- Whether a section has the header of a table. -/
def heads (path : List String) (s : Section) : Bool := !s.isItem && s.path == path

/-- Whether a section has the header of an array. -/
def adds (path : List String) (s : Section) : Bool := s.isItem && s.path == path

/-- The section has a key once, and stands for a table, or for a table or an array in one. -/
structure Valid (s : Section) : Prop where
  distinct : (s.pairs.map (·.1)).Nodup
  path : (∃ n, s.isItem = false ∧ s.path = [n]) ∨ ∃ n k, s.path = [n, k]

/-- Two sections do not define one thing twice. -/
structure Compatible (s s' : Section) : Prop where
  path : s.isItem = false ∨ s'.isItem = false → s.path ≠ s'.path
  left : ∀ n k, s.path = [n] → s'.path = [n, k] → k ∉ s.pairs.map (·.1)
  right : ∀ n k, s'.path = [n] → s.path = [n, k] → k ∉ s'.pairs.map (·.1)

end Section

/-! ## What sections say -/

/-- Whether a table has a header of its own. -/
def headedAt (ss : List Section) (path : List String) : Bool := ss.any (·.heads path)

/-- The pairs below the header of a table. -/
def pairsAt (ss : List Section) (path : List String) : List (String × Datum) :=
  (ss.filter (·.heads path)).flatMap (·.pairs)

/-- The tables of an array. -/
def itemsAt (ss : List Section) (path : List String) : List (List (String × Datum)) :=
  (ss.filter (·.adds path)).map (·.pairs)

/-- How a table came to be, if it is there. -/
def originAt (ss : List Section) (n : String) : Option Origin :=
  if headedAt ss [n] then some .header
  else if ss.any (·.path.head? == some n) then some .implied
  else none

/-- What a table has under a key. -/
def nodeAt (ss : List Section) (n k : String) : Option Node :=
  if headedAt ss [n, k] then some (.table .header (valueEntries (pairsAt ss [n, k])))
  else if itemsAt ss [n, k] ≠ [] then some (.tables ((itemsAt ss [n, k]).map valueEntries))
  else ((pairsAt ss [n]).lookup k).map .value

/-- The table that a path enters: what is not there is implied. -/
def entered (root : Entries) (n : String) : Origin × Entries :=
  match lookup n root with
  | some (.table o inner) => (o, inner)
  | _ => (.implied, [])

/-- The tables found so far are those of the sections. -/
structure Represents (ss : List Section) (root : Entries) : Prop where
  distinct : (keys root).Nodup
  tables : ∀ n, lookup n root = (originAt ss n).map fun o => .table o (entered root n).2
  inner : ∀ n, (keys (entered root n).2).Nodup
  nodes : ∀ n k, lookup k (entered root n).2 = nodeAt ss n k

theorem represents_nil : Represents [] [] where
  distinct := by simp [keys]
  tables n := rfl
  inner n := by simp [entered, lookup, keys]
  nodes n k := rfl

/-! ## Entries that are put -/

theorem lookup_put (key k : String) (n : Node) (es : Entries) :
    lookup key (put k n es) = if k = key then some n else lookup key es := by
  induction es with
  | nil => simp [put, lookup_cons]
  | cons e es ih =>
    obtain ⟨k', m⟩ := e
    rw [put]
    split_ifs with h1 h2 h3
    · subst h1; subst h2; simp [lookup_cons]
    · subst h1; simp [lookup_cons, h2]
    · rw [lookup_cons, if_neg (h3 ▸ h1), ih, if_pos h3]
    · rw [lookup_cons, lookup_cons, ih, if_neg h3]

theorem mem_keys_put {key k : String} {n : Node} {es : Entries} :
    key ∈ keys (put k n es) ↔ key = k ∨ key ∈ keys es := by
  have h := lookup_put key k n es
  have hnot : key ∉ keys (put k n es) ↔ ¬(key = k ∨ key ∈ keys es) := by
    rw [← lookup_eq_none, h, not_or, ← lookup_eq_none]
    by_cases hk : k = key
    · simp [hk]
    · simp [hk, Ne.symm hk]
  exact not_iff_not.mp hnot

theorem nodup_put {k : String} {n : Node} {es : Entries} (h : (keys es).Nodup) :
    (keys (put k n es)).Nodup := by
  induction es with
  | nil => simp [put, keys]
  | cons e es ih =>
    obtain ⟨k', m⟩ := e
    rw [keys, List.map_cons, List.nodup_cons] at h
    rw [put]
    split_ifs with h1
    · subst h1
      rw [keys, List.map_cons, List.nodup_cons]
      exact h
    · rw [keys, List.map_cons, List.nodup_cons]
      refine ⟨?_, ih h.2⟩
      intro hin
      rcases mem_keys_put.mp hin with rfl | hin
      · exact h1 rfl
      · exact h.1 hin

theorem entered_put_self (root : Entries) (n : String) (o : Origin) (es : Entries) :
    entered (put n (.table o es) root) n = (o, es) := by
  simp [entered, lookup_put]

theorem entered_put_other {root : Entries} {n m : String} (h : m ≠ n) (x : Node) :
    entered (put n x root) m = entered root m := by
  simp [entered, lookup_put, Ne.symm h]

/-- The way into a table that is there or not yet there. -/
theorem modifyAt_cons {root : Entries} {n : String} {oo : Option Origin}
    (h : lookup n root = oo.map fun o => .table o (entered root n).2) (here : Origin)
    (path : List String) (f : Origin → Entries → Option Entries) :
    modifyAt .implied f (n :: path) here root =
      (modifyAt .implied f path (oo.getD .implied) (entered root n).2).map
        fun es => put n (.table (oo.getD .implied) es) root := by
  cases oo with
  | none =>
    have he : (entered root n).2 = [] := by
      rw [Option.map_none] at h
      simp [entered, h]
    rw [Option.map_none] at h
    simp only [modifyAt, h, he, Option.getD_none]
    cases modifyAt .implied f path .implied [] <;> rfl
  | some o =>
    rw [Option.map_some] at h
    simp only [modifyAt, h, Option.getD_some]
    cases modifyAt .implied f path o (entered root n).2 <;> simp

/-- A table is put that has what the sections say of it. -/
theorem Represents.putTable {ss ss' : List Section} {root : Entries} (h : Represents ss root)
    {n : String} {o : Origin} {inner : Entries} (ho : originAt ss' n = some o)
    (hother : ∀ m, m ≠ n → originAt ss' m = originAt ss m) (hinner : (keys inner).Nodup)
    (hnodes : ∀ k, lookup k inner = nodeAt ss' n k)
    (hsame : ∀ m j, m ≠ n → nodeAt ss' m j = nodeAt ss m j) :
    Represents ss' (put n (.table o inner) root) where
  distinct := nodup_put h.distinct
  tables m := by
    rw [lookup_put]
    by_cases hm : m = n
    · subst hm
      rw [if_pos rfl, ho, entered_put_self]
      rfl
    · rw [if_neg (Ne.symm hm), entered_put_other hm, hother m hm, h.tables]
  inner m := by
    by_cases hm : m = n
    · subst hm
      rwa [entered_put_self]
    · rw [entered_put_other hm]
      exact h.inner m
  nodes m j := by
    by_cases hm : m = n
    · subst hm
      rw [entered_put_self, hnodes]
    · rw [entered_put_other hm, h.nodes, hsame m j hm]

/-- A table is put with one of its keys set. -/
theorem Represents.putKey {ss ss' : List Section} {root : Entries} (h : Represents ss root)
    {n k : String} {o : Origin} {x : Node} (ho : originAt ss' n = some o)
    (hother : ∀ m, m ≠ n → originAt ss' m = originAt ss m)
    (hx : nodeAt ss' n k = some x)
    (hnodes : ∀ m j, (m, j) ≠ (n, k) → nodeAt ss' m j = nodeAt ss m j) :
    Represents ss' (put n (.table o (put k x (entered root n).2)) root) := by
  refine h.putTable ho hother (nodup_put (h.inner n)) ?_ fun m j hm => hnodes m j (by simp [hm])
  intro j
  rw [lookup_put]
  by_cases hj : k = j
  · subst hj
    rw [if_pos rfl, hx]
  · rw [if_neg hj, h.nodes, hnodes n j (by simp [Ne.symm hj])]

/-! ## One more section -/

variable {ss : List Section}

theorem headedAt_append (s : Section) (path : List String) :
    headedAt (ss ++ [s]) path = (headedAt ss path || s.heads path) := by
  simp [headedAt]

theorem pairsAt_append (s : Section) (path : List String) :
    pairsAt (ss ++ [s]) path = pairsAt ss path ++ if s.heads path then s.pairs else [] := by
  rw [pairsAt, List.filter_append, List.flatMap_append, ← pairsAt]
  by_cases h : s.heads path <;> simp [h]

theorem itemsAt_append (s : Section) (path : List String) :
    itemsAt (ss ++ [s]) path = itemsAt ss path ++ if s.adds path then [s.pairs] else [] := by
  rw [itemsAt, List.filter_append, List.map_append, ← itemsAt]
  by_cases h : s.adds path <;> simp [h]

theorem originAt_append (s : Section) (n : String) :
    originAt (ss ++ [s]) n = if headedAt ss [n] || s.heads [n] then some .header
      else if ss.any (·.path.head? == some n) || s.path.head? == some n then some .implied
      else none := by
  rw [originAt, headedAt_append, List.any_append, List.any_cons, List.any_nil, Bool.or_false]

theorem originAt_append_other {s : Section} {m : String} (h : s.path.head? ≠ some m) :
    originAt (ss ++ [s]) m = originAt ss m := by
  have hh : s.heads [m] = false := by
    cases hs : s.heads [m] with
    | false => rfl
    | true =>
      simp only [Section.heads, Bool.and_eq_true, beq_iff_eq] at hs
      exact absurd (by rw [hs.2]; rfl) h
  rw [originAt_append, hh, Bool.or_false]
  have hb : (s.path.head? == some m) = false := by simpa using h
  rw [hb, Bool.or_false]
  rfl

theorem heads_of_path {b : Bool} {p path : List String} {ms : List (String × Datum)}
    (h : p ≠ path) :
    (Section.mk b p ms).heads path = false ∧ (Section.mk b p ms).adds path = false := by
  simp [Section.heads, Section.adds, h]

/-- What a section says of tables that it is not about stays as it was. -/
theorem nodeAt_append_other {b : Bool} {p : List String} {ms : List (String × Datum)} {m j : String}
    (h : p ≠ [m, j]) (hj : p ≠ [m] ∨ b = true ∨ ms = []) :
    nodeAt (ss ++ [⟨b, p, ms⟩]) m j = nodeAt ss m j := by
  obtain ⟨hh, ha⟩ :
      (Section.mk b p ms).heads [m, j] = false ∧ (Section.mk b p ms).adds [m, j] = false :=
    heads_of_path h
  have hp : (if (Section.mk b p ms).heads [m] then ms else []) = [] := by
    rcases hj with hp | rfl | rfl
    · rw [(heads_of_path hp).1]; rfl
    · rfl
    · simp
  simp only [nodeAt, headedAt_append, pairsAt_append, itemsAt_append, hh, ha, hp, Bool.or_false,
    Bool.false_eq_true, if_false, List.append_nil]

/-! ## Room for a section -/

/-- A section may follow others. -/
structure Fresh (ss : List Section) (s : Section) : Prop where
  valid : s.Valid
  compatible : ∀ s' ∈ ss, Section.Compatible s' s

theorem headedAt_eq_false {path : List String} :
    headedAt ss path = false ↔ ∀ s ∈ ss, s.isItem = false → s.path ≠ path := by
  simp [headedAt, Section.heads]

theorem itemsAt_eq_nil {path : List String} :
    itemsAt ss path = [] ↔ ∀ s ∈ ss, s.isItem = true → s.path ≠ path := by
  simp [itemsAt, Section.adds]

theorem pairsAt_of_not_headed {path : List String} (h : headedAt ss path = false) :
    pairsAt ss path = [] := by
  have hnone : ss.filter (·.heads path) = [] := by
    rw [List.filter_eq_nil_iff]
    intro s hs hh
    rw [headedAt, List.any_eq_false] at h
    exact h s hs hh
  rw [pairsAt, hnone]
  rfl

theorem mem_pairsAt {path : List String} {e : String × Datum} :
    e ∈ pairsAt ss path ↔ ∃ s ∈ ss, s.isItem = false ∧ s.path = path ∧ e ∈ s.pairs := by
  simp [pairsAt, Section.heads, and_assoc]

namespace Fresh

variable {b : Bool} {p : List String} {n k : String} {ms ms' : List (String × Datum)}

theorem init (h : Fresh ss ⟨b, p, ms ++ ms'⟩) : Fresh ss ⟨b, p, ms⟩ where
  valid := by
    refine ⟨?_, h.valid.path⟩
    have hd := h.valid.distinct
    rw [List.map_append] at hd
    exact (List.nodup_append.mp hd).1
  compatible s' hs' := by
    obtain ⟨hp, hl, hr⟩ := h.compatible s' hs'
    refine ⟨hp, hl, ?_⟩
    intro n k hn hk hin
    refine hr n k hn hk ?_
    rw [List.map_append]
    exact List.mem_append_left _ hin

theorem new_key {j : String} {d : Datum} (h : Fresh ss ⟨b, p, ms ++ [(j, d)]⟩) :
    j ∉ ms.map (·.1) := by
  have hd := h.valid.distinct
  rw [List.map_append, List.nodup_append] at hd
  exact fun hin => hd.2.2 j hin j (by simp) rfl

theorem not_headed (h : Fresh ss ⟨b, p, ms⟩) : headedAt ss p = false := by
  rw [headedAt_eq_false]
  intro s hs hb
  exact (h.compatible s hs).path (.inl hb)

theorem no_items (h : Fresh ss ⟨false, p, ms⟩) : itemsAt ss p = [] := by
  rw [itemsAt_eq_nil]
  intro s hs _
  exact (h.compatible s hs).path (.inr rfl)

theorem no_pair (h : Fresh ss ⟨b, [n, k], ms⟩) : (pairsAt ss [n]).lookup k = none := by
  refine lookup_of_absent ?_
  intro hin
  obtain ⟨e, he, rfl⟩ := List.mem_map.mp hin
  obtain ⟨s, hs, -, hp, he⟩ := mem_pairsAt.mp he
  exact (h.compatible s hs).left n e.1 hp rfl (List.mem_map_of_mem he)

theorem nothing_below (h : Fresh ss ⟨false, [n], ms⟩) (hk : k ∈ ms.map (·.1)) :
    headedAt ss [n, k] = false ∧ itemsAt ss [n, k] = [] := by
  have hne : ∀ s ∈ ss, s.path ≠ [n, k] := fun s hs hp => (h.compatible s hs).right n k rfl hp hk
  exact ⟨headedAt_eq_false.mpr fun s hs _ => hne s hs, itemsAt_eq_nil.mpr fun s hs _ => hne s hs⟩

end Fresh

/-! ## Headers -/

theorem originAt_append_self {s : Section} {n : String} (h : s.path.head? = some n)
    (hs : s.heads [n] = false) :
    originAt (ss ++ [s]) n = some ((originAt ss n).getD .implied) := by
  rw [originAt_append, hs, Bool.or_false, originAt, h]
  by_cases hh : headedAt ss [n] = true
  · simp [hh]
  · by_cases ha : (ss.any (·.path.head? == some n)) = true <;> simp [hh, ha]

theorem openTable_outer {root : Entries} (h : Represents ss root) {n : String}
    (hn : headedAt ss [n] = false) :
    openTable [n] root = some (put n (.table .header (entered root n).2) root) ∧
      Represents (ss ++ [⟨false, [n], []⟩]) (put n (.table .header (entered root n).2) root) := by
  constructor
  · have hl := h.tables n
    have ho : originAt ss n = none ∨ originAt ss n = some .implied := by
      rw [originAt, hn]
      by_cases ha : (ss.any (·.path.head? == some n)) = true <;> simp [ha]
    rcases ho with ho | ho
    · rw [ho, Option.map_none] at hl
      have he : (entered root n).2 = [] := by simp [entered, hl]
      simp [openTable, modifyAt, hl, he]
    · rw [ho, Option.map_some] at hl
      simp [openTable, modifyAt, hl]
  · refine h.putTable ?_ ?_ (h.inner n) ?_ ?_
    · simp [originAt_append, Section.heads]
    · intro m hm
      exact originAt_append_other (by simpa using Ne.symm hm)
    · intro k
      rw [h.nodes, nodeAt_append_other (by simp) (by simp)]
    · intro m j hm
      exact nodeAt_append_other (by simp) (by simp)

theorem openTable_inner {root : Entries} (h : Represents ss root) {n k : String}
    (hf : Fresh ss ⟨false, [n, k], []⟩) :
    ∃ root', openTable [n, k] root = some root' ∧
      Represents (ss ++ [⟨false, [n, k], []⟩]) root' := by
  have hnone : nodeAt ss n k = none := by
    simp [nodeAt, hf.not_headed, hf.no_items, hf.no_pair]
  refine ⟨put n (.table ((originAt ss n).getD .implied)
    (put k (.table .header []) (entered root n).2)) root, ?_, ?_⟩
  · refine (modifyAt_cons (h.tables n) .header [] _).trans ?_
    simp only [modifyAt, List.getLast_cons_cons, List.getLast_singleton, h.nodes, hnone]
    rfl
  · refine h.putKey (originAt_append_self rfl (by simp [Section.heads])) ?_ ?_ ?_
    · intro m hm
      exact originAt_append_other (by simpa using Ne.symm hm)
    · simp [nodeAt, headedAt_append, pairsAt_append, Section.heads,
        pairsAt_of_not_headed hf.not_headed, valueEntries]
    · intro m j hne
      refine nodeAt_append_other ?_ (by simp)
      rintro heq
      cases heq
      exact hne rfl

theorem openArrayTable_inner {root : Entries} (h : Represents ss root) {n k : String}
    (hf : Fresh ss ⟨true, [n, k], []⟩) :
    ∃ root', openArrayTable [n, k] root = some root' ∧
      Represents (ss ++ [⟨true, [n, k], []⟩]) root' := by
  refine ⟨put n (.table ((originAt ss n).getD .implied)
    (put k (.tables ((itemsAt ss [n, k]).map valueEntries ++ [[]])) (entered root n).2)) root,
    ?_, ?_⟩
  · refine (modifyAt_cons (h.tables n) .header [] _).trans ?_
    by_cases hi : itemsAt ss [n, k] = []
    · have hnone : nodeAt ss n k = none := by
        simp [nodeAt, hf.not_headed, hi, hf.no_pair]
      simp only [modifyAt, List.getLast_cons_cons, List.getLast_singleton, h.nodes, hnone, hi]
      rfl
    · have hsome : nodeAt ss n k = some (.tables ((itemsAt ss [n, k]).map valueEntries)) := by
        simp [nodeAt, hf.not_headed, hi]
      simp only [modifyAt, List.getLast_cons_cons, List.getLast_singleton, h.nodes, hsome]
      rfl
  · refine h.putKey (originAt_append_self rfl (by simp [Section.heads])) ?_ ?_ ?_
    · intro m hm
      exact originAt_append_other (by simpa using Ne.symm hm)
    · simp [nodeAt, headedAt_append, itemsAt_append, Section.heads, Section.adds, hf.not_headed,
        valueEntries]
    · intro m j hne
      refine nodeAt_append_other ?_ (by simp)
      rintro heq
      cases heq
      exact hne rfl

/-! ## Pairs -/

theorem define_of_absent {key : String} {es : Entries} (h : lookup key es = none) (d : Datum)
    {o : Origin} (ho : o ≠ .dotted) : define false key d o es = some (put key (.value d) es) := by
  simp [define, ho, h]

theorem addValue_outer {root : Entries} {n j : String} {d : Datum} {ms : List (String × Datum)}
    (h : Represents (ss ++ [⟨false, [n], ms⟩]) root) (hf : Fresh ss ⟨false, [n], ms ++ [(j, d)]⟩) :
    ∃ root', addValue [n] [j] d root = some root' ∧
      Represents (ss ++ [⟨false, [n], ms ++ [(j, d)]⟩]) root' := by
  obtain ⟨hhead, hitems⟩ := hf.nothing_below (k := j) (by simp)
  have hlookup : ms.lookup j = none := lookup_of_absent hf.new_key
  have hpairs : pairsAt ss [n] = [] := pairsAt_of_not_headed hf.not_headed
  have hnone : nodeAt (ss ++ [⟨false, [n], ms⟩]) n j = none := by
    simp [nodeAt, headedAt_append, itemsAt_append, pairsAt_append, Section.heads, Section.adds,
      hhead, hitems, hpairs, hlookup]
  have ho : ∀ ms, originAt (ss ++ [⟨false, [n], ms⟩]) n = some .header := by
    simp [originAt_append, Section.heads]
  refine ⟨put n (.table .header (put j (.value d) (entered root n).2)) root, ?_, ?_⟩
  · have hstep := modifyAt_cons (h.tables n) .header []
      (f := fun o es => modifyAt .dotted (define false j d) [] o es)
    rw [ho] at hstep
    simp only [modifyAt, Option.getD_some,
      define_of_absent ((h.nodes n j).trans hnone) d (o := .header) (by simp)] at hstep
    exact hstep
  · refine h.putKey (ho _) ?_ ?_ ?_
    · intro m hm
      rw [originAt_append_other (by simpa using Ne.symm hm),
        originAt_append_other (by simpa using Ne.symm hm)]
    · simp [nodeAt, headedAt_append, itemsAt_append, pairsAt_append, Section.heads, Section.adds,
        hhead, hitems, hpairs, List.lookup_append, hlookup]
    · intro m i hne
      by_cases hm : m = n
      · subst hm
        have hi : (i == j) = false := by
          simpa using fun heq => hne (by rw [heq])
        simp [nodeAt, headedAt_append, itemsAt_append, pairsAt_append, Section.heads, Section.adds,
          List.lookup_append, List.lookup_cons, hi]
      · rw [nodeAt_append_other (by simp) (.inl (by simpa using Ne.symm hm)),
          nodeAt_append_other (by simp) (.inl (by simpa using Ne.symm hm))]

/-- A pair goes into what a table has under a key. -/
theorem Represents.addBelow {root : Entries} {b : Bool} {n k j : String} {d : Datum} {y : Node}
    {ms : List (String × Datum)} (h : Represents (ss ++ [⟨b, [n, k], ms⟩]) root)
    (hy : nodeAt (ss ++ [⟨b, [n, k], ms ++ [(j, d)]⟩]) n k = some y)
    (hmod : ∀ o, modifyAt .implied (fun o es => modifyAt .dotted (define false j d) [] o es) [k] o
      (entered root n).2 = some (put k y (entered root n).2)) :
    ∃ root', addValue [n, k] [j] d root = some root' ∧
      Represents (ss ++ [⟨b, [n, k], ms ++ [(j, d)]⟩]) root' := by
  have hself : ∀ ms, originAt (ss ++ [⟨b, [n, k], ms⟩]) n = some ((originAt ss n).getD .implied) :=
    fun ms => originAt_append_self rfl (by simp [Section.heads])
  refine ⟨put n (.table ((originAt ss n).getD .implied) (put k y (entered root n).2)) root, ?_, ?_⟩
  · have hinto := modifyAt_cons (h.tables n) .header [k]
      (f := fun o es => modifyAt .dotted (define false j d) [] o es)
    rw [hself, Option.getD_some, hmod] at hinto
    exact hinto
  · refine h.putKey (hself _) ?_ hy ?_
    · intro m hm
      rw [originAt_append_other (by simpa using Ne.symm hm),
        originAt_append_other (by simpa using Ne.symm hm)]
    · intro m i hne
      have hpath : [n, k] ≠ [m, i] := by
        intro heq
        cases heq
        exact hne rfl
      rw [nodeAt_append_other hpath (by simp), nodeAt_append_other hpath (by simp)]

theorem addValue_inner {root : Entries} {b : Bool} {n k j : String} {d : Datum}
    {ms : List (String × Datum)} (h : Represents (ss ++ [⟨b, [n, k], ms⟩]) root)
    (hf : Fresh ss ⟨b, [n, k], ms ++ [(j, d)]⟩) :
    ∃ root', addValue [n, k] [j] d root = some root' ∧
      Represents (ss ++ [⟨b, [n, k], ms ++ [(j, d)]⟩]) root' := by
  have hnew : j ∉ keys (valueEntries ms) := by
    simpa [keys, valueEntries] using hf.new_key
  have hvalues : define false j d .header (valueEntries ms) =
      some (valueEntries (ms ++ [(j, d)])) := by
    rw [define_new hnew d (by simp), valueEntries, valueEntries, List.map_append]
    rfl
  have hhead : headedAt ss [n, k] = false := hf.not_headed
  cases b with
  | false =>
    have hat : ∀ ms, nodeAt (ss ++ [⟨false, [n, k], ms⟩]) n k =
        some (.table .header (valueEntries ms)) := by
      intro ms
      simp [nodeAt, headedAt_append, pairsAt_append, Section.heads, pairsAt_of_not_headed hhead]
    refine h.addBelow (hat _) ?_
    intro o
    simp [modifyAt, h.nodes, hat, hvalues]
  | true =>
    have hat : ∀ ms, nodeAt (ss ++ [⟨true, [n, k], ms⟩]) n k =
        some (.tables ((itemsAt ss [n, k]).map valueEntries ++ [valueEntries ms])) := by
      intro ms
      simp [nodeAt, headedAt_append, itemsAt_append, Section.heads, Section.adds, hhead]
    refine h.addBelow (hat _) ?_
    intro o
    simp [modifyAt, h.nodes, hat, hvalues]

/-! ## Sections -/

/-- The header of a section that may follow is read. -/
theorem perform_header {root : Entries} {s : Section} (h : Represents ss root) (hf : Fresh ss s)
    (header : List String) (ls : List Line) :
    ∃ root', performAll (s.lines ++ ls) header root =
        performAll ((s.pairs.map fun (k, d) => .pair k d) ++ ls) s.path root' ∧
      Represents (ss ++ [⟨s.isItem, s.path, []⟩]) root' := by
  obtain ⟨b, p, ms⟩ := s
  have hf' : Fresh ss ⟨b, p, []⟩ := by
    rw [← List.nil_append ms] at hf
    exact hf.init
  rcases hf.valid.path with ⟨n, hb, hp⟩ | ⟨n, k, hp⟩
  · dsimp only at hb hp
    subst hb hp
    obtain ⟨hopen, hrep⟩ := openTable_outer h hf.not_headed
    refine ⟨_, ?_, hrep⟩
    simp [Section.lines, performAll, hopen]
  · dsimp only at hp
    subst hp
    cases b with
    | false =>
      obtain ⟨root', hopen, hrep⟩ := openTable_inner h hf'
      exact ⟨root', by simp [Section.lines, performAll, hopen], hrep⟩
    | true =>
      obtain ⟨root', hopen, hrep⟩ := openArrayTable_inner h hf'
      exact ⟨root', by simp [Section.lines, performAll, hopen], hrep⟩

/-- The pairs below a header are read one after the other. -/
theorem perform_pairs {root : Entries} {b : Bool} {p : List String}
    {done todo : List (String × Datum)} (h : Represents (ss ++ [⟨b, p, done⟩]) root)
    (hf : Fresh ss ⟨b, p, done ++ todo⟩) (ls : List Line) :
    ∃ root', performAll ((todo.map fun (k, d) => .pair k d) ++ ls) p root = performAll ls p root' ∧
      Represents (ss ++ [⟨b, p, done ++ todo⟩]) root' := by
  induction todo generalizing done root with
  | nil => exact ⟨root, rfl, by simpa using h⟩
  | cons e todo ih =>
    obtain ⟨j, d⟩ := e
    rw [List.append_cons done] at hf ⊢
    obtain ⟨root₁, hadd, hrep⟩ : ∃ root₁, addValue p [j] d root = some root₁ ∧
        Represents (ss ++ [⟨b, p, done ++ [(j, d)]⟩]) root₁ := by
      rcases hf.valid.path with ⟨n, hb, hp⟩ | ⟨n, k, hp⟩
      · dsimp only at hb hp
        subst hb hp
        exact addValue_outer h hf.init
      · dsimp only at hp
        subst hp
        exact addValue_inner h hf.init
    obtain ⟨root', hperf, hrep'⟩ := ih hrep hf
    refine ⟨root', ?_, hrep'⟩
    simpa [performAll, hadd] using hperf

/-- Sections that may stand together are all read, and the tables are what they say. -/
theorem perform_sections {root : Entries} {todo : List Section} (h : Represents ss root)
    (hv : ∀ s ∈ todo, s.Valid) (hc : (ss ++ todo).Pairwise Section.Compatible)
    (header : List String) :
    ∃ root', performAll (todo.flatMap Section.lines) header root = some root' ∧
      Represents (ss ++ todo) root' := by
  -- `ss` are the sections that were read, and `Represents` what the tables have of them
  induction todo generalizing ss root header with
  | nil => exact ⟨root, rfl, by simpa using h⟩
  | cons s todo ih =>
    rw [List.forall_mem_cons] at hv
    have hf : Fresh ss s :=
      ⟨hv.1, fun s' hs' => (List.pairwise_append.mp hc).2.2 s' hs' s (by simp)⟩
    obtain ⟨root₁, hperf₁, hrep₁⟩ := perform_header h hf header (todo.flatMap Section.lines)
    obtain ⟨root₂, hperf₂, hrep₂⟩ :=
      perform_pairs hrep₁ (by simpa using hf) (todo.flatMap Section.lines)
    rw [List.append_cons] at hc ⊢
    obtain ⟨root', hperf, hrep⟩ := ih hrep₂ hv.2 hc s.path
    refine ⟨root', ?_, hrep⟩
    rw [List.flatMap_cons, hperf₁, hperf₂, hperf]

/-! ## The datum of sections -/

/-- What sections say of a key of a table. -/
def saidAt (ss : List Section) (n k : String) : Option Datum :=
  if headedAt ss [n, k] then some (object (pairsAt ss [n, k]))
  else if itemsAt ss [n, k] ≠ [] then some (seq ((itemsAt ss [n, k]).map object))
  else (pairsAt ss [n]).lookup k

/-- Sections say a datum: an object of the tables that they are about, each with what they say of
it. The order of members does not matter. -/
def Says (ss : List Section) (d : Datum) : Prop :=
  ∃ ms, d = object ms ∧ (ms.map (·.1)).Nodup ∧
    (∀ n, n ∈ ms.map (·.1) ↔ ∃ s ∈ ss, s.path.head? = some n) ∧
    ∀ n t, (n, t) ∈ ms → ∃ es, t = object es ∧ (es.map (·.1)).Nodup ∧
      ∀ k, es.lookup k = saidAt ss n k

theorem itemsToDatum_values (items : List (List (String × Datum))) :
    itemsToDatum (items.map valueEntries) = items.map object := by
  induction items with
  | nil => rfl
  | cons ms items ih =>
    rw [List.map_cons, itemsToDatum, ih, entriesToDatum_values]
    rfl

theorem nodeAt_toDatum (ss : List Section) (n k : String) :
    (nodeAt ss n k).map Node.toDatum = saidAt ss n k := by
  rw [nodeAt, saidAt]
  split_ifs
  · simp [Node.toDatum, entriesToDatum_values, object]
  · simp [Node.toDatum, itemsToDatum_values]
  · cases (pairsAt ss [n]).lookup k <;> simp [Node.toDatum]

/-- The entries of a table, each as a datum. -/
def members (es : Entries) : List (String × Datum) := es.map fun (k, n) => (k, n.toDatum)

theorem map_entriesToDatum (es : Entries) : map (entriesToDatum es) = object (members es) := by
  have h : entriesToDatum es = (members es).map fun (k, d) => (string k, d) := by
    induction es with
    | nil => rfl
    | cons e es ih =>
      obtain ⟨k, n⟩ := e
      rw [entriesToDatum, ih]
      rfl
  rw [h]
  rfl

theorem members_keys (es : Entries) : (members es).map (·.1) = keys es := by
  rw [members, List.map_map]
  rfl

theorem lookup_members (es : Entries) (k : String) :
    (members es).lookup k = (lookup k es).map Node.toDatum := by
  induction es with
  | nil => rfl
  | cons e es ih =>
    obtain ⟨k', n⟩ := e
    rw [lookup_cons]
    simp only [members, List.map_cons]
    rw [lookup_cons_eq]
    by_cases h : k = k'
    · subst h; simp
    · rw [if_neg h, if_neg (Ne.symm h)]
      exact ih

theorem originAt_isSome {n : String} :
    (originAt ss n).isSome ↔ ∃ s ∈ ss, s.path.head? = some n := by
  rw [originAt]
  split_ifs with hh ha
  · simp only [Option.isSome_some, true_iff]
    obtain ⟨s, hs, hp⟩ := List.any_eq_true.mp hh
    simp only [Section.heads, Bool.and_eq_true, beq_iff_eq] at hp
    exact ⟨s, hs, by rw [hp.2]; rfl⟩
  · simpa using ha
  · simpa using ha

/-- Tables that are what sections say have the datum that they say. -/
theorem Represents.content {root : Entries} (h : Represents ss root) :
    Says ss (map (entriesToDatum root)) := by
  refine ⟨_, map_entriesToDatum root, by rw [members_keys]; exact h.distinct, ?_, ?_⟩
  · intro n
    have hl := h.tables n
    rw [members_keys, ← not_iff_not, ← lookup_eq_none, ← originAt_isSome, hl]
    simp
  · intro n t hm
    have ht : (members root).lookup n = some t :=
      (lookup_eq_some_iff (by rw [members_keys]; exact h.distinct)).mpr hm
    rw [lookup_members, h.tables, Option.map_map, Option.map_eq_some_iff] at ht
    obtain ⟨o, -, rfl⟩ := ht
    refine ⟨members (entered root n).2, ?_, ?_, ?_⟩
    · rw [← map_entriesToDatum]
      rfl
    · rw [members_keys]
      exact h.inner n
    · intro k
      rw [lookup_members, h.nodes, nodeAt_toDatum]

/-- How a document is laid out: as sections that may stand together and say a datum. -/
structure Arranges (ss : List Section) (d : Datum) : Prop where
  valid : ∀ s ∈ ss, s.Valid
  compatible : ss.Pairwise Section.Compatible
  content : Says ss d

/-- A text is a document of a datum. -/
def Document (d : Datum) (text : String) : Prop :=
  ∃ ss, Arranges ss d ∧ SpellsDocument (ss.flatMap Section.lines) text.toList

theorem Says.isWhole {d : Datum} (h : Says ss d)
    (hw : ∀ s ∈ ss, ∀ e ∈ s.pairs, e.2.isWhole = true) : d.isWhole = true := by
  have hpairs : ∀ path, ∀ e ∈ pairsAt ss path, e.2.isWhole = true := by
    intro path e he
    obtain ⟨s, hs, -, -, he⟩ := mem_pairsAt.mp he
    exact hw s hs e he
  have hsaid : ∀ n k v, saidAt ss n k = some v → v.isWhole = true := by
    intro n k v hv
    rw [saidAt] at hv
    split_ifs at hv
    · cases hv
      exact (isWhole_object _).mpr (hpairs _)
    · cases hv
      rw [Datum.isWhole, itemsWhole_iff]
      intro d hd
      obtain ⟨es, hes, rfl⟩ := List.mem_map.mp hd
      obtain ⟨s, hs, rfl⟩ := List.mem_map.mp hes
      exact (isWhole_object _).mpr (hw s (List.mem_filter.mp hs).1)
    · exact hpairs [n] _ (mem_of_lookup hv)
  obtain ⟨ms, rfl, -, -, htables⟩ := h
  refine (isWhole_object ms).mpr ?_
  rintro ⟨n, t⟩ hm
  obtain ⟨es, rfl, hd, hl⟩ := htables n t hm
  refine (isWhole_object es).mpr ?_
  rintro ⟨k, v⟩ he
  exact hsaid n k v (by rw [← hl, (lookup_eq_some_iff hd).mpr he])

/-- A document is read as what its sections say. -/
theorem read_document {d : Datum} {text : String} (h : Document d text) :
    ∃ ss d', Says ss d ∧ Says ss d' ∧ d'.isWhole = true ∧ read text = some d' := by
  obtain ⟨ss, hss, htext⟩ := h
  obtain ⟨root, hperf, hrep⟩ :=
    perform_sections represents_nil hss.valid (by simpa using hss.compatible) []
  rw [List.nil_append] at hrep
  refine ⟨ss, _, hss.content, hrep.content, hrep.content.isWhole ?_, ?_⟩
  · rintro s hs ⟨k, d⟩ he
    refine htext.isWhole (k := k) (List.mem_flatMap.mpr ⟨s, hs, ?_⟩)
    exact List.mem_cons_of_mem _ (List.mem_map_of_mem he)
  · rw [read_of_spells htext, hperf]
    rfl

end WasmHost.Datum.Toml

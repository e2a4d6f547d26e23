import WasmHost.Datum.Decode
import Mathlib.Data.List.Forall2
import Mathlib.Data.String.Basic

/-!
# What data mean

A decoder runs; what it should accept is said here as relations between data and values, one for
each kind of value. `Decodes decode M` says that a decoder gives exactly the values that a datum
means by `M`, for every datum that a text can have.
-/

namespace WasmHost.Datum

/-- How far data may go from the plain form. -/
structure Leeway where
  /-- The data that stand for no content beside the name of a choice. -/
  Unit : Datum → Prop
  /-- Whether a list may have more items than the record that it stands for has members. -/
  Surplus : Prop

/-- The leeway of a dialect. -/
def Dialect.leeway (dialect : Dialect) : Leeway where
  Unit d := if dialect.emptyForUnit then d = .map [] ∨ d = .seq [] else d = .null
  Surplus := dialect.extraItems = true

/-! ## Scalars, lists, maps and choices -/

/-- A datum with named members. -/
def IsObject (d : Datum) (ms : List (String × Datum)) : Prop :=
  d.entries? = some (ms.map fun (k, v) => (.string k, v))

def MeansBool (d : Datum) (b : Bool) : Prop := d = .bool b

def MeansText (d : Datum) (s : String) : Prop := d = .string s

/-- A whole number below a bound. -/
def MeansNat (bound : Nat) (d : Datum) (n : Nat) : Prop := d = .int n ∧ n < bound

/-- A value that may be missing: null and nothing else is none. -/
def MeansOption {α : Type} (M : Datum → α → Prop) (d : Datum) : Option α → Prop
  | none => d = .null
  | some a => d ≠ .null ∧ M d a

def MeansList {α : Type} (M : Datum → α → Prop) (d : Datum) (as : List α) : Prop :=
  ∃ ds, d = .seq ds ∧ List.Forall₂ M ds as

/-- A map in strictly rising order of its keys. -/
def Sorted {α : Type} (es : List (String × α)) : Prop := es.Pairwise (·.1 < ·.1)

/-- A map in rising order of the keys. Every value must mean something, and the last of each key
counts. -/
def MeansSortedMap {α : Type} (M : Datum → α → Prop) (d : Datum) (es : List (String × α)) : Prop :=
  ∃ ms vs, d.IsObject ms ∧ List.Forall₂ (fun m v => m.1 = v.1 ∧ M m.2 v.2) ms vs ∧
    Sorted es ∧ ∀ key, es.lookup key = vs.reverse.lookup key

/-- Whether a datum is a name alone or a map from it to no content. -/
def IsName (d : Datum) (l : Leeway) (name : String) : Prop :=
  d = .string name ∨ ∃ u, l.Unit u ∧ d = .map [(.string name, u)]

/-- One of several names. -/
def MeansChoice {α : Type} (l : Leeway) (choices : List (String × α)) (d : Datum) (a : α) : Prop :=
  ∃ name, choices.lookup name = some a ∧ d.IsName l name

/-- A decoder gives exactly what data mean. -/
def Decodes {α : Type} (decode : Datum → Decoded α) (M : Datum → α → Prop) : Prop :=
  ∀ d a, d.isWhole = true → (decode d = .ok a ↔ M d a)

theorem decodes_toBool : Decodes toBool MeansBool := by
  intro d b _
  cases d <;> simp [toBool, mismatch, complain, MeansBool]

theorem decodes_toText : Decodes toText MeansText := by
  intro d s _
  cases d <;> simp [toText, mismatch, complain, MeansText]

theorem decodes_toNat (name : String) {greatest bound : Nat} (h : bound = greatest + 1) :
    Decodes (toNat name greatest) (MeansNat bound) := by
  intro d n _
  cases d with
  | int i =>
    simp only [toNat, MeansNat, int.injEq]
    split
    · simp only [Except.ok.injEq]; omega
    · simp [complain]; omega
  | _ => simp [toNat, mismatch, complain, MeansNat]

theorem decodes_toOption {α : Type} {decode : Datum → Decoded α} {M : Datum → α → Prop}
    (h : Decodes decode M) : Decodes (toOption decode) (MeansOption M) := by
  intro d o hw
  by_cases hd : d = .null
  · subst hd
    cases o <;> simp [toOption, MeansOption]
  · have heq : toOption decode d = (decode d).map some := by
      cases d <;> simp_all [toOption]
    cases hdec : decode d with
    | error e =>
      cases o with
      | none => simp [heq, hdec, MeansOption, hd, Except.map]
      | some a =>
        have := (h d a hw).not
        simp_all [MeansOption, Except.map]
    | ok b =>
      cases o with
      | none => simp [heq, hdec, MeansOption, hd, Except.map]
      | some a => simp [heq, MeansOption, hd, ← h d a hw, hdec, Except.map]

theorem itemsWhole_iff (ds : List Datum) : itemsWhole ds = true ↔ ∀ d ∈ ds, d.isWhole = true := by
  induction ds with
  | nil => simp [itemsWhole]
  | cons d ds ih => simp [itemsWhole, ih]

theorem entriesWhole_iff (es : List (Datum × Datum)) :
    entriesWhole es = true ↔ ∀ e ∈ es, e.1.isWhole = true ∧ e.2.isWhole = true := by
  induction es with
  | nil => simp [entriesWhole]
  | cons e es ih => simp [entriesWhole, ih, and_assoc]

theorem bind_eq_ok {α β : Type} {x : Decoded α} {f : α → Decoded β} {b : β} :
    x >>= f = .ok b ↔ ∃ a, x = .ok a ∧ f a = .ok b := by
  cases x with
  | error e => simp [bind, Except.bind]
  | ok a => simp [bind, Except.bind]

theorem mapM_eq_ok {α : Type} {decode : Datum → Decoded α} {M : Datum → α → Prop}
    (h : Decodes decode M) {ds : List Datum} (hw : ∀ d ∈ ds, d.isWhole = true) (as : List α) :
    ds.mapM decode = .ok as ↔ List.Forall₂ M ds as := by
  induction ds generalizing as with
  | nil =>
    cases as <;> simp [pure, Except.pure]
  | cons d ds ih =>
    rw [List.forall_mem_cons] at hw
    simp only [List.mapM_cons, bind_eq_ok, ih hw.2, h d _ hw.1]
    constructor
    · rintro ⟨a, ha, as', has, heq⟩
      obtain rfl : a :: as' = as := Except.ok.inj heq
      exact .cons ha has
    · rintro (_ | ⟨ha, has⟩)
      exact ⟨_, ha, _, has, rfl⟩

theorem decodes_toList {α : Type} {decode : Datum → Decoded α} {M : Datum → α → Prop}
    (h : Decodes decode M) : Decodes (toList decode) (MeansList M) := by
  intro d as hw
  cases d with
  | seq ds =>
    rw [isWhole, itemsWhole_iff] at hw
    simp [toList, MeansList, mapM_eq_ok h hw]
  | _ => simp [toList, MeansList, mismatch, complain]

/-! ## Sorted maps -/

section SortedMap

variable {α : Type}

theorem lookup_cons_eq (key k : String) (a : α) (es : List (String × α)) :
    ((k, a) :: es).lookup key = if key = k then some a else es.lookup key := by
  by_cases h : key = k
  · subst h; simp
  · have hne : (key == k) = false := by simpa using h
    rw [List.lookup_cons, hne, if_neg h]

theorem mem_of_lookup {es : List (String × α)} {key : String} {a : α}
    (h : es.lookup key = some a) : (key, a) ∈ es := by
  induction es with
  | nil => simp at h
  | cons e es ih =>
    rw [lookup_cons_eq] at h
    split_ifs at h with hk
    · cases h; subst hk; simp
    · exact List.mem_cons_of_mem _ (ih h)

theorem lookup_of_absent {es : List (String × α)} {key : String} (h : key ∉ es.map (·.1)) :
    es.lookup key = none := by
  cases hl : es.lookup key with
  | none => rfl
  | some a => exact absurd (List.mem_map_of_mem (mem_of_lookup hl)) h

theorem lookup_eq_some_iff {es : List (String × α)} (h : (es.map (·.1)).Nodup) {key : String}
    {a : α} : es.lookup key = some a ↔ (key, a) ∈ es := by
  refine ⟨mem_of_lookup, ?_⟩
  intro hm
  induction es with
  | nil => cases hm
  | cons e es ih =>
    rw [List.map_cons, List.nodup_cons] at h
    rw [lookup_cons_eq]
    rcases List.mem_cons.mp hm with rfl | hm
    · rw [if_pos rfl]
    · rw [if_neg, ih h.2 hm]
      rintro rfl
      exact h.1 (List.mem_map.mpr ⟨_, hm, rfl⟩)

/-- The order of entries does not matter where their keys differ. -/
theorem lookup_perm {es es' : List (String × α)} (h : (es.map (·.1)).Nodup) (hp : es.Perm es')
    (key : String) : es.lookup key = es'.lookup key := by
  ext a
  rw [lookup_eq_some_iff h, lookup_eq_some_iff ((hp.map _).nodup h), hp.mem_iff]

theorem Sorted.distinct {es : List (String × α)} (h : Sorted es) : (es.map (·.1)).Nodup := by
  rw [List.Nodup, List.pairwise_map]
  exact List.Pairwise.imp (fun hlt => hlt.ne) h

theorem lookup_insertSorted (key k : String) (a : α) (es : List (String × α)) :
    (insertSorted k a es).lookup key = if key = k then some a else es.lookup key := by
  induction es with
  | nil => exact lookup_cons_eq key k a []
  | cons e es ih =>
    obtain ⟨k', b⟩ := e
    rw [insertSorted]
    split_ifs with h1 h2 h3 h4 h5
    · subst h2; simp
    · rw [lookup_cons_eq, if_neg h2]
    · subst h4; simp
    · subst h3; rw [lookup_cons_eq, lookup_cons_eq, if_neg h4, if_neg h4]
    · rw [lookup_cons_eq, ih, if_pos h5, if_neg (h5 ▸ h3)]
    · rw [lookup_cons_eq, lookup_cons_eq, ih, if_neg h5]

theorem key_of_mem_insertSorted {k : String} {a : α} {es : List (String × α)} {e : String × α}
    (he : e ∈ insertSorted k a es) : e.1 = k ∨ ∃ e' ∈ es, e'.1 = e.1 := by
  induction es with
  | nil => exact .inl (congrArg Prod.fst (List.mem_singleton.mp he))
  | cons e' es ih =>
    obtain ⟨k', b⟩ := e'
    rw [insertSorted] at he
    split_ifs at he with h1 h2
    · rcases List.mem_cons.mp he with rfl | he
      · exact .inl rfl
      · exact .inr ⟨e, he, rfl⟩
    · rcases List.mem_cons.mp he with rfl | he
      · exact .inl rfl
      · exact .inr ⟨e, List.mem_cons_of_mem _ he, rfl⟩
    · rcases List.mem_cons.mp he with rfl | he
      · exact .inr ⟨(k', b), List.mem_cons_self, rfl⟩
      · exact (ih he).imp_right fun ⟨x, hx, hk⟩ => ⟨x, List.mem_cons_of_mem _ hx, hk⟩

theorem sorted_insertSorted (k : String) (a : α) {es : List (String × α)} (h : Sorted es) :
    Sorted (insertSorted k a es) := by
  induction es with
  | nil => simp [insertSorted, Sorted]
  | cons e es ih =>
    obtain ⟨k', b⟩ := e
    obtain ⟨hlt, hes⟩ := List.pairwise_cons.mp h
    simp only [insertSorted]
    split_ifs with h1 h2
    · refine List.pairwise_cons.mpr ⟨?_, h⟩
      intro e he
      rcases List.mem_cons.mp he with rfl | he
      · exact h1
      · exact h1.trans (hlt e he)
    · subst h2
      exact List.pairwise_cons.mpr ⟨hlt, hes⟩
    · refine List.pairwise_cons.mpr ⟨?_, ih hes⟩
      intro e he
      show k' < e.1
      rcases key_of_mem_insertSorted he with hk | ⟨e', he', hk⟩
      · rw [hk]
        exact lt_of_le_of_ne (not_lt.mp h1) (Ne.symm h2)
      · rw [← hk]
        exact hlt e' he'

theorem lookup_foldl_insertSorted (key : String) (vs acc : List (String × α)) :
    (vs.foldl (fun acc v => insertSorted v.1 v.2 acc) acc).lookup key =
      (vs.reverse.lookup key).or (acc.lookup key) := by
  induction vs generalizing acc with
  | nil => simp
  | cons v vs ih =>
    obtain ⟨k, a⟩ := v
    rw [List.foldl_cons, ih, lookup_insertSorted, List.reverse_cons, List.lookup_append]
    by_cases hk : key = k
    · subst hk; simp
    · simp [lookup_cons_eq, hk]

theorem sorted_foldl_insertSorted (vs : List (String × α)) {acc : List (String × α)}
    (h : Sorted acc) : Sorted (vs.foldl (fun acc v => insertSorted v.1 v.2 acc) acc) := by
  induction vs generalizing acc with
  | nil => exact h
  | cons v vs ih => exact ih (sorted_insertSorted v.1 v.2 h)

theorem lookup_eq_none_of_sorted {k : String} {a : α} {es : List (String × α)}
    (h : Sorted ((k, a) :: es)) : es.lookup k = none := by
  cases hl : es.lookup k with
  | none => rfl
  | some b =>
    exact absurd ((List.pairwise_cons.mp h).1 _ (mem_of_lookup hl)) (lt_irrefl _)

theorem Sorted.head_le {k key : String} {a b : α} {es : List (String × α)}
    (h : Sorted ((k, a) :: es)) (hl : ((k, a) :: es).lookup key = some b) : k ≤ key := by
  rcases List.mem_cons.mp (mem_of_lookup hl) with he | he
  · exact (congrArg Prod.fst he).ge
  · exact le_of_lt ((List.pairwise_cons.mp h).1 _ he)

/-- A sorted map is known by what it has under each key. -/
theorem Sorted.ext {es es' : List (String × α)} (h : Sorted es) (h' : Sorted es')
    (heq : ∀ key, es.lookup key = es'.lookup key) : es = es' := by
  induction es generalizing es' with
  | nil =>
    cases es' with
    | nil => rfl
    | cons e es' =>
      have hl := heq e.1
      rw [lookup_cons_eq, if_pos rfl] at hl
      cases hl
  | cons e es ih =>
    obtain ⟨k, a⟩ := e
    cases es' with
    | nil => simpa using heq k
    | cons e' es' =>
      obtain ⟨k', a'⟩ := e'
      have ha := heq k
      have ha' := heq k'
      rw [List.lookup_cons_self] at ha ha'
      obtain rfl : k = k' := le_antisymm (h.head_le ha') (h'.head_le ha.symm)
      obtain rfl : a = a' := by simpa using ha
      rw [ih (List.pairwise_cons.mp h).2 (List.pairwise_cons.mp h').2]
      intro key
      by_cases hk : key = k
      · subst hk
        rw [lookup_eq_none_of_sorted h, lookup_eq_none_of_sorted h']
      · have := heq key
        simpa [lookup_cons_eq, hk] using this

theorem isWhole_object (ms : List (String × Datum)) :
    (object ms).isWhole = true ↔ ∀ m ∈ ms, m.2.isWhole = true := by
  rw [object, isWhole, entriesWhole_iff, List.forall_mem_map]
  simp [isWhole]

theorem isObject_object {es ms : List (String × Datum)} : (object es).IsObject ms ↔ es = ms := by
  have hinj : Function.Injective fun e : String × Datum => (string e.1, e.2) := by
    rintro ⟨k, v⟩ ⟨k', v'⟩ h
    simpa using h
  rw [IsObject, object, entries?, Option.some.injEq]
  exact List.map_inj_right hinj

/-- The entries of what counts as a map are whole with it. -/
theorem IsObject.isWhole {d : Datum} {ms : List (String × Datum)} (h : d.IsObject ms)
    (hw : d.isWhole = true) : ∀ m ∈ ms, m.2.isWhole = true := by
  cases d with
  | map es =>
    simp only [IsObject, entries?, Option.some.injEq] at h
    exact (isWhole_object ms).mp (by rw [object, ← h]; exact hw)
  | datetime s =>
    rw [IsObject, entries?, Option.some.injEq] at h
    intro m hm
    have he : (string m.1, m.2) ∈ [(string datetimeKey, string s)] := by
      rw [h]; exact List.mem_map_of_mem hm
    simp only [List.mem_singleton, Prod.mk.injEq] at he
    rw [he.2]; rfl
  | _ => simp [IsObject, entries?] at h

theorem foldlM_insert_eq_ok {decode : Datum → Decoded α} {M : Datum → α → Prop}
    (h : Decodes decode M) (es : List (Datum × Datum)) (hw : ∀ e ∈ es, e.2.isWhole = true)
    (acc r : List (String × α)) :
    (es.foldlM (fun acc (k, v) => do
        let key ← toKey k
        return insertSorted key (← decode v) acc) acc : Decoded _) = .ok r ↔
      ∃ (ms : List (String × Datum)) (vs : List (String × α)),
        es = ms.map (fun (k, v) => (string k, v)) ∧
        List.Forall₂ (fun m v => m.1 = v.1 ∧ M m.2 v.2) ms vs ∧
        r = vs.foldl (fun acc v => insertSorted v.1 v.2 acc) acc := by
  induction es generalizing acc with
  | nil =>
    constructor
    · intro hr
      cases hr
      exact ⟨[], [], rfl, .nil, rfl⟩
    · rintro ⟨ms, vs, hms, hvs, rfl⟩
      obtain rfl : ms = [] := by simpa using hms.symm
      cases hvs
      rfl
  | cons e es ih =>
    obtain ⟨k, v⟩ := e
    rw [List.forall_mem_cons] at hw
    simp only [List.foldlM_cons, bind_eq_ok, ih hw.2]
    constructor
    · rintro ⟨acc', ⟨key, hkey, a, ha, hacc⟩, ms, vs, rfl, hvs, rfl⟩
      cases hacc
      have hk : k = .string key := by
        cases k <;> simp_all [toKey]
      subst hk
      exact ⟨(key, v) :: ms, (key, a) :: vs, rfl, .cons ⟨rfl, (h v a hw.1).mp ha⟩ hvs, rfl⟩
    · rintro ⟨ms, vs, hms, hvs, rfl⟩
      cases ms with
      | nil => cases hms
      | cons m ms =>
        obtain ⟨hm, rfl⟩ := List.cons.inj hms
        cases hm
        cases hvs with
        | @cons _ b _ vs hb hvs =>
          obtain ⟨key, a⟩ := b
          obtain ⟨rfl, hb⟩ := hb
          exact ⟨_, ⟨_, rfl, _, (h _ _ hw.1).mpr hb, rfl⟩, ms, vs, rfl, hvs, rfl⟩

theorem decodes_toSortedMap {decode : Datum → Decoded α} {M : Datum → α → Prop}
    (h : Decodes decode M) : Decodes (toSortedMap decode) (MeansSortedMap M) := by
  intro d r hw
  cases hes : d.entries? with
  | none =>
    have hne : toSortedMap decode d ≠ .ok r := by
      cases d <;> simp_all [toSortedMap, entries?, mismatch, complain]
    simp [hne, MeansSortedMap, IsObject, hes]
  | some es =>
    have hw' : ∀ e ∈ es, e.2.isWhole = true := by
      cases d with
      | map es' =>
        cases hes
        rw [isWhole, entriesWhole_iff] at hw
        exact fun e he => (hw e he).2
      | datetime s => cases hes; simp [isWhole]
      | _ => cases hes
    unfold toSortedMap
    rw [hes]
    refine (foldlM_insert_eq_ok h es hw' [] r).trans ?_
    simp only [MeansSortedMap, IsObject, hes, Option.some.injEq]
    constructor
    · rintro ⟨ms, vs, hms, hvs, rfl⟩
      refine ⟨ms, vs, hms, hvs, sorted_foldl_insertSorted vs .nil, ?_⟩
      intro key
      simp [lookup_foldl_insertSorted]
    · rintro ⟨ms, vs, hms, hvs, hs, hl⟩
      refine ⟨ms, vs, hms, hvs, Sorted.ext hs (sorted_foldl_insertSorted vs .nil) ?_⟩
      intro key
      simp [lookup_foldl_insertSorted, hl]

end SortedMap

/-! ## Choices -/

/-- A choice is written as its name alone, or as a map from it to its content. -/
def Variant.IsWritten (v : Variant) (d : Datum) : Prop :=
  match v.content with
  | none => d = .string v.name
  | some c => d = .map [(.string v.name, c)]

theorem toVariant_eq_ok (dialect : Dialect) (known : List String) (d : Datum) (v : Variant) :
    toVariant dialect known d = .ok (v, .ok ()) ↔ v.name ∈ known ∧ v.IsWritten d := by
  obtain ⟨name, content⟩ := v
  cases d with
  | string s =>
    cases content with
    | none =>
      simp only [toVariant, Variant.IsWritten, string.injEq]
      split
      · simp only [Except.ok.injEq, Prod.mk.injEq, Variant.mk.injEq, and_true]
        constructor
        · rintro rfl; exact ⟨‹_›, rfl⟩
        · exact fun h => h.2
      · simp only [complain, reduceCtorEq, false_iff]
        rintro ⟨hn, rfl⟩
        contradiction
    | some c =>
      simp only [toVariant, Variant.IsWritten]
      split <;> simp [complain]
  | map es =>
    cases es with
    | nil => cases content <;> simp [toVariant, Variant.IsWritten]
    | cons e rest =>
      obtain ⟨k, c⟩ := e
      cases rest with
      | cons e' rest =>
        have hne : toVariant dialect known (.map ((k, c) :: e' :: rest)) ≠
            .ok (⟨name, content⟩, .ok ()) := by
          simp only [toVariant, List.isEmpty_cons, Bool.false_eq_true, if_false]
          split
          · simp
          · split
            · split <;> simp [complain]
            · cases k <;> simp [mismatch, complain]
        cases content <;> simp [hne, Variant.IsWritten]
      | nil =>
        cases k with
        | string s =>
          cases content with
          | none =>
            simp only [toVariant, Variant.IsWritten]
            split_ifs <;> simp_all [complain]
          | some c' =>
            simp only [toVariant, Variant.IsWritten, List.isEmpty_nil, not_true, and_false, if_false,
              if_true, map.injEq, List.cons.injEq, Prod.mk.injEq, string.injEq, and_true]
            by_cases hs : s ∈ known
            · rw [if_pos hs]
              simp only [Except.ok.injEq, Prod.mk.injEq, Variant.mk.injEq, and_true,
                Option.some.injEq]
              constructor
              · rintro ⟨rfl, rfl⟩; exact ⟨hs, rfl, rfl⟩
              · exact fun h => h.2
            · rw [if_neg hs]
              refine iff_of_false (fun h => by cases h) ?_
              rintro ⟨hn, rfl, -⟩
              exact hs hn
        | _ => cases content <;> simp [toVariant, Variant.IsWritten, mismatch, complain]
  | _ => cases content <;> simp [toVariant, Variant.IsWritten]

theorem checkUnit_eq_ok (dialect : Dialect) (content : Option Datum) :
    checkUnit dialect content = .ok () ↔ ∀ c ∈ content, dialect.leeway.Unit c := by
  cases content with
  | none => simp [checkUnit]
  | some c =>
    simp only [checkUnit, Option.mem_some_iff, Dialect.leeway]
    split
    · split <;> simp_all
    · cases c <;> simp [mismatch, complain]

theorem isName_iff (l : Leeway) (name : String) (d : Datum) : d.IsName l name ↔
    ∃ content, (⟨name, content⟩ : Variant).IsWritten d ∧ ∀ c ∈ content, l.Unit c := by
  constructor
  · rintro (rfl | ⟨u, hu, rfl⟩)
    · exact ⟨none, rfl, by simp⟩
    · exact ⟨some u, rfl, by simpa using hu⟩
  · rintro ⟨_ | c, hw, hu⟩
    · exact .inl hw
    · exact .inr ⟨c, hu c rfl, hw⟩

theorem decodes_toChoice {α : Type} (dialect : Dialect) (choices : List (String × α)) :
    Decodes (toChoice dialect choices) (MeansChoice dialect.leeway choices) := by
  intro d a _
  have hcases : toChoice dialect choices d = .ok a ↔ ∃ v, toVariant dialect (choices.map (·.1)) d =
      .ok (v, .ok ()) ∧ choices.lookup v.name = some a ∧ checkUnit dialect v.content = .ok () := by
    simp only [toChoice, bind_eq_ok]
    constructor
    · rintro ⟨⟨v, rest⟩, hv, h⟩
      cases hl : choices.lookup v.name with
      | none => simp [hl, complain] at h
      | some b =>
        simp only [hl, bind_eq_ok] at h
        obtain ⟨_, hu, _, rfl, h⟩ := h
        cases h
        exact ⟨v, hv, hl, hu⟩
    · rintro ⟨v, hv, hl, hu⟩
      refine ⟨(v, .ok ()), hv, ?_⟩
      simp only [hl, bind_eq_ok]
      exact ⟨(), hu, (), trivial, rfl⟩
  rw [hcases]
  simp only [toVariant_eq_ok, checkUnit_eq_ok, MeansChoice, isName_iff]
  constructor
  · rintro ⟨⟨name, content⟩, ⟨-, hw⟩, hl, hu⟩
    exact ⟨name, hl, content, hw, hu⟩
  · rintro ⟨name, hl, content, hw, hu⟩
    exact ⟨⟨name, content⟩, ⟨List.mem_map_of_mem (mem_of_lookup hl), hw⟩, hl, hu⟩

end WasmHost.Datum

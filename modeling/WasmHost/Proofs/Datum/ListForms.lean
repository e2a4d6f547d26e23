import WasmHost.Proofs.Datum.CompactText
import WasmHost.Proofs.Datum.RecordMeaning

/-!
# Records as lists and as objects

A record can be written as an object or as a list of its members in their order, and so can each
record in it. `AlikeRecord` relates data that differ in nothing else, and `MisfitRecord` holds of
those with a list of the wrong length. A `Spelling` governs a decoder that makes no difference
between what is alike and refuses what does not fit; the decoder of a record is governed if those of
the records in it are.
-/

namespace WasmHost.Datum

/-- Different ways to write the same, and what is no way to write anything. -/
structure Spelling where
  Alike : Datum → Datum → Prop
  Misfit : Datum → Prop

/-- The data differ in which records are written as lists. `inner` are the members in which there
are records. A list may leave out members at the end, down to those that are needed. -/
inductive AlikeRecord (keys : List String) (needed : Nat) (inner : List (String × Spelling)) :
    Datum → Datum → Prop
  | listed {vs} : needed ≤ vs.length → vs.length ≤ keys.length →
      AlikeRecord keys needed inner (.seq vs) (object (keys.zip vs))
  | inside {k s v v' before after} : (k, s) ∈ inner → s.Alike v v' →
      AlikeRecord keys needed inner (.map (before ++ (.string k, v) :: after))
        (.map (before ++ (.string k, v') :: after))
  | refl {d} : AlikeRecord keys needed inner d d
  | symm {d d'} : AlikeRecord keys needed inner d d' → AlikeRecord keys needed inner d' d
  | trans {d d' d''} : AlikeRecord keys needed inner d d' → AlikeRecord keys needed inner d' d'' →
      AlikeRecord keys needed inner d d''

/-- Somewhere the list of a record has too many items, or not all that are needed. -/
inductive MisfitRecord (keys : List String) (needed : Nat) (inner : List (String × Spelling)) :
    Datum → Prop
  | listed {vs} : vs.length < needed ∨ keys.length < vs.length →
      MisfitRecord keys needed inner (.seq vs)
  | inside {k s v before after} : (k, s) ∈ inner → s.Misfit v →
      MisfitRecord keys needed inner (.map (before ++ (.string k, v) :: after))
  | alike {d d'} : AlikeRecord keys needed inner d d' → MisfitRecord keys needed inner d' →
      MisfitRecord keys needed inner d

/-- The spelling of a record. -/
def Spelling.record (keys : List String) (needed : Nat) (inner : List (String × Spelling)) :
    Spelling :=
  ⟨AlikeRecord keys needed inner, MisfitRecord keys needed inner⟩

/-- The spelling of a list, of which any item may be written in another way. -/
def Spelling.items (s : Spelling) : Spelling where
  Alike d d' := ∃ before v v' after, s.Alike v v' ∧
    d = .seq (before ++ v :: after) ∧ d' = .seq (before ++ v' :: after)
  Misfit d := ∃ before v after, s.Misfit v ∧ d = .seq (before ++ v :: after)

/-- A decoder makes no difference between what is alike, and refuses what does not fit. -/
structure Spelling.Governs (s : Spelling) {α : Type} (decode : Datum → Decoded α) : Prop where
  alike : ∀ {d d'}, s.Alike d d' → decode d = decode d'
  misfit : ∀ {d}, s.Misfit d → ∃ e, decode d = .error e

variable {α β : Type} {keys : List String} {needed : Nat} {inner : List (String × Spelling)}

/-- If what comes first is refused, or what follows it in any case, so are both together. -/
theorem bind_error {x : Decoded α} {f : α → Decoded β} (h : ∀ a, ∃ e, f a = .error e) :
    ∃ e, x >>= f = .error e := by
  cases x with
  | error e => exact ⟨e, rfl⟩
  | ok a => exact h a

/-! ## Values made of what is decoded -/

namespace Spelling.Governs

variable {s : Spelling} {decode : Datum → Decoded α}

theorem map (h : s.Governs decode) (f : α → β) : s.Governs fun d => (decode d).map f where
  alike hd := congrArg (Except.map f) (h.alike hd)
  misfit hd := by
    obtain ⟨e, he⟩ := h.misfit hd
    exact ⟨e, by rw [he]; rfl⟩

theorem toOption_of_ne_null {d : Datum} (hd : d ≠ .null) :
    toOption decode d = (decode d).map some := by
  cases d with
  | null => exact absurd rfl hd
  | _ => rfl

end Spelling.Governs

theorem AlikeRecord.null_iff {d d' : Datum} (h : AlikeRecord keys needed inner d d') :
    d = .null ↔ d' = .null := by
  induction h with
  | listed | inside => exact iff_of_false Datum.noConfusion Datum.noConfusion
  | refl => rfl
  | symm _ ih => exact ih.symm
  | trans _ _ ih ih' => exact ih.trans ih'

theorem MisfitRecord.ne_null {d : Datum} (h : MisfitRecord keys needed inner d) : d ≠ .null := by
  induction h with
  | listed | inside => exact Datum.noConfusion
  | alike hd _ ih => exact mt hd.null_iff.mp ih

/-- A record may be missing. -/
theorem Spelling.Governs.toOption {decode : Datum → Decoded α}
    (h : (record keys needed inner).Governs decode) :
    (record keys needed inner).Governs (toOption decode) where
  alike {d d'} hd := by
    by_cases hnull : d = .null
    · rw [hnull, (AlikeRecord.null_iff hd).mp hnull]
    · rw [toOption_of_ne_null hnull, toOption_of_ne_null (mt (AlikeRecord.null_iff hd).mpr hnull),
        h.alike hd]
  misfit {d} hd := by
    obtain ⟨e, he⟩ := h.misfit hd
    exact ⟨e, by rw [toOption_of_ne_null (MisfitRecord.ne_null hd), he]; rfl⟩

theorem Spelling.Governs.toList {s : Spelling} {decode : Datum → Decoded α} (h : s.Governs decode) :
    s.items.Governs (toList decode) where
  alike := by
    rintro _ _ ⟨before, v, v', after, hv, rfl, rfl⟩
    simp only [Datum.toList, List.mapM_append, List.mapM_cons, h.alike hv]
  misfit := by
    rintro _ ⟨before, v, after, hv, rfl⟩
    obtain ⟨e, he⟩ := h.misfit hv
    simp only [Datum.toList, List.mapM_append, List.mapM_cons, he]
    exact bind_error fun _ => ⟨e, rfl⟩

/-! ## Lists of members -/

variable {r : Record α} {members : List (Member α)}

theorem Describes.names_fields (h : Describes members r) :
    r.fields.map (·.name) = names members := by
  rw [names, ← List.forall₂_eq_eq_eq, List.forall₂_map_left_iff, List.forall₂_map_right_iff]
  exact h.serves.imp fun _ _ hserves => hserves.1

theorem field?_of_mem (h : Describes members r) {f : Field α} (hf : f ∈ r.fields) :
    r.field? f.name = some f := by
  have hnd : (r.fields.map (·.name)).Nodup := h.names_fields ▸ h.distinct
  rw [Record.field?]
  generalize r.fields = fields at hnd hf
  induction fields with
  | nil => cases hf
  | cons g fields ih =>
    rw [List.map_cons, List.nodup_cons] at hnd
    rcases List.mem_cons.mp hf with rfl | hf
    · rw [List.find?_cons_of_pos (by simp)]
    · have hne : g.name ≠ f.name := fun heq => hnd.1 (heq ▸ List.mem_map_of_mem hf)
      rw [List.find?_cons_of_neg (by simpa using hne), ih hnd.2 hf]

/-- Items in the order of the fields are read as entries with the names of the fields. -/
theorem decodeItems_eq_decodeEntries (dialect : Dialect) {fields : List (Field α)}
    {vs : List Datum} {seen : List String} (hfield : ∀ f ∈ fields, r.field? f.name = some f)
    (hseen : ∀ f ∈ fields, f.name ∉ seen) (hnd : (fields.map (·.name)).Nodup)
    (hlength : vs.length ≤ fields.length) (start : α) :
    (do let (a, rest) ← Record.decodeItems fields start vs
        Record.checkRest dialect rest
        return a) =
      r.decodeEntries seen start
        (((fields.map (·.name)).zip vs).map fun (k, v) => (string k, v)) := by
  have hend : Record.checkRest dialect [] = .ok () := by simp [Record.checkRest]
  induction fields generalizing vs seen start with
  | nil =>
    obtain rfl := List.length_eq_zero_iff.mp (Nat.le_zero.mp hlength)
    show (Record.checkRest dialect [] >>= _) = _
    rw [hend]
    rfl
  | cons f fields ih =>
    cases vs with
    | nil =>
      show (Record.checkRest dialect [] >>= _) = _
      rw [hend]
      rfl
    | cons v vs =>
      rw [List.forall_mem_cons] at hfield hseen
      rw [List.map_cons, List.nodup_cons] at hnd
      rw [List.map_cons, List.zip_cons_cons, List.map_cons, decodeEntries_known hfield.1 hseen.1,
        Record.decodeItems, bind_assoc]
      refine bind_congr fun change => ?_
      refine ih hfield.2 (fun g hg => ?_) hnd.2 (Nat.le_of_succ_le_succ hlength) _
      -- the name that was just read is none of those behind it
      rw [List.mem_cons, not_or]
      exact ⟨fun heq => hnd.1 (heq ▸ List.mem_map_of_mem hg), hseen.2 g hg⟩

theorem decode_seq_eq_object (h : Describes members r) (dialect : Dialect) {vs : List Datum}
    (hlength : vs.length ≤ (names members).length) (start : α) :
    r.decode dialect start (.seq vs) =
      r.decode dialect start (object ((names members).zip vs)) := by
  rw [← h.names_fields, List.length_map] at hlength
  rw [← h.names_fields]
  exact decodeItems_eq_decodeEntries dialect (fun _ hf => field?_of_mem h hf)
    (fun _ _ => List.not_mem_nil) (h.names_fields ▸ h.distinct) hlength start

theorem rest_of_decodeItems {fields : List (Field α)} {vs rest : List Datum} {start a : α}
    (h : Record.decodeItems fields start vs = .ok (a, rest)) : rest = vs.drop fields.length := by
  induction fields generalizing vs start with
  | nil =>
    cases h
    rfl
  | cons f fields ih =>
    cases vs with
    | nil =>
      cases h
      rfl
    | cons v vs =>
      obtain ⟨change, -, h⟩ := bind_eq_ok.mp h
      exact ih h

theorem decode_seq_overlong (h : Describes members r) {vs : List Datum}
    (hlength : (names members).length < vs.length) (start : α) :
    ∃ e, r.decode .json start (.seq vs) = .error e := by
  rw [← h.names_fields, List.length_map] at hlength
  cases hitems : Record.decodeItems r.fields start vs with
  | error e => exact ⟨e, by simp [Record.decode, entries?, hitems, bind, Except.bind]⟩
  | ok found =>
    obtain ⟨a, rest⟩ := found
    have hrest : rest ≠ [] := by
      rw [rest_of_decodeItems hitems, Ne, List.drop_eq_nil_iff]
      exact Nat.not_le.mpr hlength
    refine ⟨.malformed, ?_⟩
    simp [Record.decode, entries?, hitems, bind, Except.bind, Record.checkRest, Dialect.json, hrest]

/-! ## Members in which there are records -/

/-- Entries are read one after the other, so it does not matter how one of them is written. -/
theorem decodeEntries_inside {k : String} {f : Field α} (hk : r.field? k = some f) {v v' : Datum}
    (hv : f.set v = f.set v') (before after : List (Datum × Datum)) (seen : List String)
    (start : α) :
    r.decodeEntries seen start (before ++ (string k, v) :: after) =
      r.decodeEntries seen start (before ++ (string k, v') :: after) := by
  induction before generalizing seen start with
  | nil =>
    rw [List.nil_append, List.nil_append]
    by_cases hs : k ∈ seen
    · rw [decodeEntries_seen hk hs, decodeEntries_seen hk hs]
    · rw [decodeEntries_known hk hs, decodeEntries_known hk hs, hv]
  | cons e before ih =>
    rw [List.cons_append, List.cons_append, Record.decodeEntries, Record.decodeEntries]
    refine bind_congr fun key => ?_
    cases r.field? key with
    | none => exact bind_congr fun _ => ih seen start
    | some g =>
      refine if_congr Iff.rfl rfl (bind_congr fun change => ?_)
      exact ih (key :: seen) (change start)

theorem decodeEntries_misfit {k : String} {f : Field α} (hk : r.field? k = some f) {v : Datum}
    {e : Refusal} (hv : f.set v = .error e) (before after : List (Datum × Datum))
    (seen : List String) (start : α) :
    ∃ e, r.decodeEntries seen start (before ++ (string k, v) :: after) = .error e := by
  induction before generalizing seen start with
  | nil =>
    rw [List.nil_append]
    by_cases hs : k ∈ seen
    · exact ⟨_, decodeEntries_seen hk hs start v after⟩
    · exact ⟨e, by rw [decodeEntries_known hk hs, hv]; rfl⟩
  | cons entry before ih =>
    rw [List.cons_append, Record.decodeEntries]
    refine bind_error fun key => ?_
    cases r.field? key with
    | none => exact bind_error fun _ => ih seen start
    | some g =>
      by_cases hs : key ∈ seen
      · exact ⟨_, if_pos hs⟩
      · simp only [if_neg hs]
        exact bind_error fun change => ih (key :: seen) (change start)

/-- A decoder is governed by the spelling of a record if lists and objects of its members are the
same to it, and other ways to write what is in a member. -/
theorem Spelling.Governs.of_places {decode : Datum → Decoded α}
    (hlisted : ∀ vs : List Datum, needed ≤ vs.length → vs.length ≤ keys.length →
      decode (.seq vs) = decode (object (keys.zip vs)))
    (hlength : ∀ vs : List Datum, vs.length < needed ∨ keys.length < vs.length →
      ∃ e, decode (.seq vs) = .error e)
    (hinside : ∀ k s, (k, s) ∈ inner → ∀ before after,
      s.Governs fun v => decode (.map (before ++ (.string k, v) :: after))) :
    (record keys needed inner).Governs decode := by
  have halike {d d' : Datum} (h : AlikeRecord keys needed inner d d') : decode d = decode d' := by
    -- on how the data came to be alike: what is left to show is one step each
    induction h with
    | listed hneeded hmost => exact hlisted _ hneeded hmost
    | inside hs hv => exact (hinside _ _ hs _ _).alike hv
    | refl => rfl
    | symm _ ih => exact ih.symm
    | trans _ _ ih ih' => exact ih.trans ih'
  refine ⟨halike, fun {d} h => ?_⟩
  induction h with
  | listed h => exact hlength _ h
  | inside hs hv => exact (hinside _ _ hs _ _).misfit hv
  | alike hd _ ih => rwa [halike hd]

/-- A field of a record whose decoder is governed by a spelling. -/
def Spelling.GovernsField (s : Spelling) (r : Record α) (k : String) : Prop :=
  ∃ f ∈ r.fields, f.name = k ∧ s.Governs f.set

theorem Spelling.Governs.field {s : Spelling} {k : String} {decode : Datum → Decoded β}
    {set : β → α → α} (h : s.Governs decode) (i : Nat)
    (hi : r.fields[i]? = some (.of k decode set)) : s.GovernsField r k :=
  ⟨_, List.mem_of_getElem? hi, rfl, h.map set⟩

/-- The decoder of a record is governed by its spelling. -/
theorem Spelling.Governs.of_describes (h : Describes members r)
    (hinner : ∀ p ∈ inner, p.2.GovernsField r p.1) (start : α) :
    (record (names members) 0 inner).Governs (r.decode .json start) := by
  refine of_places (fun vs _ hmost => decode_seq_eq_object h .json hmost start)
    (fun vs hlength => ?_) fun k s hs before after => ?_
  · exact decode_seq_overlong h (hlength.resolve_left (Nat.not_lt_zero _)) start
  · obtain ⟨f, hmem, rfl, hgoverns⟩ := hinner _ hs
    have hf := field?_of_mem h hmem
    refine ⟨fun hv => decodeEntries_inside hf (hgoverns.alike hv) before after [] start,
      fun hv => ?_⟩
    obtain ⟨e, he⟩ := hgoverns.misfit hv
    exact decodeEntries_misfit hf he before after [] start

/-! ## What a list means -/

theorem lookup_zip {vs : List Datum} (hnd : keys.Nodup) {i : Nat} {k : String}
    (hi : keys[i]? = some k) : (keys.zip vs).lookup k = vs[i]? := by
  induction keys generalizing vs i with
  | nil => cases hi
  | cons key keys ih =>
    rw [List.nodup_cons] at hnd
    cases vs with
    | nil => rfl
    | cons v vs =>
      rw [List.zip_cons_cons, lookup_cons_eq]
      cases i with
      | zero =>
        cases hi
        rw [if_pos rfl, List.getElem?_cons_zero]
      | succ i =>
        rw [List.getElem?_cons_succ] at hi
        rw [if_neg, ih hnd.2 hi, List.getElem?_cons_succ]
        rintro rfl
        exact hnd.1 (List.mem_of_getElem? hi)

/-- What a member is in a record that is read from a list: what the item in its place means, and
what it is in `start` if the list has ended. -/
theorem MeansRecord.get_of_seq {l : Leeway} {start a : α} {vs : List Datum}
    (h : MeansRecord l members start (.seq vs) a) (hnd : (names members).Nodup) {i : Nat}
    {m : Member α} (hi : members[i]? = some m) :
    match vs[i]? with
    | some v => m.Means v (m.get a)
    | none => m.get a = m.get start := by
  have hname : (names members)[i]? = some m.name := by rw [names, List.getElem?_map, hi]; rfl
  cases h with
  | object hobj => cases hobj
  | list _ hag =>
    have hm := hag m (List.mem_of_getElem? hi)
    rwa [Member.Agrees, lookup_zip hnd hname] at hm

/-! ## Texts -/

open Json

/-- Items that are written in a list can be written as entries of an object. -/
theorem spellsEntries_of_items {vs : List Datum} {cs : List Char} (h : SpellsItems vs cs)
    (hlength : vs.length ≤ keys.length) :
    ∃ ts, SpellsEntries ((keys.zip vs).map fun (k, v) => (string k, v)) ts := by
  induction vs generalizing keys cs with
  | nil => cases h
  | cons v vs ih =>
    cases keys with
    | nil => exact absurd hlength (Nat.not_succ_le_zero _)
    | cons k keys =>
      have hk := spellsString_quoted k
      cases h with
      | one _ hv _ =>
        rw [List.zip_cons_cons, List.zip_nil_right]
        exact ⟨_, .one blanks_nil hk blanks_nil blanks_nil hv blanks_nil⟩
      | cons _ hv _ hvs =>
        obtain ⟨ts, hts⟩ := ih hvs (Nat.le_of_succ_le_succ hlength)
        exact ⟨_, .cons blanks_nil hk blanks_nil blanks_nil hv blanks_nil hts⟩

/-- For a list in a text there is a text with the object. -/
theorem exists_text_object {vs : List Datum} {text : String} (h : Json.Text (.seq vs) text)
    (hlength : vs.length ≤ keys.length) : ∃ text', Json.Text (object (keys.zip vs)) text' := by
  suffices hspells : ∃ cs, Spells (object (keys.zip vs)) cs by
    obtain ⟨cs, hcs⟩ := hspells
    exact ⟨_, [], cs, [], blanks_nil, hcs, blanks_nil, rfl⟩
  obtain ⟨-, cs, -, -, hspells, -⟩ := h
  generalize hd : Datum.seq vs = d at hspells
  cases hspells with
  | emptySeq =>
    cases hd
    rw [List.zip_nil_right]
    exact ⟨_, .emptyMap blanks_nil⟩
  | seq hitems =>
    cases hd
    obtain ⟨ts, hts⟩ := spellsEntries_of_items hitems hlength
    exact ⟨_, .map hts⟩
  | string hs => cases hs <;> cases hd
  | @inexact t _ _ _ => rcases floatDatum_cases t with ⟨_, hf⟩ | hf <;> cases hd.trans hf
  | _ => cases hd

end WasmHost.Datum

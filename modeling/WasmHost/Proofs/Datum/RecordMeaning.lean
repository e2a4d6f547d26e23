import WasmHost.Proofs.Datum.Meaning
import Mathlib.Data.List.Nodup
import Mathlib.Data.List.Pairwise

/-!
# What data mean as records

A record is described by its members: what each is called, what its datum means, and where its
value is in the record. `MeansRecord` says what a datum means by such a description, and
`decodes_record` that the decoder of the record gives exactly that.
-/

namespace WasmHost.Datum

/-- A member of a record. -/
structure Member (α : Type) where
  name : String
  {Value : Type}
  Means : Datum → Value → Prop
  get : α → Value
  put : Value → α → α

variable {α : Type}

/-- What a member is in a record that is read: what its datum means if there is one, else what it
is in `start`. -/
def Member.Agrees (m : Member α) (ms : List (String × Datum)) (start a : α) : Prop :=
  match ms.lookup m.name with
  | some d => m.Means d (m.get a)
  | none => m.get a = m.get start

/-- The names of members. -/
def names (members : List (Member α)) : List String := members.map (·.name)

/-- Whether each member has at most one datum. What has no name among the members does not count. -/
def OnceEach (members : List (Member α)) (ms : List (String × Datum)) : Prop :=
  ((ms.map (·.1)).filter (· ∈ names members)).Nodup

/-- What a datum means as a record whose missing members are as in `start`. A list is a map from
the names in their order. -/
inductive MeansRecord (l : Leeway) (members : List (Member α)) (start : α) : Datum → α → Prop
  | object {d ms a} : d.IsObject ms → OnceEach members ms → (∀ m ∈ members, m.Agrees ms start a) →
      MeansRecord l members start d a
  | list {ds a} : ds.length ≤ members.length ∨ l.Surplus →
      (∀ m ∈ members, m.Agrees ((names members).zip ds) start a) →
      MeansRecord l members start (.seq ds) a

/-- A field of a record reads what a member of the description says. -/
def Field.Serves (f : Field α) (m : Member α) : Prop :=
  f.name = m.name ∧ ∀ d change, d.isWhole = true →
    (f.set d = .ok change ↔ ∃ v, m.Means d v ∧ change = m.put v)

theorem Field.Serves.of {name : String} {β : Type} {decode : Datum → Decoded β}
    {put : β → α → α} {M : Datum → β → Prop} {get : α → β} (h : Decodes decode M) :
    (Field.of name decode put).Serves ⟨name, M, get, put⟩ := by
  refine ⟨rfl, ?_⟩
  intro d change hw
  cases hd : decode d with
  | error e =>
    simp only [Field.of, hd, Except.map, reduceCtorEq, false_iff, not_exists, not_and]
    intro v hv
    rw [← h d v hw, hd] at hv
    cases hv
  | ok v =>
    simp only [Field.of, hd, Except.map, Except.ok.injEq]
    constructor
    · rintro rfl
      exact ⟨v, (h d v hw).mp hd, rfl⟩
    · rintro ⟨v', hv, rfl⟩
      rw [← h d v' hw, hd] at hv
      cases hv
      rfl

/-- A description fits a record: its members serve the fields in order, are told apart by their
names, hold one value each, and together are the record. -/
structure Describes (members : List (Member α)) (r : Record α) : Prop where
  serves : List.Forall₂ Field.Serves r.fields members
  distinct : (names members).Nodup
  get_put : ∀ m ∈ members, ∀ v a, m.get (m.put v a) = v
  apart : members.Pairwise fun m n =>
    (∀ v a, n.get (m.put v a) = n.get a) ∧ ∀ v a, m.get (n.put v a) = m.get a
  ext : ∀ a b, (∀ m ∈ members, m.get a = m.get b) → a = b

variable {members : List (Member α)} {r : Record α}

theorem Describes.get_put_other (h : Describes members r) {m n : Member α} (hm : m ∈ members)
    (hn : n ∈ members) (hne : n.name ≠ m.name) (v : m.Value) (a : α) :
    n.get (m.put v a) = n.get a := by
  have hsymm : Std.Symm fun m n : Member α =>
      (∀ v a, n.get (m.put v a) = n.get a) ∧ ∀ v a, m.get (n.put v a) = m.get a :=
    ⟨fun _ _ h => ⟨h.2, h.1⟩⟩
  have hp := h.apart.forall hm hn (by rintro rfl; exact hne rfl)
  exact hp.1 v a

theorem field?_eq_none {fields : List (Field α)} (h : List.Forall₂ Field.Serves fields members)
    {key : String} (hk : key ∉ names members) : fields.find? (·.name == key) = none := by
  induction h with
  | nil => rfl
  | @cons f m fs ms hfm _ ih =>
    simp only [names, List.map_cons, List.mem_cons, not_or] at hk
    have hne : (f.name == key) = false := by
      rw [hfm.1]; simpa using Ne.symm hk.1
    rw [List.find?_cons, hne]
    exact ih hk.2

theorem field?_eq_some {fields : List (Field α)} (h : List.Forall₂ Field.Serves fields members)
    {key : String} (hk : key ∈ names members) :
    ∃ f m, fields.find? (·.name == key) = some f ∧ m ∈ members ∧ m.name = key ∧ f.Serves m := by
  induction h with
  | nil => simp [names] at hk
  | @cons f m fs ms hfm _ ih =>
    by_cases he : m.name = key
    · refine ⟨f, m, ?_, by simp, he, hfm⟩
      rw [List.find?_cons, hfm.1, he]
      simp
    · have hne : (f.name == key) = false := by
        rw [hfm.1]; simpa using he
      rw [List.find?_cons, hne]
      simp only [names, List.map_cons, List.mem_cons] at hk
      obtain ⟨f', m', hf, hm, hn⟩ := ih (hk.resolve_left (Ne.symm he))
      exact ⟨f', m', hf, by simp [hm], hn⟩

theorem Describes.eq_of_name (h : Describes members r) {m n : Member α} (hm : m ∈ members)
    (hn : n ∈ members) (heq : n.name = m.name) : n = m :=
  List.inj_on_of_nodup_map h.distinct hn hm heq

theorem mem_names {m : Member α} (h : m ∈ members) : m.name ∈ names members :=
  List.mem_map_of_mem h

/-! ## Entries -/

theorem Member.agrees_cons_self {m : Member α} {k : String} (hk : m.name = k) (d : Datum)
    (ms : List (String × Datum)) (start a : α) :
    m.Agrees ((k, d) :: ms) start a ↔ m.Means d (m.get a) := by
  subst hk
  simp [Member.Agrees]

theorem Member.agrees_cons_other {m : Member α} {k : String} (hk : m.name ≠ k) (d : Datum)
    (ms : List (String × Datum)) (start a : α) :
    m.Agrees ((k, d) :: ms) start a ↔ m.Agrees ms start a := by
  simp [Member.Agrees, lookup_cons_eq, hk]

theorem Member.agrees_of_absent {m : Member α} {ms : List (String × Datum)}
    (h : m.name ∉ ms.map (·.1)) (start a : α) : m.Agrees ms start a ↔ m.get a = m.get start := by
  rw [Member.Agrees, lookup_of_absent h]

/-- After a member is put, every other agrees as before. -/
theorem Describes.agrees_put (h : Describes members r) {m n : Member α} (hm : m ∈ members)
    (hn : n ∈ members) (hne : n.name ≠ m.name) (v : m.Value) (ms : List (String × Datum))
    (start a : α) : n.Agrees ms (m.put v start) a ↔ n.Agrees ms start a := by
  rw [Member.Agrees, Member.Agrees, h.get_put_other hm hn hne]

theorem Describes.agrees_nil (h : Describes members r) (start a : α) :
    (∀ m ∈ members, m.Agrees [] start a) ↔ start = a := by
  constructor
  · exact fun hag => h.ext _ _ fun m hm => (hag m hm).symm
  · rintro rfl m -
    rfl

/-- To agree with one datum more is to put what it means before the others are met. -/
theorem Describes.agrees_cons (h : Describes members r) {m : Member α} (hm : m ∈ members)
    {ms : List (String × Datum)} (habs : m.name ∉ ms.map (·.1)) (d : Datum) (start a : α) :
    (∀ n ∈ members, n.Agrees ((m.name, d) :: ms) start a) ↔
      ∃ v, m.Means d v ∧ ∀ n ∈ members, n.Agrees ms (m.put v start) a := by
  constructor
  · intro hag
    refine ⟨m.get a, (Member.agrees_cons_self rfl _ _ _ _).mp (hag m hm), fun n hn => ?_⟩
    by_cases hname : n.name = m.name
    · obtain rfl := h.eq_of_name hm hn hname
      rw [Member.agrees_of_absent habs, h.get_put _ hn]
    · rw [h.agrees_put hm hn hname, ← Member.agrees_cons_other hname d]
      exact hag n hn
  · rintro ⟨v, hv, hag⟩ n hn
    by_cases hname : n.name = m.name
    · obtain rfl := h.eq_of_name hm hn hname
      have hget := (Member.agrees_of_absent habs _ _).mp (hag n hn)
      rw [Member.agrees_cons_self rfl, hget, h.get_put _ hn]
      exact hv
    · rw [Member.agrees_cons_other hname, ← h.agrees_put hm hn hname v]
      exact hag n hn

/-- What the entries still to come must be once the names in `seen` are taken. -/
def Remaining (members : List (Member α)) (seen : List String) (ms : List (String × Datum)) :
    Prop :=
  OnceEach members ms ∧ ∀ k ∈ ms.map (·.1), k ∈ names members → k ∉ seen

theorem remaining_cons_unknown {seen : List String} {k : String} (hk : k ∉ names members)
    (d : Datum) (ms : List (String × Datum)) :
    Remaining members seen ((k, d) :: ms) ↔ Remaining members seen ms := by
  simp [Remaining, OnceEach, hk]

theorem remaining_cons_known {seen : List String} {k : String} (hk : k ∈ names members)
    (d : Datum) (ms : List (String × Datum)) :
    Remaining members seen ((k, d) :: ms) ↔
      k ∉ seen ∧ k ∉ ms.map (·.1) ∧ Remaining members (k :: seen) ms := by
  simp only [Remaining, OnceEach, List.map_cons, List.mem_cons, not_or]
  rw [List.filter_cons_of_pos (by simpa using hk), List.nodup_cons, List.mem_filter]
  constructor
  · rintro ⟨⟨hnot, hnd⟩, hseen⟩
    have hk' : k ∉ ms.map (·.1) := fun hmem => hnot ⟨hmem, by simpa using hk⟩
    refine ⟨hseen k (.inl rfl) hk, hk', hnd, ?_⟩
    intro j hj hjn
    exact ⟨by rintro rfl; exact hk' hj, hseen j (.inr hj) hjn⟩
  · rintro ⟨hs, hk', hnd, hseen⟩
    refine ⟨⟨fun hmem => hk' hmem.1, hnd⟩, ?_⟩
    rintro j (rfl | hj) hjn
    · exact hs
    · exact (hseen j hj hjn).2

theorem decodeEntries_unknown {k : String} (hk : r.field? k = none) (seen : List String) (start : α)
    (d : Datum) (es : List (Datum × Datum)) :
    r.decodeEntries seen start ((string k, d) :: es) =
      skip d >>= fun _ => r.decodeEntries seen start es := by
  simp [Record.decodeEntries, toKey, bind, Except.bind, hk]

theorem decodeEntries_known {k : String} {f : Field α} (hk : r.field? k = some f)
    {seen : List String} (hs : k ∉ seen) (start : α) (d : Datum) (es : List (Datum × Datum)) :
    r.decodeEntries seen start ((string k, d) :: es) =
      f.set d >>= fun change => r.decodeEntries (k :: seen) (change start) es := by
  simp [Record.decodeEntries, toKey, bind, Except.bind, hk, hs]

theorem decodeEntries_seen {k : String} {f : Field α} (hk : r.field? k = some f)
    {seen : List String} (hs : k ∈ seen) (start : α) (d : Datum) (es : List (Datum × Datum)) :
    r.decodeEntries seen start ((string k, d) :: es) = complain (.duplicateField k) := by
  simp [Record.decodeEntries, toKey, bind, Except.bind, hk, hs]

theorem decodeEntries_eq_ok (h : Describes members r) {ms : List (String × Datum)}
    (hw : ∀ m ∈ ms, m.2.isWhole = true) (seen : List String) (start a : α) :
    r.decodeEntries seen start (ms.map fun (k, v) => (string k, v)) = .ok a ↔
      Remaining members seen ms ∧ ∀ m ∈ members, m.Agrees ms start a := by
  induction ms generalizing seen start with
  | nil =>
    rw [h.agrees_nil, List.map_nil, Record.decodeEntries, Except.ok.injEq]
    simp [Remaining, OnceEach]
  | cons e ms ih =>
    obtain ⟨k, d⟩ := e
    rw [List.forall_mem_cons] at hw
    rw [List.map_cons]
    by_cases hk : k ∈ names members
    · obtain ⟨f, m, hf, hm, rfl, hserves⟩ := field?_eq_some h.serves hk
      rw [remaining_cons_known hk]
      by_cases hs : m.name ∈ seen
      · rw [decodeEntries_seen hf hs]
        simp [hs, complain]
      · rw [decodeEntries_known hf hs]
        simp only [hs, bind_eq_ok, hserves.2 d _ hw.1, ih hw.2, not_false_eq_true, true_and]
        -- the member is put at once, which no entry behind may undo: its name is taken
        constructor
        · rintro ⟨_, ⟨v, hv, rfl⟩, hrem, hag⟩
          have habs : m.name ∉ ms.map (·.1) := fun hmem => (hrem.2 _ hmem hk) (by simp)
          exact ⟨⟨habs, hrem⟩, (h.agrees_cons hm habs d start a).mpr ⟨v, hv, hag⟩⟩
        · rintro ⟨⟨habs, hrem⟩, hag⟩
          obtain ⟨v, hv, hag⟩ := (h.agrees_cons hm habs d start a).mp hag
          exact ⟨_, ⟨v, hv, rfl⟩, hrem, hag⟩
    · rw [decodeEntries_unknown (field?_eq_none h.serves hk), remaining_cons_unknown hk]
      have hother : ∀ m ∈ members, m.name ≠ k := by
        rintro m hm rfl
        exact hk (mem_names hm)
      simp only [skip, hw.1, if_true, bind_eq_ok, exists_const, true_and, ih hw.2]
      refine and_congr_right fun _ => forall₂_congr fun m hm => ?_
      exact (Member.agrees_cons_other (hother m hm) d ms start a).symm

theorem keys_of_decodeEntries {es : List (Datum × Datum)} {seen : List String} {start a : α}
    (h : r.decodeEntries seen start es = .ok a) :
    ∃ ms : List (String × Datum), es = ms.map fun (k, v) => (string k, v) := by
  induction es generalizing seen start with
  | nil => exact ⟨[], rfl⟩
  | cons e es ih =>
    obtain ⟨k, d⟩ := e
    rw [Record.decodeEntries, bind_eq_ok] at h
    obtain ⟨key, hkey, h⟩ := h
    have hk : k = string key := by
      cases k <;> simp_all [toKey]
    subst hk
    suffices hrest : ∃ seen start, r.decodeEntries seen start es = .ok a by
      obtain ⟨seen, start, hrest⟩ := hrest
      obtain ⟨ms, rfl⟩ := ih hrest
      exact ⟨(key, d) :: ms, rfl⟩
    split at h
    · obtain ⟨_, -, h⟩ := bind_eq_ok.mp h
      exact ⟨_, _, h⟩
    · split at h
      · cases h
      · obtain ⟨_, -, h⟩ := bind_eq_ok.mp h
        exact ⟨_, _, h⟩

/-! ## Items -/

theorem decodeItems_eq_ok (h : Describes members r) {fields : List (Field α)}
    {ms : List (Member α)} (hs : List.Forall₂ Field.Serves fields ms) (hsub : ms.Sublist members)
    {ds : List Datum} (hw : ∀ d ∈ ds, d.isWhole = true) (start a : α) (rest : List Datum) :
    Record.decodeItems fields start ds = .ok (a, rest) ↔
      rest = ds.drop ms.length ∧ ∀ m ∈ members, m.Agrees ((names ms).zip ds) start a := by
  induction hs generalizing ds start with
  | nil =>
    rw [names, List.map_nil, List.zip_nil_left, h.agrees_nil, Record.decodeItems, Except.ok.injEq,
      Prod.mk.injEq, List.length_nil, List.drop_zero]
    exact and_comm.trans (and_congr_left' eq_comm)
  | @cons f m fs ms hserves _ ih =>
    have hm : m ∈ members := hsub.subset List.mem_cons_self
    cases ds with
    | nil =>
      rw [List.zip_nil_right, h.agrees_nil, Record.decodeItems, Except.ok.injEq, Prod.mk.injEq,
        List.drop_nil]
      exact and_comm.trans (and_congr_left' eq_comm)
    | cons d ds =>
      rw [List.forall_mem_cons] at hw
      have hdistinct : m.name ∉ names ms :=
        (List.nodup_cons.mp (List.Sublist.nodup (hsub.map Member.name) h.distinct)).1
      have habs : m.name ∉ ((names ms).zip ds).map (·.1) := by
        intro hin
        obtain ⟨e, he, hname⟩ := List.mem_map.mp hin
        exact hdistinct (hname ▸ (List.of_mem_zip he).1)
      have hsub' : ms.Sublist members := (List.sublist_cons_self m ms).trans hsub
      rw [names, List.map_cons, ← names, List.zip_cons_cons, h.agrees_cons hm habs]
      simp only [Record.decodeItems, bind_eq_ok, hserves.2 d _ hw.1, ih hsub' hw.2,
        List.length_cons, List.drop_succ_cons]
      constructor
      · rintro ⟨_, ⟨v, hv, rfl⟩, hrest, hag⟩
        exact ⟨hrest, v, hv, hag⟩
      · rintro ⟨hrest, v, hv, hag⟩
        exact ⟨_, ⟨v, hv, rfl⟩, hrest, hag⟩

theorem checkRest_drop_eq_ok (dialect : Dialect) (n : Nat) (ds : List Datum) :
    Record.checkRest dialect (ds.drop n) = .ok () ↔ ds.length ≤ n ∨ dialect.leeway.Surplus := by
  simp only [Record.checkRest, List.isEmpty_iff, List.drop_eq_nil_iff, Dialect.leeway]
  split <;> simp_all [or_comm]

/-! ## Records -/

theorem decode_isObject_eq_ok (h : Describes members r) (dialect : Dialect) {d : Datum}
    {ms : List (String × Datum)} (hd : d.IsObject ms) (hw : d.isWhole = true) (start a : α) :
    r.decode dialect start d = .ok a ↔
      OnceEach members ms ∧ ∀ m ∈ members, m.Agrees ms start a := by
  have hdec : r.decode dialect start d =
      r.decodeEntries [] start (ms.map fun (k, v) => (string k, v)) := by
    rw [IsObject] at hd
    simp [Record.decode, hd]
  have hrem : Remaining members [] ms ↔ OnceEach members ms := by simp [Remaining]
  rw [hdec, decodeEntries_eq_ok h (IsObject.isWhole hd hw), hrem]

theorem decode_seq_eq_ok (h : Describes members r) (dialect : Dialect) {ds : List Datum}
    (hw : ∀ d ∈ ds, d.isWhole = true) (start a : α) :
    r.decode dialect start (.seq ds) = .ok a ↔
      (ds.length ≤ members.length ∨ dialect.leeway.Surplus) ∧
        ∀ m ∈ members, m.Agrees ((names members).zip ds) start a := by
  rw [← checkRest_drop_eq_ok]
  simp only [Record.decode, entries?, bind_eq_ok]
  constructor
  · rintro ⟨⟨a', rest⟩, hi, _, hc, heq⟩
    cases heq
    obtain ⟨rfl, hag⟩ := (decodeItems_eq_ok h h.serves (List.Sublist.refl _) hw _ _ _).mp hi
    exact ⟨hc, hag⟩
  · rintro ⟨hc, hag⟩
    have hi := (decodeItems_eq_ok h h.serves (List.Sublist.refl _) hw _ _ _).mpr ⟨rfl, hag⟩
    exact ⟨_, hi, (), hc, rfl⟩

/-- The decoder of a record gives exactly what data mean by its description. -/
theorem decodes_record (h : Describes members r) (dialect : Dialect) (start : α) :
    Decodes (r.decode dialect start) (MeansRecord dialect.leeway members start) := by
  have hitems {ds : List Datum} (hw : (seq ds).isWhole = true) : ∀ d ∈ ds, d.isWhole = true := by
    rwa [isWhole, itemsWhole_iff] at hw
  intro d a hw
  constructor
  · intro hok
    cases hes : d.entries? with
    | some es =>
      have hdec : r.decodeEntries [] start es = .ok a := by simpa [Record.decode, hes] using hok
      obtain ⟨ms, rfl⟩ := keys_of_decodeEntries hdec
      obtain ⟨honce, hag⟩ := (decode_isObject_eq_ok h dialect hes hw start a).mp hok
      exact .object hes honce hag
    | none =>
      cases d with
      | seq ds =>
        obtain ⟨hlength, hag⟩ := (decode_seq_eq_ok h dialect (hitems hw) start a).mp hok
        exact .list hlength hag
      | map | datetime => cases hes
      | _ => simp [Record.decode, entries?, mismatch, complain] at hok
  · rintro (⟨hobj, honce, hag⟩ | ⟨hlength, hag⟩)
    · exact (decode_isObject_eq_ok h dialect hobj hw start a).mpr ⟨honce, hag⟩
    · exact (decode_seq_eq_ok h dialect (hitems hw) start a).mpr ⟨hlength, hag⟩

/-! ## Objects made of members -/

/-- The values that are there, each with its key. -/
def present {β : Type} (es : List (String × Option β)) : List (String × β) :=
  es.filterMap fun (k, o) => o.map (k, ·)

theorem mem_present {β : Type} {es : List (String × Option β)} {e : String × β} :
    e ∈ present es ↔ (e.1, some e.2) ∈ es := by
  rw [present, List.mem_filterMap]
  constructor
  · rintro ⟨⟨k, o⟩, hm, he⟩
    obtain ⟨b, rfl, rfl⟩ := Option.map_eq_some_iff.mp he
    exact hm
  · exact fun hm => ⟨_, hm, rfl⟩

theorem keys_present {β : Type} (es : List (String × Option β)) :
    ((present es).map (·.1)).Sublist (es.map (·.1)) := by
  induction es with
  | nil => exact .slnil
  | cons e es ih =>
    obtain ⟨k, o⟩ := e
    cases o with
    | none => exact .cons k ih
    | some b => exact .cons_cons k ih

theorem map_present {β γ : Type} (f : β → γ) (es : List (String × Option β)) :
    (present es).map (fun (k, b) => (k, f b)) = present (es.map fun (k, o) => (k, o.map f)) := by
  rw [present, present, List.map_filterMap, List.filterMap_map]
  congr 1
  funext ⟨k, o⟩
  cases o <;> rfl

/-- Whether what is given of a member is what it is in a record. -/
def Member.Given (m : Member α) (start a : α) : Option Datum → Prop
  | some d => m.Means d (m.get a)
  | none => m.get a = m.get start

/-- An object with a datum for each member that is not as in the start. -/
theorem MeansRecord.of_present {l : Leeway} {es : List (String × Option Datum)} {start a : α}
    (hd : (names members).Nodup)
    (h : List.Forall₂ (fun m e => m.name = e.1 ∧ m.Given start a e.2) members es) :
    MeansRecord l members start (Datum.object (present es)) a := by
  have hkeys : es.map (·.1) = names members := by
    clear hd
    induction h with
    | nil => rfl
    | cons hm _ ih => simp only [names, List.map_cons, hm.1] at ih ⊢; rw [ih]
  have hnd : ((present es).map (·.1)).Nodup := (keys_present es).nodup (hkeys ▸ hd)
  refine @MeansRecord.object _ _ _ _ _ (present es) a rfl (hnd.filter _) ?_
  intro m hm
  obtain ⟨⟨k, o⟩, he, hname, hgiven⟩ : ∃ e ∈ es, m.name = e.1 ∧ m.Given start a e.2 := by
    clear hd hkeys hnd
    induction h with
    | nil => cases hm
    | cons h _ ih =>
      rcases List.mem_cons.mp hm with rfl | hm
      · exact ⟨_, by simp, h⟩
      · obtain ⟨e, he, h⟩ := ih hm
        exact ⟨e, by simp [he], h⟩
  dsimp only at hname
  subst hname
  cases o with
  | some d =>
    rw [Member.Agrees, (lookup_eq_some_iff hnd).mpr (mem_present.mpr he)]
    exact hgiven
  | none =>
    refine (Member.agrees_of_absent ?_ start a).mpr hgiven
    intro hin
    obtain ⟨⟨k, d⟩, hd', hk⟩ := List.mem_map.mp hin
    dsimp only at hk
    subst hk
    have hinj := List.inj_on_of_nodup_map (hkeys ▸ hd) he (mem_present.mp hd') rfl
    cases hinj

/-- An object with a datum for each member, in any leeway and whatever the start. -/
theorem MeansRecord.of_all {l : Leeway} {ms : List (String × Datum)} {start a : α}
    (hd : (names members).Nodup)
    (h : List.Forall₂ (fun m e => m.name = e.1 ∧ m.Means e.2 (m.get a)) members ms) :
    MeansRecord l members start (Datum.object ms) a := by
  have hpresent : present (ms.map fun (k, d) => (k, some d)) = ms := by
    simp [present, List.filterMap_map]
  rw [← hpresent]
  exact .of_present hd (List.forall₂_map_right_iff.mpr h)

/-! ## Which objects are accepted, and which are refused -/

/-- Every member that has data has data that mean something. -/
def Meaningful (members : List (Member α)) (ms : List (String × Datum)) : Prop :=
  ∀ m ∈ members, ∀ d, (m.name, d) ∈ ms → ∃ v, m.Means d v

/-- A record can be made that agrees with what is given of some members and is as before in the
others. -/
theorem Describes.exists_agrees (h : Describes members r) {ms : List (String × Datum)}
    (hms : Meaningful members ms) (start : α) {todo : List (Member α)}
    (hsub : todo.Sublist members) :
    ∃ a, (∀ m ∈ todo, m.Agrees ms start a) ∧
      ∀ m ∈ members, m ∉ todo → m.get a = m.get start := by
  induction todo with
  | nil => exact ⟨start, by simp, fun _ _ _ => rfl⟩
  | cons m todo ih =>
    have hm : m ∈ members := hsub.subset (by simp)
    have hsub' : todo.Sublist members := (List.sublist_cons_self m todo).trans hsub
    have hnot : m ∉ todo := by
      intro hin
      have hd := (List.nodup_cons.mp (List.Sublist.nodup (hsub.map Member.name) h.distinct)).1
      exact hd (List.mem_map_of_mem hin)
    obtain ⟨a, hag, hother⟩ := ih hsub'
    cases hl : ms.lookup m.name with
    | none =>
      refine ⟨a, ?_, fun n hn hout => hother n hn (by simp_all)⟩
      intro n hn
      rcases List.mem_cons.mp hn with rfl | hn
      · rw [Member.Agrees, hl]
        exact hother _ hm hnot
      · exact hag n hn
    | some d =>
      obtain ⟨v, hv⟩ := hms m hm d (mem_of_lookup hl)
      have hput : ∀ n ∈ members, n ≠ m → n.get (m.put v a) = n.get a := fun n hn hne =>
        h.get_put_other hm hn (fun heq => hne (h.eq_of_name hm hn heq)) v a
      refine ⟨m.put v a, ?_, ?_⟩
      · intro n hn
        rcases List.mem_cons.mp hn with rfl | hn
        · rw [Member.Agrees, hl, h.get_put _ hm]
          exact hv
        · have hne : n ≠ m := fun heq => hnot (heq ▸ hn)
          rw [Member.Agrees, hput n (hsub'.subset hn) hne]
          exact hag n hn
      · intro n hn hout
        rw [List.mem_cons, not_or] at hout
        rw [hput n hn hout.1]
        exact hother n hn hout.2

/-- What the names met so far become over entries that are decoded. -/
theorem decodeEntries_append (h : Describes members r) {ms : List (String × Datum)}
    {seen : List String} {start a : α}
    (hok : r.decodeEntries seen start (ms.map fun (k, v) => (string k, v)) = .ok a) :
    ∃ seen', (∀ k ∈ names members, k ∈ ms.map (·.1) → k ∈ seen') ∧ (∀ k ∈ seen, k ∈ seen') ∧
      ∀ rest, r.decodeEntries seen start ((ms.map fun (k, v) => (string k, v)) ++ rest) =
        r.decodeEntries seen' a rest := by
  induction ms generalizing seen start with
  | nil =>
    cases hok
    exact ⟨seen, by simp, by simp, fun _ => rfl⟩
  | cons e ms ih =>
    obtain ⟨k, d⟩ := e
    rw [List.map_cons] at hok
    by_cases hk : k ∈ names members
    · obtain ⟨f, m, hf, hm, rfl, hserves⟩ := field?_eq_some h.serves hk
      by_cases hs : m.name ∈ seen
      · rw [decodeEntries_seen hf hs] at hok
        cases hok
      · rw [decodeEntries_known hf hs] at hok
        obtain ⟨change, hc, hok⟩ := bind_eq_ok.mp hok
        obtain ⟨seen', hnames, hseen, hrest⟩ := ih hok
        refine ⟨seen', ?_, fun j hj => hseen j (by simp [hj]), ?_⟩
        · intro j hj hin
          rcases List.mem_cons.mp hin with rfl | hin
          · exact hseen _ (by simp)
          · exact hnames j hj hin
        · intro rest
          rw [List.map_cons, List.cons_append, decodeEntries_known hf hs, hc]
          exact hrest rest
    · have hnone := field?_eq_none h.serves hk
      rw [decodeEntries_unknown hnone] at hok
      obtain ⟨_, hskip, hok⟩ := bind_eq_ok.mp hok
      obtain ⟨seen', hnames, hseen, hrest⟩ := ih hok
      refine ⟨seen', ?_, hseen, ?_⟩
      · intro j hj hin
        rcases List.mem_cons.mp hin with rfl | hin
        · exact absurd hj hk
        · exact hnames j hj hin
      · intro rest
        rw [List.map_cons, List.cons_append, decodeEntries_unknown hnone, hskip]
        exact hrest rest

/-- A second datum for a member is refused before it is looked at. -/
theorem decode_duplicate (h : Describes members r) (dialect : Dialect) (start : α)
    {before after : List (String × Datum)} {k : String} {d : Datum}
    (honce : OnceEach members before)
    (hms : Meaningful members before) (hw : ∀ m ∈ before, m.2.isWhole = true)
    (hk : k ∈ names members) (hin : k ∈ before.map (·.1)) :
    r.decode dialect start (object (before ++ (k, d) :: after)) =
      .error (.complaint (.duplicateField k)) := by
  obtain ⟨a, hag, -⟩ := h.exists_agrees hms start (List.Sublist.refl members)
  have hok := (decodeEntries_eq_ok h hw [] start a).mpr ⟨⟨honce, by simp⟩, hag⟩
  obtain ⟨seen, hnames, -, hrest⟩ := decodeEntries_append h hok
  obtain ⟨f, m, hf, -⟩ := field?_eq_some h.serves hk
  simp only [Record.decode, object, entries?, List.map_append, List.map_cons, hrest]
  exact decodeEntries_seen hf (hnames k hk hin) _ _ _

end WasmHost.Datum

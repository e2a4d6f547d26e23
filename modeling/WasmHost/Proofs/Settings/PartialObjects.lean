import WasmHost.Proofs.Settings.RoundTrip

/-!
# Partial objects

An object may have any of the members of a record, in any order and among members that mean
nothing. It is accepted exactly when the data of its members mean something, and the record is then
the default one with these members replaced. Of a preopened directory both members are needed, and
of an environment the last value of a key counts.
-/

namespace WasmHost

open Datum

variable {α : Type}

/-- A member that is given twice is refused, as a duplicate if nothing before it is at fault. -/
structure RefusesDuplicates (members : List (Member α)) {β : Type}
    (decode : Dialect → Datum → Decoded β) : Prop where
  never : ∀ ms text b, Json.Text (.object ms) text → ¬OnceEach members ms →
    Datum.ofJson decode text ≠ .ok b
  named : ∀ before k d after text, Json.Text (.object (before ++ (k, d) :: after)) text →
    OnceEach members before → Meaningful members before → k ∈ names members →
    k ∈ before.map (·.1) →
    Datum.ofJson decode text = .error (.complaint (.duplicateField k))

/-- How objects of any members are read as a record. -/
structure FillsDefaults (members : List (Member α)) (decode : Dialect → Datum → Decoded α)
    (default : α) : Prop where
  accepts : ∀ ms text, Json.Text (.object ms) text → OnceEach members ms →
    ((∃ a, Datum.ofJson decode text = .ok a) ↔ Meaningful members ms)
  replaces : ∀ ms text a, Json.Text (.object ms) text → Datum.ofJson decode text = .ok a →
    ∀ m ∈ members, (∀ d, (m.name, d) ∈ ms → m.Means d (m.get a)) ∧
      (m.name ∉ ms.map (·.1) → m.get a = m.get default)
  /-- There is nothing else in the record. -/
  complete : ∀ a b : α, (∀ m ∈ members, m.get a = m.get b) → a = b
  duplicates : RefusesDuplicates members decode

variable {members : List (Member α)}

theorem lookup_of_onceEach {ms : List (String × Datum)} (honce : OnceEach members ms) {m : Member α}
    (hm : m ∈ members) {d : Datum} (hd : (m.name, d) ∈ ms) : ms.lookup m.name = some d := by
  induction ms with
  | nil => cases hd
  | cons e ms ih =>
    obtain ⟨k, d'⟩ := e
    have honce' : OnceEach members ms :=
      List.Sublist.nodup (List.Sublist.filter _ (List.sublist_cons_self k (ms.map (·.1)))) honce
    rw [lookup_cons_eq]
    by_cases hk : m.name = k
    · subst hk
      rcases List.mem_cons.mp hd with heq | hd
      · cases heq
        rw [if_pos rfl]
      · have hnames : m.name ∈ names members := mem_names hm
        rw [OnceEach, List.map_cons, List.filter_cons_of_pos (by simpa using hnames),
          List.nodup_cons, List.mem_filter] at honce
        exact absurd ⟨List.mem_map.mpr ⟨_, hd, rfl⟩, by simpa using hnames⟩ honce.1
    · rw [if_neg hk]
      rcases List.mem_cons.mp hd with heq | hd
      · exact absurd (congrArg Prod.fst heq) hk
      · exact ih honce' hd

theorem decode_object_eq_ok {r : Record α} (h : Describes members r) (dialect : Dialect)
    (start a : α) {ms : List (String × Datum)} (hw : (Datum.object ms).isWhole = true) :
    r.decode dialect start (.object ms) = .ok a ↔
      OnceEach members ms ∧ ∀ m ∈ members, m.Agrees ms start a :=
  decode_isObject_eq_ok h dialect (isObject_object.mpr rfl) hw start a

theorem Text.isWhole_before {before after : List (String × Datum)} {text : String}
    (ht : Json.Text (.object (before ++ after)) text) : ∀ m ∈ before, m.2.isWhole = true :=
  fun m hm => (isWhole_object _).mp ht.isWhole m (by simp [hm])

theorem FillsDefaults.of_describes {r : Record α} (h : Describes members r) {start : α}
    {decode : Dialect → Datum → Decoded α} (hr : decode .json = r.decode .json start) :
    FillsDefaults members decode start where
  accepts ms text ht honce := by
    simp only [ofJson_of_text ht, hr, decode_object_eq_ok h _ _ _ ht.isWhole]
    constructor
    · rintro ⟨a, -, hag⟩ m hm d hd
      have hm' := hag m hm
      rw [Member.Agrees, lookup_of_onceEach honce hm hd] at hm'
      exact ⟨m.get a, hm'⟩
    · intro hms
      obtain ⟨a, hag, -⟩ := h.exists_agrees hms start (List.Sublist.refl members)
      exact ⟨a, honce, hag⟩
  replaces ms text a ht hok := by
    rw [ofJson_of_text ht, hr, decode_object_eq_ok h _ _ _ ht.isWhole] at hok
    obtain ⟨honce, hag⟩ := hok
    intro m hm
    refine ⟨fun d hd => ?_, fun habs => (Member.agrees_of_absent habs _ _).mp (hag m hm)⟩
    have hm' := hag m hm
    rwa [Member.Agrees, lookup_of_onceEach honce hm hd] at hm'
  complete := h.ext
  duplicates :=
    { never := by
        intro ms text a ht hnot hok
        rw [ofJson_of_text ht, hr, decode_object_eq_ok h _ _ _ ht.isWhole] at hok
        exact hnot hok.1
      named := by
        intro before k d after text ht honce hms hk hin
        rw [ofJson_of_text ht, hr]
        exact decode_duplicate h .json start honce hms (Text.isWhole_before ht) hk hin }

/-! ## Preopened directories -/

/-- A preopened directory is read from an object that has both members, texts both, and from no
other. Of two that are missing the first is named. -/
structure NeedsBoth : Prop where
  accepts : ∀ ms text p, Json.Text (.object ms) text →
    (Datum.ofJson PreopenSetting.ofDatum text = .ok p ↔ OnceEach PreopenSetting.members ms ∧
      ("host", .string p.host) ∈ ms ∧ ("guest", .string p.guest) ∈ ms)
  missing : ∀ ms text, Json.Text (.object ms) text → OnceEach PreopenSetting.members ms →
    Meaningful PreopenSetting.members ms →
    ("host" ∉ ms.map (·.1) →
      Datum.ofJson PreopenSetting.ofDatum text = .error (.complaint (.missingField "host"))) ∧
    ("host" ∈ ms.map (·.1) → "guest" ∉ ms.map (·.1) →
      Datum.ofJson PreopenSetting.ofDatum text = .error (.complaint (.missingField "guest")))
  duplicates : RefusesDuplicates PreopenSetting.members PreopenSetting.ofDatum

theorem preopen_agrees {ms : List (String × Datum)} {a : Option String × Option String} :
    (∀ m ∈ PreopenSetting.members, m.Agrees ms (none, none) a) ↔
      ms.lookup "host" = a.1.map .string ∧ ms.lookup "guest" = a.2.map .string := by
  simp only [PreopenSetting.members, List.forall_mem_cons, Member.Agrees]
  refine and_congr ?_ ((and_iff_left (List.forall_mem_nil _)).trans ?_)
  · cases ms.lookup "host" <;> cases a.1 <;> simp [MeansText]
  · cases ms.lookup "guest" <;> cases a.2 <;> simp [MeansText]

theorem preopen_decode_eq_ok {ms : List (String × Datum)} {text : String}
    (ht : Json.Text (.object ms) text) (a : Option String × Option String) :
    PreopenSetting.record.decode .json (none, none) (.object ms) = .ok a ↔
      OnceEach PreopenSetting.members ms ∧
        ms.lookup "host" = a.1.map .string ∧ ms.lookup "guest" = a.2.map .string := by
  rw [decode_object_eq_ok PreopenSetting.describes _ _ _ ht.isWhole, preopen_agrees]

theorem preopen_lookup {ms : List (String × Datum)} (honce : OnceEach PreopenSetting.members ms)
    {k : String} (hk : k ∈ names PreopenSetting.members) (d : Datum) :
    ms.lookup k = some d ↔ (k, d) ∈ ms := by
  obtain ⟨m, hm, rfl⟩ := List.mem_map.mp hk
  exact ⟨mem_of_lookup, lookup_of_onceEach honce hm⟩

theorem lookup_eq_none_of_absent {ms : List (String × Datum)} {k : String} (h : k ∉ ms.map (·.1)) :
    ms.lookup k = none := by
  cases hl : ms.lookup k with
  | none => rfl
  | some d => exact absurd (List.mem_map.mpr ⟨_, mem_of_lookup hl, rfl⟩) h

theorem needsBoth : NeedsBoth where
  accepts ms text p ht := by
    rw [ofJson_of_text ht, PreopenSetting.ofDatum_eq_ok, preopen_decode_eq_ok ht]
    refine and_congr_right fun honce => ?_
    exact and_congr (preopen_lookup honce (by decide) _) (preopen_lookup honce (by decide) _)
  missing ms text ht honce hms := by
    obtain ⟨⟨host, guest⟩, hag, -⟩ := PreopenSetting.describes.exists_agrees hms (none, none)
      (List.Sublist.refl _)
    obtain ⟨hhost, hguest⟩ := preopen_agrees.mp hag
    have hdec := (preopen_decode_eq_ok ht (host, guest)).mpr ⟨honce, hhost, hguest⟩
    have hof : Datum.ofJson PreopenSetting.ofDatum text =
        PreopenSetting.ofFields (host, guest) := by
      rw [ofJson_of_text ht]
      change (PreopenSetting.record.decode .json (none, none) (.object ms) >>= _) = _
      rw [hdec]
      rfl
    rw [hof]
    constructor
    · intro habs
      rw [lookup_eq_none_of_absent habs] at hhost
      cases host with
      | none => rfl
      | some h => cases hhost
    · intro hin habs
      rw [lookup_eq_none_of_absent habs] at hguest
      cases guest with
      | some g => cases hguest
      | none =>
        cases host with
        | some h => rfl
        | none =>
          obtain ⟨⟨k, d⟩, he, rfl⟩ := List.mem_map.mp hin
          have hl := (preopen_lookup honce (by decide) d).mpr he
          rw [hl] at hhost
          cases hhost
  duplicates :=
    { never := by
        intro ms text p ht hnot hok
        rw [ofJson_of_text ht, PreopenSetting.ofDatum_eq_ok, preopen_decode_eq_ok ht] at hok
        exact hnot hok.1
      named := by
        intro before k d after text ht honce hms hk hin
        rw [ofJson_of_text ht]
        change (PreopenSetting.record.decode .json (none, none) _ >>= _) = _
        rw [decode_duplicate PreopenSetting.describes .json (none, none) honce hms
          (Text.isWhole_before ht) hk hin]
        rfl }

/-! ## Environments -/

theorem lookup_string (es : List (String × String)) (key : String) :
    (es.map fun (k, v) => (k, Datum.string v)).lookup key = (es.lookup key).map .string := by
  induction es with
  | nil => rfl
  | cons e es ih =>
    obtain ⟨k, v⟩ := e
    rw [List.map_cons, lookup_cons_eq, lookup_cons_eq, ih]
    split <;> rfl

theorem lookup_of_meansSortedMap {es : List (String × Datum)} {env : List (String × String)}
    (h : MeansSortedMap MeansText (.object es) env) (key : String) :
    (env.lookup key).map Datum.string = es.reverse.lookup key := by
  obtain ⟨ms, vs, hobj, hvs, -, hl⟩ := h
  obtain rfl := isObject_object.mp hobj
  have hes : es = vs.map fun (k, v) => (k, Datum.string v) := by
    clear hobj hl
    induction hvs with
    | nil => rfl
    | cons hm _ ih =>
      rw [List.map_cons, ← ih]
      exact congrArg (· :: _) (Prod.ext hm.1 hm.2)
  rw [hes, ← List.map_reverse, lookup_string, hl]

/-- Every record of settings is read from a partial object as its default with the given members
replaced, a preopened directory needs both members, and the last value of a key counts in an
environment. -/
theorem partial_objects_fill_defaults :
    FillsDefaults (SettingsFile.members Dialect.json.leeway) SettingsFile.ofDatum {} ∧
    FillsDefaults (EngineSettings.members Dialect.json.leeway) EngineSettings.ofDatum {} ∧
    FillsDefaults FeatureSettings.members FeatureSettings.ofDatum {} ∧
    FillsDefaults CacheSettings.members CacheSettings.ofDatum {} ∧
    FillsDefaults PoolingSettings.members PoolingSettings.ofDatum {} ∧
    FillsDefaults StoreSettings.members StoreSettings.ofDatum {} ∧
    FillsDefaults (WasiSettings.members Dialect.json.leeway) WasiSettings.ofDatum {} ∧
    NeedsBoth ∧
    (∀ ms es text w, Json.Text (.object ms) text → ("env", .object es) ∈ ms →
      Datum.ofJson WasiSettings.ofDatum text = .ok w →
      ∀ key, (w.env.lookup key).map Datum.string = es.reverse.lookup key) := by
  have hwasi : FillsDefaults (WasiSettings.members Dialect.json.leeway) WasiSettings.ofDatum {} :=
    .of_describes (WasiSettings.describes .json) rfl
  refine ⟨.of_describes (SettingsFile.describes .json) rfl,
    .of_describes (EngineSettings.describes .json) rfl, .of_describes FeatureSettings.describes rfl,
    .of_describes CacheSettings.describes rfl, .of_describes PoolingSettings.describes rfl,
    .of_describes StoreSettings.describes rfl, hwasi, needsBoth, ?_⟩
  intro ms es text w ht henv hok
  have hall := hwasi.replaces ms text w ht hok
  rw [WasiSettings.members] at hall
  simp only [List.forall_mem_cons] at hall
  exact lookup_of_meansSortedMap (hall.2.2.2.1.1 _ henv)

/-- One member among others that mean nothing. -/
theorem features_with_one_member :
    ∃ s, Datum.ofJson FeatureSettings.ofDatum
        (Datum.object [("else", .seq [.int 1]), ("simd", .bool false)]).compact = .ok s ∧
      s.simd = false ∧ s.bulkMemory = true := by
  have h := partial_objects_fill_defaults.2.2.1
  have ht : Json.Text (.object [("else", .seq [.int 1]), ("simd", .bool false)])
      (Datum.object [("else", .seq [.int 1]), ("simd", .bool false)]).compact :=
    text_compact (by simp [printable_object, Printable, ItemsPrintable])
  have hms : Meaningful FeatureSettings.members
      [("else", .seq [.int 1]), ("simd", .bool false)] := by
    simp [Meaningful, FeatureSettings.members, MeansBool]
  obtain ⟨s, hs⟩ := (h.accepts _ _ ht (by simp [OnceEach, FeatureSettings.members, names])).mpr hms
  have hall := h.replaces _ _ s ht hs
  simp only [FeatureSettings.members, List.forall_mem_cons] at hall
  have hsimd : MeansBool (.bool false) s.simd := hall.2.2.1.1 _ (by simp)
  exact ⟨s, hs, (Datum.bool.inj hsimd).symm, hall.2.2.2.1.2 (by simp)⟩

end WasmHost

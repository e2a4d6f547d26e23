import WasmHost.Proofs.Datum.ListForms
import WasmHost.Proofs.Settings.RoundTrip

/-!
# Settings written as lists

Any record of settings may be written as a list of its members in the order in which they are
declared, at any level. The list is read as the object with their names, and what is left out at its
end has its default; a list that is too long is refused. Of a preopened directory the list has both
members.
-/

namespace WasmHost

open Datum

/-! ## How settings are spelled -/

def FeatureSettings.spelling : Spelling := .record (names members) 0 []

def CacheSettings.spelling : Spelling := .record (names members) 0 []

def PoolingSettings.spelling : Spelling := .record (names members) 0 []

def StoreSettings.spelling : Spelling := .record (names members) 0 []

/-- Both members of a preopened directory are needed. -/
def PreopenSetting.spelling : Spelling := .record (names members) 2 []

/-- The members of engine settings in which there are records. -/
def EngineSettings.inner : List (String × Spelling) :=
  [ ("features", FeatureSettings.spelling), ("cache", CacheSettings.spelling),
    ("pooling", PoolingSettings.spelling) ]

/-- The member of system settings in which there are records. -/
def WasiSettings.inner : List (String × Spelling) := [("preopens", PreopenSetting.spelling.items)]

def EngineSettings.spelling : Spelling := .record (names (members Dialect.json.leeway)) 0 inner

def WasiSettings.spelling : Spelling := .record (names (members Dialect.json.leeway)) 0 inner

/-- The members of a settings file, which all are records. -/
def SettingsFile.inner : List (String × Spelling) :=
  [ ("engine", EngineSettings.spelling), ("store", StoreSettings.spelling),
    ("wasi", WasiSettings.spelling) ]

def SettingsFile.spelling : Spelling := .record (names (members Dialect.json.leeway)) 0 inner

theorem FeatureSettings.governed : spelling.Governs (ofDatum .json) :=
  .of_describes describes (List.forall_mem_nil _) _

theorem CacheSettings.governed : spelling.Governs (ofDatum .json) :=
  .of_describes describes (List.forall_mem_nil _) _

theorem PoolingSettings.governed : spelling.Governs (ofDatum .json) :=
  .of_describes describes (List.forall_mem_nil _) _

theorem StoreSettings.governed : spelling.Governs (ofDatum .json) :=
  .of_describes describes (List.forall_mem_nil _) _

theorem EngineSettings.governed : spelling.Governs (ofDatum .json) := by
  refine .of_describes (describes .json) ?_ _
  simp only [inner, List.forall_mem_cons]
  exact ⟨FeatureSettings.governed.field 7 rfl, CacheSettings.governed.field 12 rfl,
    PoolingSettings.governed.toOption.field 13 rfl, List.forall_mem_nil _⟩

/-- A list of two items is read like other records: neither field can be missing. -/
theorem PreopenSetting.ofDatum_pair (host guest : Datum) :
    ofDatum .json (.seq [host, guest]) =
      record.decode .json (none, none) (.seq [host, guest]) >>= ofFields := by
  simp only [ofDatum, Record.decode, entries?, record, Record.decodeItems, Field.of]
  cases toText host with
  | error e => rfl
  | ok h => cases toText guest <;> rfl

theorem PreopenSetting.governed : spelling.Governs (ofDatum .json) := by
  refine .of_places (fun vs hneeded hmost => ?_) (fun vs hlength => ?_) fun _ _ hs => nomatch hs
  · obtain ⟨host, guest, rfl⟩ := List.length_eq_two.mp (Nat.le_antisymm hmost hneeded)
    rw [ofDatum_pair, decode_seq_eq_object describes .json hmost]
    rfl
  · cases hok : ofDatum .json (.seq vs) with
    | error e => exact ⟨e, rfl⟩
    | ok p =>
      rw [ofDatum_eq_ok] at hok
      rcases hlength with hshort | hlong
      · match vs, hshort with
        | [], _ => cases hok
        | [host], _ =>
          -- the guest stays missing, whatever the host is
          simp only [Record.decode, entries?, record, Record.decodeItems, Field.of] at hok
          cases hhost : toText host <;> rw [hhost] at hok <;> cases hok
      · obtain ⟨e, he⟩ := decode_seq_overlong describes hlong (none, none)
        cases he.symm.trans hok

theorem WasiSettings.governed : spelling.Governs (ofDatum .json) := by
  refine .of_describes (describes .json) ?_ _
  simp only [inner, List.forall_mem_cons]
  exact ⟨PreopenSetting.governed.toList.field 7 rfl, List.forall_mem_nil _⟩

theorem SettingsFile.governed : spelling.Governs (ofDatum .json) := by
  refine .of_describes (describes .json) ?_ _
  simp only [inner, List.forall_mem_cons]
  exact ⟨EngineSettings.governed.field 0 rfl, StoreSettings.governed.field 1 rfl,
    WasiSettings.governed.toOption.field 2 rfl, List.forall_mem_nil _⟩

/-! ## Texts -/

/-- How texts with lists are read as a record. -/
structure ReadsLists (keys : List String) (needed : Nat) (inner : List (String × Spelling))
    {α : Type} (decode : Dialect → Datum → Decoded α) : Prop where
  /-- A list is read as the object in which its items have the names in their order. -/
  listed : ∀ vs text, Json.Text (.seq vs) text → needed ≤ vs.length → vs.length ≤ keys.length →
    (∃ text', Json.Text (.object (keys.zip vs)) text') ∧
    ∀ text', Json.Text (.object (keys.zip vs)) text' →
      Datum.ofJson decode text = Datum.ofJson decode text'
  refused : ∀ vs text, Json.Text (.seq vs) text → vs.length < needed ∨ keys.length < vs.length →
    ∃ e, Datum.ofJson decode text = .error e
  /-- It does not matter either how the records within are written. -/
  alike : ∀ d d' text text', AlikeRecord keys needed inner d d' → Json.Text d text →
    Json.Text d' text' → Datum.ofJson decode text = Datum.ofJson decode text'
  misfit : ∀ d text, MisfitRecord keys needed inner d → Json.Text d text →
    ∃ e, Datum.ofJson decode text = .error e

/-- How texts with lists are read as a record that has defaults: each member has what the item in
its place means, and from where the list ends its default. -/
structure FillsInOrder {α : Type} (members : List (Member α)) (inner : List (String × Spelling))
    (decode : Dialect → Datum → Decoded α) (default : α) : Prop where
  reads : ReadsLists (names members) 0 inner decode
  fills : ∀ vs text a, Json.Text (.seq vs) text → Datum.ofJson decode text = .ok a →
    ∀ (i : Nat) m, members[i]? = some m →
      match vs[i]? with
      | some v => m.Means v (m.get a)
      | none => m.get a = m.get default

theorem ReadsLists.of_governed {keys : List String} {needed : Nat}
    {inner : List (String × Spelling)} {α : Type} {decode : Dialect → Datum → Decoded α}
    (h : (Spelling.record keys needed inner).Governs (decode .json)) :
    ReadsLists keys needed inner decode where
  listed vs text ht hneeded hmost := by
    refine ⟨exists_text_object ht hmost, fun text' ht' => ?_⟩
    rw [ofJson_of_text ht, ofJson_of_text ht']
    exact h.alike (.listed hneeded hmost)
  refused vs text ht hlength := by
    rw [ofJson_of_text ht]
    exact h.misfit (.listed hlength)
  alike d d' text text' hd ht ht' := by
    rw [ofJson_of_text ht, ofJson_of_text ht']
    exact h.alike hd
  misfit d text hd ht := by
    rw [ofJson_of_text ht]
    exact h.misfit hd

theorem FillsInOrder.of_governed {α : Type} {members : List (Member α)}
    {inner : List (String × Spelling)} {decode : Dialect → Datum → Decoded α} {default : α}
    (h : (Spelling.record (names members) 0 inner).Governs (decode .json))
    (hdecodes : Decodes (decode .json) (MeansRecord Dialect.json.leeway members default))
    (hnd : (names members).Nodup) : FillsInOrder members inner decode default where
  reads := .of_governed h
  fills vs text a ht hok i m hm := by
    rw [ofJson_of_text ht, hdecodes _ _ ht.isWhole] at hok
    exact hok.get_of_seq hnd hm

/-- Every record of settings is read from a list as from the object of its members in order, at
every level and with the defaults for what is left out, and a preopened directory from a list of
both its members. Lists of other lengths are refused. -/
theorem lists_read_as_objects :
    FillsInOrder (SettingsFile.members Dialect.json.leeway) SettingsFile.inner
      SettingsFile.ofDatum {} ∧
    FillsInOrder (EngineSettings.members Dialect.json.leeway) EngineSettings.inner
      EngineSettings.ofDatum {} ∧
    FillsInOrder FeatureSettings.members [] FeatureSettings.ofDatum {} ∧
    FillsInOrder CacheSettings.members [] CacheSettings.ofDatum {} ∧
    FillsInOrder PoolingSettings.members [] PoolingSettings.ofDatum {} ∧
    FillsInOrder StoreSettings.members [] StoreSettings.ofDatum {} ∧
    FillsInOrder (WasiSettings.members Dialect.json.leeway) WasiSettings.inner
      WasiSettings.ofDatum {} ∧
    ReadsLists (names PreopenSetting.members) 2 [] PreopenSetting.ofDatum :=
  ⟨.of_governed SettingsFile.governed (SettingsFile.decodes .json) (SettingsFile.distinct _),
    .of_governed EngineSettings.governed (EngineSettings.decodes .json) (EngineSettings.distinct _),
    .of_governed FeatureSettings.governed (FeatureSettings.decodes .json)
      FeatureSettings.describes.distinct,
    .of_governed CacheSettings.governed (CacheSettings.decodes .json)
      CacheSettings.describes.distinct,
    .of_governed PoolingSettings.governed (PoolingSettings.decodes .json)
      PoolingSettings.describes.distinct,
    .of_governed StoreSettings.governed (StoreSettings.decodes .json)
      StoreSettings.describes.distinct,
    .of_governed WasiSettings.governed (WasiSettings.decodes .json) (WasiSettings.distinct _),
    .of_governed PreopenSetting.governed⟩

/-- A settings file of lists within a list, and one with a list that is too long within. -/
theorem file_of_nested_lists :
    let engine : List Datum := [.bool true, .bool true]
    let named : Datum := .object [("debug_info", .bool true), ("consume_fuel", .bool true)]
    let fuel : Datum := .object [("initial_fuel", .int 5)]
    Datum.ofJson SettingsFile.ofDatum (Datum.seq [.seq engine, .seq [.int 5]]).compact =
      Datum.ofJson SettingsFile.ofDatum
        (Datum.object [("engine", named), ("store", fuel)]).compact ∧
    ∃ e, Datum.ofJson SettingsFile.ofDatum
      (Datum.object [("store", .seq [.int 5, .int 6])]).compact = .error e := by
  intro engine named fuel
  have hfile := lists_read_as_objects.1.reads
  have hengine : EngineSettings.spelling.Alike (.seq engine) named :=
    .listed (Nat.zero_le _) (by decide)
  have hstore : StoreSettings.spelling.Alike (.seq [.int 5]) fuel :=
    .listed (Nat.zero_le _) (by decide)
  have houter : AlikeRecord (names (SettingsFile.members Dialect.json.leeway)) 0 SettingsFile.inner
      (.seq [.seq engine, .seq [.int 5]])
      (.object [("engine", .seq engine), ("store", .seq [.int 5])]) :=
    .listed (Nat.zero_le _) (by decide)
  have hinner : AlikeRecord (names (SettingsFile.members Dialect.json.leeway)) 0 SettingsFile.inner
      (.object [("engine", .seq engine), ("store", .seq [.int 5])])
      (.object [("engine", named), ("store", fuel)]) :=
    .trans
      (@AlikeRecord.inside _ _ _ "engine" _ _ _ [] [(.string "store", .seq [.int 5])]
        (by simp [SettingsFile.inner]) hengine)
      (@AlikeRecord.inside _ _ _ "store" _ _ _ [(.string "engine", named)] []
        (by simp [SettingsFile.inner]) hstore)
  refine ⟨hfile.alike _ _ _ _ (houter.trans hinner) (text_compact ?_) (text_compact ?_),
    hfile.misfit _ _ ?_ (text_compact ?_)⟩
  · simp [engine, Printable, ItemsPrintable]
  · simp [named, fuel, printable_object, Printable]
  · exact @MisfitRecord.inside _ _ _ "store" StoreSettings.spelling _ [] []
      (by simp [SettingsFile.inner]) (.listed (.inr (by decide)))
  · simp [printable_object, Printable, ItemsPrintable]

end WasmHost

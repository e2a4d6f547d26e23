import WasmHost.Settings.File
import WasmHost.Proofs.Datum.TomlLayout
import WasmHost.Proofs.Settings.RoundTrip

/-!
# Settings in two formats

Data that mean settings in the plain form, with the members that are left out at their defaults,
give those settings in both formats: as a document of tables, in whatever order its sections and
keys stand, and as an object. Settings whose numbers have 63 bits have such data.
-/

namespace WasmHost

open Datum

/-! ## The order of members -/

section Order

variable {α : Type}

/-- What objects mean depends on what they have under each key. -/
def IgnoresOrder (M : Datum → α → Prop) : Prop :=
  ∀ ms ms' a, (ms'.map (·.1)).Nodup → (∀ k, ms.lookup k = ms'.lookup k) →
    M (object ms) a → M (object ms') a

theorem ignoresOrder_record (l : Leeway) (members : List (Member α)) (start : α) :
    IgnoresOrder (MeansRecord l members start) := by
  intro ms ms' a hd hl h
  cases h with
  | object hobj _ hag =>
    obtain rfl := isObject_object.mp hobj
    refine .object (isObject_object.mpr rfl) (hd.filter _) ?_
    intro m hm
    have := hag m hm
    rwa [Member.Agrees, hl] at this

theorem ignoresOrder_option {M : Datum → α → Prop} (h : IgnoresOrder M) :
    IgnoresOrder (MeansOption M) := by
  intro ms ms' o hd hl hm
  cases o with
  | none => cases hm
  | some a => exact ⟨by simp [object], h ms ms' a hd hl hm.2⟩

theorem SettingsFile.ignoresOrder (l : Leeway) : ∀ m ∈ members l, IgnoresOrder m.Means := by
  simp only [members, List.mem_cons, List.not_mem_nil, or_false, forall_eq_or_imp, forall_eq]
  exact ⟨ignoresOrder_record _ _ _, ignoresOrder_record _ _ _,
    ignoresOrder_option (ignoresOrder_record _ _ _)⟩

/-- Data that the same sections say mean the same settings. -/
theorem SettingsFile.means_of_sections {l : Leeway} {ss : List Toml.Section} {d d' : Datum}
    {s : SettingsFile} (h : Toml.Says ss d) (h' : Toml.Says ss d') (hm : Means l d s) :
    Means l d' s := by
  obtain ⟨ms, rfl, hd, hkeys, htables⟩ := h
  obtain ⟨ms', rfl, hd', hkeys', htables'⟩ := h'
  cases hm with
  | object hobj _ hag =>
    obtain rfl := isObject_object.mp hobj
    refine .object (isObject_object.mpr rfl) (hd'.filter _) ?_
    intro m hmem
    have hm := hag m hmem
    by_cases hin : m.name ∈ ms.map (·.1)
    · obtain ⟨⟨n, t⟩, ht, hn⟩ := List.mem_map.mp hin
      obtain ⟨⟨n', t'⟩, ht', hn'⟩ := List.mem_map.mp ((hkeys' _).mpr ((hkeys _).mp hin))
      dsimp only at hn hn'
      subst hn
      obtain rfl := hn'
      obtain ⟨es, rfl, hes, hl⟩ := htables _ t ht
      obtain ⟨es', rfl, hes', hl'⟩ := htables' _ t' ht'
      rw [Member.Agrees, (lookup_eq_some_iff hd).mpr ht] at hm
      rw [Member.Agrees, (lookup_eq_some_iff hd').mpr ht']
      exact ignoresOrder l m hmem es es' _ hes' (fun k => (hl k).trans (hl' k).symm) hm
    · have hin' : m.name ∉ ms'.map (·.1) := fun h => hin ((hkeys _).mpr ((hkeys' _).mp h))
      exact (Member.agrees_of_absent hin' _ _).mpr ((Member.agrees_of_absent hin _ _).mp hm)

end Order

/-! ## Layouts of settings -/

/-- The numbers of the engine and of the store have 63 bits. -/
def SettingsFile.Small (s : SettingsFile) : Prop :=
  Below (2 ^ 63) s.engine.maxWasmStack ∧ Below (2 ^ 63) s.engine.staticMemoryMaximumSize ∧
    Below (2 ^ 63) s.engine.staticMemoryGuardSize ∧
    Below (2 ^ 63) s.engine.dynamicMemoryGuardSize ∧ Below (2 ^ 63) s.store.initialFuel

open Toml (Entry Layout)

def FeatureSettings.pairs (s : FeatureSettings) : List (String × Datum) :=
  [ ("threads", .bool s.threads),
    ("reference_types", .bool s.referenceTypes),
    ("simd", .bool s.simd),
    ("bulk_memory", .bool s.bulkMemory),
    ("multi_value", .bool s.multiValue) ]

def CacheSettings.pairs (s : CacheSettings) : List (String × Datum) := present
  [ ("enabled", some (.bool s.enabled)), ("config_path", s.configPath.map .string) ]

def PoolingSettings.pairs (s : PoolingSettings) : List (String × Datum) :=
  [ ("max_instances", .ofNat s.maxInstances), ("instance_memory_mb", .ofNat s.instanceMemoryMb) ]

def EngineSettings.entries (s : EngineSettings) : List (String × Option Entry) :=
  [ ("debug_info", some (.value (.bool s.debugInfo))),
    ("consume_fuel", some (.value (.bool s.consumeFuel))),
    ("interruptable", some (.value (.bool s.interruptable))),
    ("max_wasm_stack", s.maxWasmStack.map fun n => .value (.ofNat n)),
    ("static_memory_maximum_size", s.staticMemoryMaximumSize.map fun n => .value (.ofNat n)),
    ("static_memory_guard_size", s.staticMemoryGuardSize.map fun n => .value (.ofNat n)),
    ("dynamic_memory_guard_size", s.dynamicMemoryGuardSize.map fun n => .value (.ofNat n)),
    ("features", some (.table s.features.pairs)),
    ("strategy", some (.value s.strategy.toDatum)),
    ("opt_level", some (.value s.optLevel.toDatum)),
    ("cranelift_debug_verifier", some (.value (.bool s.debugVerifier))),
    ("profiler", some (.value s.profiler.toDatum)),
    ("cache", some (.table s.cache.pairs)),
    ("pooling", s.pooling.map fun p => .table p.pairs) ]

def StoreSettings.entries (s : StoreSettings) : List (String × Option Entry) :=
  [ ("initial_fuel", s.initialFuel.map fun n => .value (.ofNat n)) ]

def StdioSetting.entry : StdioSetting → Entry
  | file path => .table [("file", .string path)]
  | s => .value s.toDatum

def WasiSettings.entries (s : WasiSettings) : List (String × Option Entry) :=
  [ ("inherit_args", some (.value (.bool s.inheritArgs))),
    ("args", some (.value (.seq (s.args.map .string)))),
    ("inherit_env", some (.value (.bool s.inheritEnv))),
    ("env", some (.table (s.env.map fun (k, v) => (k, .string v)))),
    ("stdin", some s.stdin.entry),
    ("stdout", some s.stdout.entry),
    ("stderr", some s.stderr.entry),
    ("preopens", if s.preopens = [] then none
      else some (.items (s.preopens.map fun p =>
        [("host", .string p.host), ("guest", .string p.guest)]))) ]

/-- The tables of a settings file. A value that is missing is left out. -/
def SettingsFile.tables (s : SettingsFile) : List (String × Layout) := present
  [ ("engine", some (present s.engine.entries)),
    ("store", some (present s.store.entries)),
    ("wasi", s.wasi.map fun w => present w.entries) ]

/-- The plainest datum of a settings file that has a document. -/
def SettingsFile.tabular (s : SettingsFile) : Datum :=
  object (s.tables.map fun (n, es) => (n, Layout.toDatum es))

/-! ### They mean the settings -/

section Means

variable {α : Type}

theorem layout_toDatum (es : List (String × Option Entry)) :
    Layout.toDatum (present es) =
      object (present (es.map fun (k, o) => (k, o.map Entry.toDatum))) := by
  rw [Layout.toDatum, map_present]

theorem given_option {name : String} {M : Datum → α → Prop} {β : Type} {get : β → Option α}
    {put : Option α → β → β} {start a : β} {toDatum : α → Datum} (hstart : get start = none)
    (h : ∀ x ∈ get a, toDatum x ≠ .null ∧ M (toDatum x) x) :
    (⟨name, MeansOption M, get, put⟩ : Member β).Given start a ((get a).map toDatum) := by
  cases hg : get a with
  | none => exact hg.trans hstart.symm
  | some x =>
    show MeansOption M (toDatum x) (get a)
    rw [hg]
    exact h x (by simp [hg])

theorem given_entry {name : String} {M : Datum → α → Prop} {β γ : Type} {get : β → Option α}
    {put : Option α → β → β} {start a : β} {entry : α → γ} {toDatum : γ → Datum}
    (hstart : get start = none)
    (h : ∀ x ∈ get a, toDatum (entry x) ≠ .null ∧ M (toDatum (entry x)) x) :
    (⟨name, MeansOption M, get, put⟩ : Member β).Given start a
      (((get a).map entry).map toDatum) := by
  rw [Option.map_map]
  exact given_option hstart h

theorem given_nat {name : String} {bound : Nat} {get : α → Option Nat} {put : Option Nat → α → α}
    {start a : α} (hstart : get start = none) (h : Below bound (get a)) :
    (⟨name, MeansOption (MeansNat bound), get, put⟩ : Member α).Given start a
      (((get a).map fun n => Entry.value (.ofNat n)).map Entry.toDatum) :=
  given_entry hstart fun n hn => ⟨by simp [Entry.toDatum, Datum.ofNat], rfl, h n hn⟩

end Means

theorem FeatureSettings.means_pairs (l : Leeway) (s : FeatureSettings) :
    Means l (object s.pairs) s :=
  s.means_toDatum l

theorem PoolingSettings.means_pairs (l : Leeway) {s : PoolingSettings} (h : s.Fits) :
    Means l (object s.pairs) s :=
  means_toDatum l h

theorem CacheSettings.means_pairs (l : Leeway) (s : CacheSettings) :
    Means l (object s.pairs) s := by
  refine .of_present describes.distinct (.cons ⟨rfl, rfl⟩ (.cons ⟨rfl, ?_⟩ .nil))
  exact given_option rfl fun _ _ => ⟨by simp, rfl⟩

theorem EngineSettings.means_entries (l : Leeway) {s : EngineSettings} (h : s.Fits) :
    Means l (Layout.toDatum (present s.entries)) s := by
  obtain ⟨hstack, hmax, hguard, hdyn, hpool⟩ := h
  rw [layout_toDatum]
  refine .of_present (distinct l) <| .cons ⟨rfl, rfl⟩ <| .cons ⟨rfl, rfl⟩ <| .cons ⟨rfl, rfl⟩ <|
    .cons ⟨rfl, given_nat rfl hstack⟩ <| .cons ⟨rfl, given_nat rfl hmax⟩ <|
    .cons ⟨rfl, given_nat rfl hguard⟩ <| .cons ⟨rfl, given_nat rfl hdyn⟩ <|
    .cons ⟨rfl, s.features.means_pairs l⟩ <| .cons ⟨rfl, s.strategy.means_toDatum l⟩ <|
    .cons ⟨rfl, s.optLevel.means_toDatum l⟩ <| .cons ⟨rfl, rfl⟩ <|
    .cons ⟨rfl, s.profiler.means_toDatum l⟩ <| .cons ⟨rfl, s.cache.means_pairs l⟩ <|
    .cons ⟨rfl, ?_⟩ .nil
  exact given_entry rfl fun p hp =>
    ⟨by simp [Entry.toDatum, object], PoolingSettings.means_pairs l (hpool p hp)⟩

theorem StoreSettings.means_entries (l : Leeway) {s : StoreSettings} (h : s.Fits) :
    Means l (Layout.toDatum (present s.entries)) s := by
  rw [layout_toDatum]
  exact .of_present describes.distinct (.cons ⟨rfl, given_nat rfl h⟩ .nil)

theorem StdioSetting.entry_toDatum (s : StdioSetting) : s.entry.toDatum = s.toDatum := by
  cases s <;> rfl

theorem WasiSettings.means_entries (l : Leeway) {s : WasiSettings} (h : s.Fits) :
    Means l (Layout.toDatum (present s.entries)) s := by
  have hstdio : ∀ x : StdioSetting, StdioSetting.Means l x.entry.toDatum x := by
    intro x
    rw [x.entry_toDatum]
    exact x.means_toDatum l
  rw [layout_toDatum]
  refine .of_present (distinct l) <| .cons ⟨rfl, rfl⟩ <| .cons ⟨rfl, meansList fun _ _ => rfl⟩ <|
    .cons ⟨rfl, rfl⟩ <| .cons ⟨rfl, meansSortedMap h⟩ <| .cons ⟨rfl, hstdio s.stdin⟩ <|
    .cons ⟨rfl, hstdio s.stdout⟩ <| .cons ⟨rfl, hstdio s.stderr⟩ <| .cons ⟨rfl, ?_⟩ .nil
  split_ifs with hp
  · exact hp
  · have hrows : (Entry.items (s.preopens.map fun p =>
        [("host", .string p.host), ("guest", .string p.guest)])).toDatum =
        .seq (s.preopens.map PreopenSetting.toDatum) := by
      rw [Entry.toDatum, List.map_map]
      rfl
    show MeansList (PreopenSetting.Means l) _ s.preopens
    rw [hrows]
    exact meansList fun p _ => p.means_toDatum l

theorem SettingsFile.means_tabular (l : Leeway) {s : SettingsFile} (h : s.Fits) :
    Means l s.tabular s := by
  rw [tabular, tables, map_present]
  refine .of_present (distinct l) <| .cons ⟨rfl, s.engine.means_entries l h.1⟩ <|
    .cons ⟨rfl, s.store.means_entries l h.2.1⟩ <| .cons ⟨rfl, ?_⟩ .nil
  exact given_entry rfl fun w hw =>
    ⟨by simp [Layout.toDatum, object], w.means_entries l (h.2.2 w hw)⟩

/-! ### They can be laid out -/

theorem layout_fits {es : List (String × Option Entry)} (hd : (es.map (·.1)).Nodup)
    (h : ∀ e ∈ es, ∀ x ∈ e.2, x.Fits) : Layout.Fits (present es) :=
  ⟨(keys_present es).nodup hd, fun _ he => h _ (mem_present.mp he) _ rfl⟩

open Toml (Plain Scalar)

theorem plain_bool (b : Bool) : Plain (.bool b) := .inl (.bool b)

theorem plain_string (t : String) : Plain (.string t) := .inl (.string t)

theorem plain_nat {n : Nat} (h : n < 2 ^ 63) : Plain (.ofNat n) := .inl (.nat h)

theorem Strategy.plain (s : Strategy) : Plain s.toDatum := by
  cases s <;> exact plain_string _

theorem OptLevel.plain (s : OptLevel) : Plain s.toDatum := by
  cases s <;> exact plain_string _

theorem Profiler.plain (s : Profiler) : Plain s.toDatum := by
  cases s <;> exact plain_string _

theorem FeatureSettings.row (s : FeatureSettings) : Entry.Row s.pairs := by
  simp [Entry.Row, pairs, plain_bool]

theorem PoolingSettings.row {s : PoolingSettings} (h : s.Fits) : Entry.Row s.pairs := by
  obtain ⟨hmax, hmem⟩ := h
  simp [Entry.Row, pairs, plain_nat (n := s.maxInstances) (by omega),
    plain_nat (n := s.instanceMemoryMb) (by omega)]

theorem CacheSettings.row (s : CacheSettings) : Entry.Row s.pairs := by
  refine ⟨(keys_present _).nodup (by simp), ?_⟩
  intro p hp
  have h := mem_present.mp hp
  simp only [List.mem_cons, Prod.mk.injEq, Option.some.injEq, List.not_mem_nil, or_false] at h
  rcases h with ⟨-, hd⟩ | ⟨-, hd⟩
  · rw [hd]
    exact plain_bool _
  · obtain ⟨path, -, hd⟩ := Option.map_eq_some_iff.mp hd.symm
    rw [← hd]
    exact plain_string path

theorem StdioSetting.entry_fits (s : StdioSetting) : s.entry.Fits := by
  cases s with
  | file path => exact ⟨by simp, by simp [plain_string]⟩
  | _ => exact plain_string _

section Options

variable {α : Type}

theorem fits_some {e : Entry} (h : e.Fits) : ∀ x ∈ some e, x.Fits := by
  rintro x hx
  cases hx
  exact h

theorem fits_map {o : Option α} {entry : α → Entry} (h : ∀ a ∈ o, (entry a).Fits) :
    ∀ x ∈ o.map entry, x.Fits := by
  intro x hx
  obtain ⟨a, ha, rfl⟩ := Option.map_eq_some_iff.mp hx
  exact h a ha

end Options

theorem EngineSettings.entries_fit {s : EngineSettings} (h : s.Fits)
    (hstack : Below (2 ^ 63) s.maxWasmStack) (hmax : Below (2 ^ 63) s.staticMemoryMaximumSize)
    (hguard : Below (2 ^ 63) s.staticMemoryGuardSize)
    (hdyn : Below (2 ^ 63) s.dynamicMemoryGuardSize) : Layout.Fits (present s.entries) := by
  refine layout_fits (by simp [entries]) ?_
  simp only [entries, List.mem_cons, List.not_mem_nil, or_false, forall_eq_or_imp, forall_eq]
  exact ⟨fits_some (plain_bool _), fits_some (plain_bool _), fits_some (plain_bool _),
    fits_map fun n hn => plain_nat (hstack n hn), fits_map fun n hn => plain_nat (hmax n hn),
    fits_map fun n hn => plain_nat (hguard n hn), fits_map fun n hn => plain_nat (hdyn n hn),
    fits_some s.features.row, fits_some s.strategy.plain, fits_some s.optLevel.plain,
    fits_some (plain_bool _), fits_some s.profiler.plain, fits_some s.cache.row,
    fits_map fun p hp => PoolingSettings.row (h.2.2.2.2 p hp)⟩

theorem StoreSettings.entries_fit {s : StoreSettings} (h : Below (2 ^ 63) s.initialFuel) :
    Layout.Fits (present s.entries) := by
  refine layout_fits (by simp [entries]) ?_
  simp only [entries, List.mem_singleton, forall_eq]
  exact fits_map fun n hn => plain_nat (h n hn)

theorem WasiSettings.entries_fit {s : WasiSettings} (h : s.Fits) :
    Layout.Fits (present s.entries) := by
  have hargs : Plain (.seq (s.args.map .string)) := by
    refine .inr ⟨_, rfl, ?_⟩
    rw [List.forall_mem_map]
    exact fun t _ => .string t
  have henv : Entry.Row (s.env.map fun (k, v) => (k, Datum.string v)) := by
    refine ⟨?_, ?_⟩
    · rw [List.map_map]
      exact h.distinct
    · rw [List.forall_mem_map]
      exact fun e _ => plain_string e.2
  refine layout_fits (by simp [entries]) ?_
  simp only [entries, List.mem_cons, List.not_mem_nil, or_false, forall_eq_or_imp, forall_eq]
  refine ⟨fits_some (plain_bool _), fits_some hargs, fits_some (plain_bool _), fits_some henv,
    fits_some s.stdin.entry_fits, fits_some s.stdout.entry_fits, fits_some s.stderr.entry_fits, ?_⟩
  split_ifs with hp
  · simp
  · refine fits_some ⟨by simpa using hp, ?_⟩
    rw [List.forall_mem_map]
    exact fun p _ => ⟨by simp, by simp [plain_string]⟩

theorem SettingsFile.isTabular {s : SettingsFile} (h : s.Fits) (hs : s.Small) :
    Toml.Tabular s.tabular := by
  obtain ⟨hstack, hmax, hguard, hdyn, hfuel⟩ := hs
  refine ⟨s.tables, rfl, (keys_present _).nodup (by simp), ?_⟩
  intro t ht
  have hmem := mem_present.mp ht
  simp only [List.mem_cons, Prod.mk.injEq, Option.some.injEq, List.not_mem_nil, or_false] at hmem
  rcases hmem with ⟨-, hes⟩ | ⟨-, hes⟩ | ⟨-, hes⟩
  · rw [hes]
    exact EngineSettings.entries_fit h.1 hstack hmax hguard hdyn
  · rw [hes]
    exact StoreSettings.entries_fit hfuel
  · obtain ⟨w, hw, hes⟩ := Option.map_eq_some_iff.mp hes.symm
    rw [← hes]
    exact WasiSettings.entries_fit (h.2.2 w hw)

/-! ## Both formats -/

theorem SettingsFile.ofText_document {d : Datum} {text : String} {s : SettingsFile}
    (hm : ∀ l, Means l d s) (ht : Toml.Document d text) : ofText text = .ok s := by
  obtain ⟨ss, d', hsays, hsays', hw, hread⟩ := Toml.read_document ht
  have hdec : ofDatum .toml d' = .ok s :=
    (decodes .toml d' s hw).mpr (means_of_sections hsays hsays' (hm _))
  rw [ofText, Datum.ofToml, hread]
  simp only [hdec]
  rfl

theorem SettingsFile.ofJson_text {d : Datum} {text : String} {s : SettingsFile}
    (hm : ∀ l, Means l d s) (ht : Json.Text d text) : Datum.ofJson ofDatum text = .ok s := by
  rw [ofJson_of_text ht]
  exact (decodes .json d s ht.isWhole).mpr (hm _)

/-- Settings with numbers of 63 bits have a datum of tables that means them, whatever the format.
Every such datum, with whichever members left out, has a document and an object; and every document
of it and every object give the settings. -/
theorem formats_agree (s : SettingsFile) (hf : s.Fits) (hs : s.Small) :
    (∃ d, Toml.Tabular d ∧ ∀ l, SettingsFile.Means l d s) ∧
    ∀ d, (∀ l, SettingsFile.Means l d s) →
      (Toml.Tabular d → (∃ text, Toml.Document d text) ∧ Json.Text d d.compact) ∧
      (∀ text, Toml.Document d text → SettingsFile.ofText text = .ok s) ∧
      ∀ text, Json.Text d text → Datum.ofJson SettingsFile.ofDatum text = .ok s := by
  constructor
  · exact ⟨s.tabular, SettingsFile.isTabular hf hs, fun l => SettingsFile.means_tabular l hf⟩
  · intro d hm
    refine ⟨?_, fun _ => SettingsFile.ofText_document hm, fun _ => SettingsFile.ofJson_text hm⟩
    exact fun ht => ⟨ht.exists_document, text_compact ht.printable⟩

/-- Fuel of 63 bits, a pool, an environment and a preopened directory. -/
theorem extreme_formats_agree :
    let s : SettingsFile :=
      { engine := { consumeFuel := true, features := { simd := false }, pooling := some {} },
        store := { initialFuel := some (2 ^ 63 - 1) },
        wasi := some { env := [("A", "1"), ("B", "\"\n")], stdin := .file "in",
                       preopens := [⟨".", "/"⟩] } }
    s.Fits ∧ s.Small ∧ ∃ toml json, SettingsFile.ofText toml = .ok s ∧
      Datum.ofJson SettingsFile.ofDatum json = .ok s := by
  intro s
  have hfits : s.Fits := by
    refine ⟨⟨?_, ?_, ?_, ?_, ?_⟩, ?_, ?_⟩ <;> intro k hk <;> cases hk
    · exact ⟨by decide, by decide⟩
    · decide
    · refine List.pairwise_pair.mpr (String.lt_iff_toList_lt.mpr ?_)
      decide
  have hsmall : s.Small := by
    refine ⟨?_, ?_, ?_, ?_, ?_⟩ <;> intro k hk <;> cases hk
    decide
  obtain ⟨⟨d, hd, hm⟩, hall⟩ := formats_agree s hfits hsmall
  obtain ⟨hwritten, htoml, hjson⟩ := hall d hm
  obtain ⟨⟨text, htext⟩, hcompact⟩ := hwritten hd
  exact ⟨hfits, hsmall, text, d.compact, htoml text htext, hjson d.compact hcompact⟩

end WasmHost

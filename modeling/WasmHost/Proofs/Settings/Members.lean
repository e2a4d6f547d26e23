import WasmHost.Settings.Decode
import WasmHost.Proofs.Datum.RecordMeaning

/-!
# What data mean as settings

The members of every kind of settings, and with them what a datum means as settings: a member that
is missing has its default, one that is there has what its datum means, and no other matters. The
decoders give exactly that, in either dialect.
-/

namespace WasmHost

open Datum

/-! ## Records of scalars -/

def FeatureSettings.members : List (Member FeatureSettings) :=
  [ ⟨"threads", MeansBool, (·.threads), fun b s => { s with threads := b }⟩,
    ⟨"reference_types", MeansBool, (·.referenceTypes), fun b s => { s with referenceTypes := b }⟩,
    ⟨"simd", MeansBool, (·.simd), fun b s => { s with simd := b }⟩,
    ⟨"bulk_memory", MeansBool, (·.bulkMemory), fun b s => { s with bulkMemory := b }⟩,
    ⟨"multi_value", MeansBool, (·.multiValue), fun b s => { s with multiValue := b }⟩ ]

def CacheSettings.members : List (Member CacheSettings) :=
  [ ⟨"enabled", MeansBool, (·.enabled), fun b s => { s with enabled := b }⟩,
    ⟨"config_path", MeansOption MeansText, (·.configPath), fun p s => { s with configPath := p }⟩ ]

def PoolingSettings.members : List (Member PoolingSettings) :=
  [ ⟨"max_instances", MeansNat (2 ^ 32), (·.maxInstances), fun n s => { s with maxInstances := n }⟩,
    ⟨"instance_memory_mb", MeansNat (2 ^ 32), (·.instanceMemoryMb),
      fun n s => { s with instanceMemoryMb := n }⟩ ]

def StoreSettings.members : List (Member StoreSettings) :=
  [ ⟨"initial_fuel", MeansOption (MeansNat (2 ^ 64)), (·.initialFuel),
      fun n s => { s with initialFuel := n }⟩ ]

/-- What a datum means as feature settings. -/
def FeatureSettings.Means (l : Leeway) : Datum → FeatureSettings → Prop := MeansRecord l members {}

/-- What a datum means as cache settings. -/
def CacheSettings.Means (l : Leeway) : Datum → CacheSettings → Prop := MeansRecord l members {}

/-- What a datum means as pooling settings. -/
def PoolingSettings.Means (l : Leeway) : Datum → PoolingSettings → Prop := MeansRecord l members {}

/-- What a datum means as store settings. -/
def StoreSettings.Means (l : Leeway) : Datum → StoreSettings → Prop := MeansRecord l members {}

theorem decodes_toU64 : Decodes toU64 (MeansNat (2 ^ 64)) := decodes_toNat "u64" (by decide)

theorem decodes_toSize : Decodes toSize (MeansNat (2 ^ 64)) := decodes_toNat "usize" (by decide)

theorem decodes_toU32 : Decodes toU32 (MeansNat (2 ^ 32)) := decodes_toNat "u32" (by decide)

theorem FeatureSettings.describes : Describes members record where
  serves := .cons (.of decodes_toBool) (.cons (.of decodes_toBool) (.cons (.of decodes_toBool)
    (.cons (.of decodes_toBool) (.cons (.of decodes_toBool) .nil))))
  distinct := by decide
  get_put := by simp [members]
  apart := by simp [members]
  ext := by
    rintro ⟨⟩ ⟨⟩ h
    simp_all [members]

theorem CacheSettings.describes : Describes members record where
  serves := .cons (.of decodes_toBool) (.cons (.of (decodes_toOption decodes_toText)) .nil)
  distinct := by decide
  get_put := by simp [members]
  apart := by simp [members]
  ext := by
    rintro ⟨⟩ ⟨⟩ h
    simp_all [members]

theorem PoolingSettings.describes : Describes members record where
  serves := .cons (.of decodes_toU32) (.cons (.of decodes_toU32) .nil)
  distinct := by decide
  get_put := by simp [members]
  apart := by simp [members]
  ext := by
    rintro ⟨⟩ ⟨⟩ h
    simp_all [members]

theorem StoreSettings.describes : Describes members record where
  serves := .cons (.of (decodes_toOption decodes_toU64)) .nil
  distinct := by decide
  get_put := by simp [members]
  apart := by simp [members]
  ext := by
    rintro ⟨⟩ ⟨⟩ h
    simp_all [members]

theorem FeatureSettings.decodes (dialect : Dialect) :
    Decodes (ofDatum dialect) (Means dialect.leeway) := decodes_record describes dialect {}

theorem CacheSettings.decodes (dialect : Dialect) :
    Decodes (ofDatum dialect) (Means dialect.leeway) := decodes_record describes dialect {}

theorem PoolingSettings.decodes (dialect : Dialect) :
    Decodes (ofDatum dialect) (Means dialect.leeway) := decodes_record describes dialect {}

theorem StoreSettings.decodes (dialect : Dialect) :
    Decodes (ofDatum dialect) (Means dialect.leeway) := decodes_record describes dialect {}

/-! ## Engine settings -/

/-- What a datum means as a strategy. -/
def Strategy.Means (l : Leeway) : Datum → Strategy → Prop := MeansChoice l choices

/-- What a datum means as an optimisation level. -/
def OptLevel.Means (l : Leeway) : Datum → OptLevel → Prop := MeansChoice l choices

/-- What a datum means as a profiler. -/
def Profiler.Means (l : Leeway) : Datum → Profiler → Prop := MeansChoice l choices

def EngineSettings.members (l : Leeway) : List (Member EngineSettings) :=
  [ ⟨"debug_info", MeansBool, (·.debugInfo), fun b s => { s with debugInfo := b }⟩,
    ⟨"consume_fuel", MeansBool, (·.consumeFuel), fun b s => { s with consumeFuel := b }⟩,
    ⟨"interruptable", MeansBool, (·.interruptable), fun b s => { s with interruptable := b }⟩,
    ⟨"max_wasm_stack", MeansOption (MeansNat (2 ^ 64)), (·.maxWasmStack),
      fun n s => { s with maxWasmStack := n }⟩,
    ⟨"static_memory_maximum_size", MeansOption (MeansNat (2 ^ 64)), (·.staticMemoryMaximumSize),
      fun n s => { s with staticMemoryMaximumSize := n }⟩,
    ⟨"static_memory_guard_size", MeansOption (MeansNat (2 ^ 64)), (·.staticMemoryGuardSize),
      fun n s => { s with staticMemoryGuardSize := n }⟩,
    ⟨"dynamic_memory_guard_size", MeansOption (MeansNat (2 ^ 64)), (·.dynamicMemoryGuardSize),
      fun n s => { s with dynamicMemoryGuardSize := n }⟩,
    ⟨"features", FeatureSettings.Means l, (·.features), fun f s => { s with features := f }⟩,
    ⟨"strategy", Strategy.Means l, (·.strategy), fun x s => { s with strategy := x }⟩,
    ⟨"opt_level", OptLevel.Means l, (·.optLevel), fun x s => { s with optLevel := x }⟩,
    ⟨"cranelift_debug_verifier", MeansBool, (·.debugVerifier),
      fun b s => { s with debugVerifier := b }⟩,
    ⟨"profiler", Profiler.Means l, (·.profiler), fun x s => { s with profiler := x }⟩,
    ⟨"cache", CacheSettings.Means l, (·.cache), fun c s => { s with cache := c }⟩,
    ⟨"pooling", MeansOption (PoolingSettings.Means l), (·.pooling),
      fun p s => { s with pooling := p }⟩ ]

/-- What a datum means as engine settings. -/
def EngineSettings.Means (l : Leeway) : Datum → EngineSettings → Prop :=
  MeansRecord l (members l) {}

theorem Strategy.decodes (dialect : Dialect) : Decodes (ofDatum dialect) (Means dialect.leeway) :=
  decodes_toChoice dialect choices

theorem OptLevel.decodes (dialect : Dialect) : Decodes (ofDatum dialect) (Means dialect.leeway) :=
  decodes_toChoice dialect choices

theorem Profiler.decodes (dialect : Dialect) : Decodes (ofDatum dialect) (Means dialect.leeway) :=
  decodes_toChoice dialect choices

theorem EngineSettings.describes (dialect : Dialect) :
    Describes (members dialect.leeway) (record dialect) where
  serves :=
    .cons (.of decodes_toBool) <| .cons (.of decodes_toBool) <| .cons (.of decodes_toBool) <|
    .cons (.of (decodes_toOption decodes_toSize)) <| .cons (.of (decodes_toOption decodes_toU64)) <|
    .cons (.of (decodes_toOption decodes_toU64)) <| .cons (.of (decodes_toOption decodes_toU64)) <|
    .cons (.of (FeatureSettings.decodes dialect)) <| .cons (.of (Strategy.decodes dialect)) <|
    .cons (.of (OptLevel.decodes dialect)) <| .cons (.of decodes_toBool) <|
    .cons (.of (Profiler.decodes dialect)) <| .cons (.of (CacheSettings.decodes dialect)) <|
    .cons (.of (decodes_toOption (PoolingSettings.decodes dialect))) .nil
  distinct := by simp [names, members]
  get_put := by simp [members]
  apart := by simp [members]
  ext := by
    rintro ⟨⟩ ⟨⟩ h
    simp_all [members]

theorem EngineSettings.decodes (dialect : Dialect) :
    Decodes (ofDatum dialect) (Means dialect.leeway) :=
  decodes_record (describes dialect) dialect {}

/-! ## System settings -/

/-- What a datum means as the setting of a stream. A file has its path as its content. -/
def StdioSetting.Means (l : Leeway) (d : Datum) : StdioSetting → Prop
  | null => d.IsName l "null"
  | .inherit => d.IsName l "inherit"
  | file path => d = .map [(.string "file", .string path)]

theorem StdioSetting.ofVariant_eq_ok (dialect : Dialect) (v : Variant) (s : StdioSetting) :
    ofVariant dialect v = .ok s ↔
      if v.name = "file" then ∃ path, v.content = some (.string path) ∧ s = file path
      else (∀ c ∈ v.content, dialect.leeway.Unit c) ∧
        s = if v.name = "null" then null else .inherit := by
  unfold ofVariant
  split_ifs with hf
  · cases hc : v.content with
    | none => simp [complain]
    | some c => cases c <;> simp [toText, mismatch, complain, Except.map, eq_comm]
  all_goals
    rw [bind_eq_ok, ← checkUnit_eq_ok]
    constructor
    · rintro ⟨_, hu, heq⟩
      exact ⟨hu, (Except.ok.inj heq).symm⟩
    · rintro ⟨hu, rfl⟩
      exact ⟨(), hu, rfl⟩

theorem StdioSetting.decodes (dialect : Dialect) :
    Decodes (ofDatum dialect) (Means dialect.leeway) := by
  intro d s _
  have hcases : ofDatum dialect d = .ok s ↔ ∃ v, (v.name ∈ StdioSetting.names ∧ v.IsWritten d) ∧
      ofVariant dialect v = .ok s := by
    simp only [ofDatum, bind_eq_ok, ← toVariant_eq_ok dialect]
    constructor
    · rintro ⟨⟨v, rest⟩, hv, s', hs, _, rfl, heq⟩
      cases heq
      exact ⟨v, hv, hs⟩
    · rintro ⟨v, hv, hs⟩
      exact ⟨(v, .ok ()), hv, s, hs, (), rfl, rfl⟩
  rw [hcases]
  simp only [ofVariant_eq_ok]
  constructor
  · rintro ⟨⟨name, content⟩, ⟨hn, hw⟩, h⟩
    simp only [StdioSetting.names, List.mem_cons, List.not_mem_nil, or_false] at hn
    rcases hn with rfl | rfl | rfl
    · obtain ⟨hu, rfl⟩ : (∀ c ∈ content, dialect.leeway.Unit c) ∧ s = null := by simpa using h
      exact (isName_iff _ _ _).mpr ⟨content, hw, hu⟩
    · obtain ⟨hu, rfl⟩ : (∀ c ∈ content, dialect.leeway.Unit c) ∧ s = .inherit := by simpa using h
      exact (isName_iff _ _ _).mpr ⟨content, hw, hu⟩
    · obtain ⟨path, rfl, rfl⟩ : ∃ path, content = some (.string path) ∧ s = file path := by
        simpa using h
      exact hw
  · intro h
    cases s with
    | null =>
      obtain ⟨content, hw, hu⟩ := (isName_iff _ _ _).mp h
      exact ⟨⟨"null", content⟩, ⟨by simp [names], hw⟩, by simpa using hu⟩
    | «inherit» =>
      obtain ⟨content, hw, hu⟩ := (isName_iff _ _ _).mp h
      exact ⟨⟨"inherit", content⟩, ⟨by simp [names], hw⟩, by simpa using hu⟩
    | file path => exact ⟨⟨"file", some (.string path)⟩, ⟨by simp [names], h⟩, path, rfl, rfl⟩

/-- The members of a preopened directory. A member that is missing is none. -/
def PreopenSetting.members : List (Member (Option String × Option String)) :=
  [ ⟨"host", fun d v => ∃ s, MeansText d s ∧ v = some s, Prod.fst, fun v p => (v, p.2)⟩,
    ⟨"guest", fun d v => ∃ s, MeansText d s ∧ v = some s, Prod.snd, fun v p => (p.1, v)⟩ ]

/-- What a datum means as a preopened directory: it must have both members. -/
def PreopenSetting.Means (l : Leeway) (d : Datum) (p : PreopenSetting) : Prop :=
  MeansRecord l members (none, none) d (some p.host, some p.guest)

theorem Datum.Field.Serves.of_some {α : Type} {name : String} {put : Option String → α → α}
    {get : α → Option String} :
    (Field.of name toText fun s => put (some s)).Serves
      ⟨name, fun d v => ∃ s, MeansText d s ∧ v = some s, get, put⟩ := by
  refine ⟨rfl, ?_⟩
  intro d change _
  cases d <;> simp [Field.of, toText, mismatch, complain, MeansText, Except.map, eq_comm]

theorem PreopenSetting.describes : Describes members record where
  serves := .cons .of_some (.cons .of_some .nil)
  distinct := by decide
  get_put := by simp [members]
  apart := by simp [members]
  ext := by
    rintro ⟨⟩ ⟨⟩ h
    simp_all [members]

/-- What the two fields of a preopened directory give when nothing else is left to read. -/
def PreopenSetting.ofFields : Option String × Option String → Decoded PreopenSetting
  | (none, _) => complain (.missingField "host")
  | (some _, none) => complain (.missingField "guest")
  | (some host, some guest) => return { host, guest }

theorem PreopenSetting.ofFields_eq_ok {fields : Option String × Option String}
    {p : PreopenSetting} (h : ofFields fields = .ok p) : fields = (some p.host, some p.guest) := by
  obtain ⟨_ | host, _ | guest⟩ := fields <;> cases h
  rfl

theorem PreopenSetting.ofDatum_eq_ok (dialect : Dialect) (d : Datum) (p : PreopenSetting) :
    ofDatum dialect d = .ok p ↔
      record.decode dialect (none, none) d = .ok (some p.host, some p.guest) := by
  have hother : (record.decode dialect (none, none) d >>= ofFields) = .ok p ↔
      record.decode dialect (none, none) d = .ok (some p.host, some p.guest) := by
    rw [bind_eq_ok]
    constructor
    · rintro ⟨fields, hd, h⟩
      rwa [ofFields_eq_ok h] at hd
    · exact fun hd => ⟨_, hd, rfl⟩
  cases d with
  | seq items =>
    simp only [ofDatum, Record.decode, entries?, bind_eq_ok]
    constructor
    · rintro ⟨⟨⟨host, guest⟩, rest⟩, hi, h⟩
      rcases host with _ | host
      · cases h
      rcases guest with _ | guest
      · cases h
      obtain ⟨_, hc, heq⟩ := bind_eq_ok.mp h
      cases heq
      exact ⟨_, hi, (), hc, rfl⟩
    · rintro ⟨⟨fields, rest⟩, hi, _, hc, heq⟩
      cases heq
      exact ⟨_, hi, bind_eq_ok.mpr ⟨(), hc, rfl⟩⟩
  | _ => exact hother

theorem PreopenSetting.decodes (dialect : Dialect) :
    Decodes (ofDatum dialect) (Means dialect.leeway) := by
  intro d p hw
  rw [ofDatum_eq_ok]
  exact decodes_record describes dialect (none, none) d (some p.host, some p.guest) hw

def WasiSettings.members (l : Leeway) : List (Member WasiSettings) :=
  [ ⟨"inherit_args", MeansBool, (·.inheritArgs), fun b s => { s with inheritArgs := b }⟩,
    ⟨"args", MeansList MeansText, (·.args), fun a s => { s with args := a }⟩,
    ⟨"inherit_env", MeansBool, (·.inheritEnv), fun b s => { s with inheritEnv := b }⟩,
    ⟨"env", MeansSortedMap MeansText, (·.env), fun e s => { s with env := e }⟩,
    ⟨"stdin", StdioSetting.Means l, (·.stdin), fun x s => { s with stdin := x }⟩,
    ⟨"stdout", StdioSetting.Means l, (·.stdout), fun x s => { s with stdout := x }⟩,
    ⟨"stderr", StdioSetting.Means l, (·.stderr), fun x s => { s with stderr := x }⟩,
    ⟨"preopens", MeansList (PreopenSetting.Means l), (·.preopens),
      fun p s => { s with preopens := p }⟩ ]

/-- What a datum means as system settings. -/
def WasiSettings.Means (l : Leeway) : Datum → WasiSettings → Prop := MeansRecord l (members l) {}

theorem WasiSettings.describes (dialect : Dialect) :
    Describes (members dialect.leeway) (record dialect) where
  serves :=
    .cons (.of decodes_toBool) <| .cons (.of (decodes_toList decodes_toText)) <|
    .cons (.of decodes_toBool) <| .cons (.of (decodes_toSortedMap decodes_toText)) <|
    .cons (.of (StdioSetting.decodes dialect)) <| .cons (.of (StdioSetting.decodes dialect)) <|
    .cons (.of (StdioSetting.decodes dialect)) <|
    .cons (.of (decodes_toList (PreopenSetting.decodes dialect))) .nil
  distinct := by simp [names, members]
  get_put := by simp [members]
  apart := by simp [members]
  ext := by
    rintro ⟨⟩ ⟨⟩ h
    simp_all [members]

theorem WasiSettings.decodes (dialect : Dialect) :
    Decodes (ofDatum dialect) (Means dialect.leeway) :=
  decodes_record (describes dialect) dialect {}

/-! ## Settings files -/

def SettingsFile.members (l : Leeway) : List (Member SettingsFile) :=
  [ ⟨"engine", EngineSettings.Means l, (·.engine), fun e s => { s with engine := e }⟩,
    ⟨"store", StoreSettings.Means l, (·.store), fun x s => { s with store := x }⟩,
    ⟨"wasi", MeansOption (WasiSettings.Means l), (·.wasi), fun w s => { s with wasi := w }⟩ ]

/-- What a datum means as the content of a settings file. -/
def SettingsFile.Means (l : Leeway) : Datum → SettingsFile → Prop := MeansRecord l (members l) {}

theorem SettingsFile.describes (dialect : Dialect) :
    Describes (members dialect.leeway) (record dialect) where
  serves :=
    .cons (.of (EngineSettings.decodes dialect)) <| .cons (.of (StoreSettings.decodes dialect)) <|
    .cons (.of (decodes_toOption (WasiSettings.decodes dialect))) .nil
  distinct := by simp [names, members]
  get_put := by simp [members]
  apart := by simp [members]
  ext := by
    rintro ⟨⟩ ⟨⟩ h
    simp_all [members]

theorem SettingsFile.decodes (dialect : Dialect) :
    Decodes (ofDatum dialect) (Means dialect.leeway) :=
  decodes_record (describes dialect) dialect {}

end WasmHost

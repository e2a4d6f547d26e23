import WasmHost.Settings.Decode

/-!
# Settings as data

Every field is written, in the order of declaration; a missing value is written as null.
-/

namespace WasmHost

/-- The name of a choice. -/
def Datum.ofChoice {α : Type} [DecidableEq α] (choices : List (String × α)) (a : α) : Datum :=
  match choices.find? (·.2 = a) with
  | some (name, _) => .string name
  | none => .null

/-- A whole number. -/
def Datum.ofNat (n : Nat) : Datum := .int n

/-- A strategy by its name. -/
def Strategy.toDatum : Strategy → Datum := Datum.ofChoice choices

/-- An optimisation level by its name. -/
def OptLevel.toDatum : OptLevel → Datum := Datum.ofChoice choices

/-- A profiler by its name. -/
def Profiler.toDatum : Profiler → Datum := Datum.ofChoice choices

/-- Feature settings as data. -/
def FeatureSettings.toDatum (s : FeatureSettings) : Datum := .object
  [ ("threads", .bool s.threads),
    ("reference_types", .bool s.referenceTypes),
    ("simd", .bool s.simd),
    ("bulk_memory", .bool s.bulkMemory),
    ("multi_value", .bool s.multiValue) ]

/-- Cache settings as data. -/
def CacheSettings.toDatum (s : CacheSettings) : Datum := .object
  [ ("enabled", .bool s.enabled), ("config_path", .optional .string s.configPath) ]

/-- Pooling settings as data. -/
def PoolingSettings.toDatum (s : PoolingSettings) : Datum := .object
  [ ("max_instances", .ofNat s.maxInstances), ("instance_memory_mb", .ofNat s.instanceMemoryMb) ]

/-- Engine settings as data. -/
def EngineSettings.toDatum (s : EngineSettings) : Datum := .object
  [ ("debug_info", .bool s.debugInfo),
    ("consume_fuel", .bool s.consumeFuel),
    ("interruptable", .bool s.interruptable),
    ("max_wasm_stack", .optional .ofNat s.maxWasmStack),
    ("static_memory_maximum_size", .optional .ofNat s.staticMemoryMaximumSize),
    ("static_memory_guard_size", .optional .ofNat s.staticMemoryGuardSize),
    ("dynamic_memory_guard_size", .optional .ofNat s.dynamicMemoryGuardSize),
    ("features", s.features.toDatum),
    ("strategy", s.strategy.toDatum),
    ("opt_level", s.optLevel.toDatum),
    ("cranelift_debug_verifier", .bool s.debugVerifier),
    ("profiler", s.profiler.toDatum),
    ("cache", s.cache.toDatum),
    ("pooling", .optional PoolingSettings.toDatum s.pooling) ]

/-- Store settings as data. -/
def StoreSettings.toDatum (s : StoreSettings) : Datum := .object
  [ ("initial_fuel", .optional .ofNat s.initialFuel) ]

/-- A stream setting as data. -/
def StdioSetting.toDatum : StdioSetting → Datum
  | null => .string "null"
  | .inherit => .string "inherit"
  | file path => .object [("file", .string path)]

/-- A preopened directory as data. -/
def PreopenSetting.toDatum (s : PreopenSetting) : Datum := .object
  [ ("host", .string s.host), ("guest", .string s.guest) ]

/-- System settings as data. -/
def WasiSettings.toDatum (s : WasiSettings) : Datum := .object
  [ ("inherit_args", .bool s.inheritArgs),
    ("args", .seq (s.args.map .string)),
    ("inherit_env", .bool s.inheritEnv),
    ("env", .object (s.env.map fun (k, v) => (k, .string v))),
    ("stdin", s.stdin.toDatum),
    ("stdout", s.stdout.toDatum),
    ("stderr", s.stderr.toDatum),
    ("preopens", .seq (s.preopens.map PreopenSetting.toDatum)) ]

/-- A settings file as data. -/
def SettingsFile.toDatum (s : SettingsFile) : Datum := .object
  [ ("engine", s.engine.toDatum),
    ("store", s.store.toDatum),
    ("wasi", .optional WasiSettings.toDatum s.wasi) ]

end WasmHost

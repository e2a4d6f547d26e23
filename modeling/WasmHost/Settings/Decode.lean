import WasmHost.Settings
import WasmHost.Datum.Decode
import WasmHost.Datum.Json
import WasmHost.Datum.Toml

/-!
# Settings from text

One decoder for each kind of settings, from either text format. `ofJson` and `ofToml` insist on a
whole text.

What a field is when the text does not have it is said field by field in `absent`. It is not taken
from the defaults of the record: those are another list.
-/

namespace WasmHost

open Datum (Decoded Dialect Field Record Refusal)

/-- A whole number of 64 bits. -/
def Datum.toU64 : Datum → Decoded Nat := Datum.toNat "u64" (twoTo 64 - 1)

/-- A size in memory. -/
def Datum.toSize : Datum → Decoded Nat := Datum.toNat "usize" (twoTo 64 - 1)

/-- A whole number of 32 bits. -/
def Datum.toU32 : Datum → Decoded Nat := Datum.toNat "u32" (twoTo 32 - 1)

/-- The strategies by name. -/
def Strategy.choices : List (String × Strategy) :=
  [("auto", .auto), ("cranelift", .cranelift), ("winch", .winch)]

/-- The optimisation levels by name. -/
def OptLevel.choices : List (String × OptLevel) :=
  [("none", .none), ("speed", .speed), ("speed_and_size", .speedAndSize)]

/-- The profilers by name. -/
def Profiler.choices : List (String × Profiler) :=
  [("none", .none), ("perfmap", .perfMap), ("jitdump", .jitDump), ("vtune", .vTune)]

/-- Feature settings of which the text has no field. -/
def FeatureSettings.absent : FeatureSettings where
  threads := false
  referenceTypes := Defaults.enabled
  simd := Defaults.enabled
  bulkMemory := Defaults.enabled
  multiValue := Defaults.enabled

/-- The fields of the feature settings. -/
def FeatureSettings.record : Record FeatureSettings where
  name := "FeatureSettings"
  fields :=
    [ .of "threads" Datum.toBool fun b s => { s with threads := b },
      .of "reference_types" Datum.toBool fun b s => { s with referenceTypes := b },
      .of "simd" Datum.toBool fun b s => { s with simd := b },
      .of "bulk_memory" Datum.toBool fun b s => { s with bulkMemory := b },
      .of "multi_value" Datum.toBool fun b s => { s with multiValue := b } ]

/-- Cache settings of which the text has no field. -/
def CacheSettings.absent : CacheSettings where
  enabled := false
  configPath := none

/-- The fields of the cache settings. -/
def CacheSettings.record : Record CacheSettings where
  name := "CacheSettings"
  fields :=
    [ .of "enabled" Datum.toBool fun b s => { s with enabled := b },
      .of "config_path" (Datum.toOption Datum.toText) fun p s => { s with configPath := p } ]

/-- Pooling settings of which the text has no field. -/
def PoolingSettings.absent : PoolingSettings where
  maxInstances := Defaults.maxInstances
  instanceMemoryMb := Defaults.instanceMemoryMb

/-- The fields of the pooling settings. -/
def PoolingSettings.record : Record PoolingSettings where
  name := "PoolingSettings"
  fields :=
    [ .of "max_instances" Datum.toU32 fun n s => { s with maxInstances := n },
      .of "instance_memory_mb" Datum.toU32 fun n s => { s with instanceMemoryMb := n } ]

/-- Engine settings of which the text has no field. A record in it that is absent as a whole has the
defaults of its own. -/
def EngineSettings.absent : EngineSettings where
  debugInfo := false
  consumeFuel := false
  interruptable := false
  maxWasmStack := none
  staticMemoryMaximumSize := none
  staticMemoryGuardSize := none
  dynamicMemoryGuardSize := none
  features := {}
  strategy := .auto
  optLevel := .speed
  debugVerifier := false
  profiler := .none
  cache := {}
  pooling := none

/-- The fields of the engine settings. -/
def EngineSettings.record (dialect : Dialect) : Record EngineSettings where
  name := "EngineSettings"
  fields :=
    [ .of "debug_info" Datum.toBool fun b s => { s with debugInfo := b },
      .of "consume_fuel" Datum.toBool fun b s => { s with consumeFuel := b },
      .of "interruptable" Datum.toBool fun b s => { s with interruptable := b },
      .of "max_wasm_stack" (Datum.toOption Datum.toSize) fun n s => { s with maxWasmStack := n },
      .of "static_memory_maximum_size" (Datum.toOption Datum.toU64)
        fun n s => { s with staticMemoryMaximumSize := n },
      .of "static_memory_guard_size" (Datum.toOption Datum.toU64)
        fun n s => { s with staticMemoryGuardSize := n },
      .of "dynamic_memory_guard_size" (Datum.toOption Datum.toU64)
        fun n s => { s with dynamicMemoryGuardSize := n },
      .of "features" (FeatureSettings.record.decode dialect .absent)
        fun f s => { s with features := f },
      .of "strategy" (Datum.toChoice dialect Strategy.choices) fun x s => { s with strategy := x },
      .of "opt_level" (Datum.toChoice dialect OptLevel.choices) fun x s => { s with optLevel := x },
      .of "cranelift_debug_verifier" Datum.toBool fun b s => { s with debugVerifier := b },
      .of "profiler" (Datum.toChoice dialect Profiler.choices) fun x s => { s with profiler := x },
      .of "cache" (CacheSettings.record.decode dialect .absent) fun c s => { s with cache := c },
      .of "pooling" (Datum.toOption (PoolingSettings.record.decode dialect .absent))
        fun p s => { s with pooling := p } ]

/-- Store settings of which the text has no field. -/
def StoreSettings.absent : StoreSettings where
  initialFuel := none

/-- The fields of the store settings. -/
def StoreSettings.record : Record StoreSettings where
  name := "StoreSettings"
  fields :=
    [ .of "initial_fuel" (Datum.toOption Datum.toU64) fun n s => { s with initialFuel := n } ]

/-- The names of the stream settings. -/
def StdioSetting.names : List String := ["null", "inherit", "file"]

/-- The setting that a choice stands for: only a file has content. -/
def StdioSetting.ofVariant (dialect : Dialect) (v : Datum.Variant) : Decoded StdioSetting :=
  if v.name = "file" then
    match v.content with
    | none => Datum.complain (.invalidType .unitVariant "newtype variant")
    | some path => (Datum.toText path).map file
  else do
    Datum.checkUnit dialect v.content
    return if v.name = "null" then null else .inherit

/-- Where a stream leads: a name alone, or a file with its path. -/
def StdioSetting.ofDatum (dialect : Dialect) (d : Datum) : Decoded StdioSetting := do
  let (v, rest) ← Datum.toVariant dialect names d
  let setting ← ofVariant dialect v
  rest
  return setting

/-- The fields of a preopened directory while they are being read. -/
def PreopenSetting.record : Record (Option String × Option String) where
  name := "PreopenSetting"
  fields :=
    [ .of "host" Datum.toText fun s p => (some s, p.2),
      .of "guest" Datum.toText fun s p => (p.1, some s) ]

/-- A preopened directory. It has no defaults: a list must have both fields, and of two that a map
lacks the first is named. -/
def PreopenSetting.ofDatum (dialect : Dialect) (d : Datum) : Decoded PreopenSetting :=
  match d with
  | .seq items => do
    let (fields, rest) ← Record.decodeItems record.fields (none, none) items
    match fields with
    | (some host, some guest) => do
      Record.checkRest dialect rest
      return { host, guest }
    | _ =>
      Datum.complain (.invalidLength items.length (record.expectation ++ " with 2 elements"))
  | d => do
    match ← record.decode dialect (none, none) d with
    | (none, _) => Datum.complain (.missingField "host")
    | (some _, none) => Datum.complain (.missingField "guest")
    | (some host, some guest) => return { host, guest }

/-- System settings of which the text has no field. -/
def WasiSettings.absent : WasiSettings where
  inheritArgs := false
  args := []
  inheritEnv := false
  env := []
  stdin := .null
  stdout := .null
  stderr := .null
  preopens := []

/-- The fields of the system settings. -/
def WasiSettings.record (dialect : Dialect) : Record WasiSettings where
  name := "WasiSettings"
  fields :=
    [ .of "inherit_args" Datum.toBool fun b s => { s with inheritArgs := b },
      .of "args" (Datum.toList Datum.toText) fun a s => { s with args := a },
      .of "inherit_env" Datum.toBool fun b s => { s with inheritEnv := b },
      .of "env" (Datum.toSortedMap Datum.toText) fun e s => { s with env := e },
      .of "stdin" (StdioSetting.ofDatum dialect) fun x s => { s with stdin := x },
      .of "stdout" (StdioSetting.ofDatum dialect) fun x s => { s with stdout := x },
      .of "stderr" (StdioSetting.ofDatum dialect) fun x s => { s with stderr := x },
      .of "preopens" (Datum.toList (PreopenSetting.ofDatum dialect))
        fun p s => { s with preopens := p } ]

/-- A settings file of which the text has no field. -/
def SettingsFile.absent : SettingsFile where
  engine := {}
  store := {}
  wasi := none

/-- The fields of a settings file. -/
def SettingsFile.record (dialect : Dialect) : Record SettingsFile where
  name := "SettingsFile"
  fields :=
    [ .of "engine" ((EngineSettings.record dialect).decode dialect .absent)
        fun e s => { s with engine := e },
      .of "store" (StoreSettings.record.decode dialect .absent) fun x s => { s with store := x },
      .of "wasi" (Datum.toOption ((WasiSettings.record dialect).decode dialect .absent))
        fun w s => { s with wasi := w } ]

/-- Strategies as settings. -/
def Strategy.ofDatum (dialect : Dialect) : Datum → Decoded Strategy :=
  Datum.toChoice dialect Strategy.choices

/-- Optimisation levels as settings. -/
def OptLevel.ofDatum (dialect : Dialect) : Datum → Decoded OptLevel :=
  Datum.toChoice dialect OptLevel.choices

/-- Profilers as settings. -/
def Profiler.ofDatum (dialect : Dialect) : Datum → Decoded Profiler :=
  Datum.toChoice dialect Profiler.choices

/-- Feature settings; what is missing has its default. -/
def FeatureSettings.ofDatum (dialect : Dialect) : Datum → Decoded FeatureSettings :=
  FeatureSettings.record.decode dialect .absent

/-- Cache settings; what is missing has its default. -/
def CacheSettings.ofDatum (dialect : Dialect) : Datum → Decoded CacheSettings :=
  CacheSettings.record.decode dialect .absent

/-- Pooling settings; what is missing has its default. -/
def PoolingSettings.ofDatum (dialect : Dialect) : Datum → Decoded PoolingSettings :=
  PoolingSettings.record.decode dialect .absent

/-- Engine settings; what is missing has its default. -/
def EngineSettings.ofDatum (dialect : Dialect) : Datum → Decoded EngineSettings :=
  (EngineSettings.record dialect).decode dialect .absent

/-- Store settings; what is missing has its default. -/
def StoreSettings.ofDatum (dialect : Dialect) : Datum → Decoded StoreSettings :=
  StoreSettings.record.decode dialect .absent

/-- System settings; what is missing has its default. -/
def WasiSettings.ofDatum (dialect : Dialect) : Datum → Decoded WasiSettings :=
  (WasiSettings.record dialect).decode dialect .absent

/-- A settings file; what is missing has its default. -/
def SettingsFile.ofDatum (dialect : Dialect) : Datum → Decoded SettingsFile :=
  (SettingsFile.record dialect).decode dialect .absent

/-- Decodes a JSON text. What follows the value is looked at last. -/
def Datum.ofJson {α : Type} (decode : Dialect → Datum → Decoded α) (text : String) : Decoded α := do
  let (d, atEnd) := Datum.Json.read text
  let a ← decode .json d
  if atEnd then return a else .error .malformed

/-- Decodes a TOML document. -/
def Datum.ofToml {α : Type} (decode : Dialect → Datum → Decoded α) (text : String) : Decoded α :=
  match Datum.Toml.read text with
  | none => .error .malformed
  | some d => decode .toml d

end WasmHost

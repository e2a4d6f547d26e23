import WasmHost.Error
import WasmHost.FileSystem
import WasmHost.Settings.Decode

/-!
# Engine configuration

A `Config` gathers what an engine is made with. Each setter replaces one option; a setter that is
refused leaves everything as it was. The guard size is one option that two setters share: it is the
larger of what they last asked for.
-/

namespace WasmHost

/-- Which code cache is used. -/
inductive CacheChoice where
  | off
  | standard
  | file (path : String)
deriving DecidableEq

/-- The options an engine is made with. -/
structure EngineOptions where
  debugInfo : Bool := false
  consumeFuel : Bool := false
  epochInterruption : Bool := false
  maxWasmStack : Nat := 512 * 1024
  memoryReservation : Nat := twoTo 32
  memoryGuardSize : Nat := 32 * 1024 * 1024
  threads : Bool := true
  referenceTypes : Bool := true
  simd : Bool := true
  relaxedSimd : Bool := true
  bulkMemory : Bool := true
  multiValue : Bool := true
  strategy : Strategy := .auto
  optLevel : OptLevel := .speed
  debugVerifier : Bool := false
  profiler : Profiler := .none
  cache : CacheChoice := .off
  pooling : Option PoolingSettings := none
deriving DecidableEq

/-- The configuration of an engine to be made. -/
structure Config where
  options : EngineOptions := {}
  consumesFuel : Bool := false
  isInterruptable : Bool := false
  staticGuard : Option Nat := none
  dynamicGuard : Option Nat := none
deriving DecidableEq

namespace Config

/-- The configuration with its options changed. -/
def withOptions (c : Config) (f : EngineOptions → EngineOptions) : Config :=
  { c with options := f c.options }

/-- Whether code carries debug information. -/
def debugInfo (b : Bool) (c : Config) : Config := c.withOptions ({ · with debugInfo := b })

/-- Whether code uses up fuel. -/
def consumeFuel (b : Bool) (c : Config) : Config :=
  { c.withOptions ({ · with consumeFuel := b }) with consumesFuel := b }

/-- Whether code can be interrupted. -/
def interruptable (b : Bool) (c : Config) : Config :=
  { c.withOptions ({ · with epochInterruption := b }) with isInterruptable := b }

/-- The stack that code may use, in bytes. -/
def maxWasmStack (n : Nat) (c : Config) : Config := c.withOptions ({ · with maxWasmStack := n })

/-- The address space reserved for a memory, in bytes. -/
def staticMemoryMaximumSize (n : Nat) (c : Config) : Config :=
  c.withOptions ({ · with memoryReservation := n })

/-- The larger of two sizes, if any was given. -/
def larger : Option Nat → Option Nat → Option Nat
  | none, b => b
  | a, none => a
  | some a, some b => some (max a b)

/-- Recomputes the guard size from what both of its setters last asked for. -/
def applyGuardSize (c : Config) : Config :=
  match larger c.staticGuard c.dynamicGuard with
  | some n => c.withOptions ({ · with memoryGuardSize := n })
  | none => c

/-- The guard size wanted for memories with a fixed reservation. -/
def staticMemoryGuardSize (n : Nat) (c : Config) : Config :=
  applyGuardSize { c with staticGuard := some n }

/-- The guard size wanted for memories that move. -/
def dynamicMemoryGuardSize (n : Nat) (c : Config) : Config :=
  applyGuardSize { c with dynamicGuard := some n }

/-- Shared memories and atomic instructions. -/
def threads (b : Bool) (c : Config) : Config := c.withOptions ({ · with threads := b })

/-- References as values, and more than one table. -/
def referenceTypes (b : Bool) (c : Config) : Config :=
  c.withOptions ({ · with referenceTypes := b })

/-- Vectors. -/
def simd (b : Bool) (c : Config) : Config := c.withOptions ({ · with simd := b })

/-- Bulk operations on memories and tables. -/
def bulkMemory (b : Bool) (c : Config) : Config := c.withOptions ({ · with bulkMemory := b })

/-- More than one result. -/
def multiValue (b : Bool) (c : Config) : Config := c.withOptions ({ · with multiValue := b })

/-- How code is compiled; one strategy is not available. -/
def strategy (s : Strategy) (c : Config) : Except Error Config :=
  match s with
  | .winch =>
    .error (.invalidConfig "the winch compilation strategy is not available in this build")
  | s => .ok (c.withOptions ({ · with strategy := s }))

/-- Whether the compiler checks its own output. -/
def debugVerifier (b : Bool) (c : Config) : Config := c.withOptions ({ · with debugVerifier := b })

/-- How much the compiler optimises. -/
def optLevel (l : OptLevel) (c : Config) : Config := c.withOptions ({ · with optLevel := l })

/-- The refusal of a profiler. -/
def unsupportedProfiler (name : String) : Error :=
  .invalidConfig ("profiler " ++ name ++ " is not supported on this platform")

/-- Which profiler is told about code; two are not available. -/
def profiler (p : Profiler) (c : Config) : Except Error Config :=
  match p with
  | .jitDump => .error (unsupportedProfiler "JitDump")
  | .vTune => .error (unsupportedProfiler "VTune")
  | p => .ok (c.withOptions ({ · with profiler := p }))

/-- The code cache of the platform. `fault` is the platform's reason against it, if it has one. -/
def cacheLoadDefault (c : Config) (fault : Option String := none) : Except Error Config :=
  match fault with
  | some reason => .error (.invalidConfig ("failed to load default cache config: " ++ reason))
  | none => .ok (c.withOptions ({ · with cache := .standard }))

/-- Whether a cache file can be used: a table `cache` that says whether the cache is on, and nothing
else. -/
def isCacheFile (text : String) : Bool :=
  match (Datum.Toml.read text).bind Datum.entries? with
  | some [(.string "cache", .map [(.string "enabled", .bool _)])] => true
  | _ => false

/-- The code cache that a file describes. -/
def cacheLoad (files : FileSystem) (path : String) (c : Config) : Except Error Config :=
  if (files.readText path).toOption.any isCacheFile then
    .ok (c.withOptions ({ · with cache := .file path }))
  else .error (.invalidConfig ("failed to load cache config from " ++ path ++ ": "))

/-- A pool of instances, or none. -/
def pooling (p : Option PoolingSettings) (c : Config) : Config :=
  c.withOptions ({ · with pooling := p })

/-- Applies a setter if a setting is given. -/
def setIf (set : Nat → Config → Config) : Option Nat → Config → Config
  | none, c => c
  | some n, c => set n c

/-- The configuration that settings describe. The strategy is looked at before the profiler, and the
cache last. `cacheFault` is the platform's reason against its own code cache. -/
def ofSettings (files : FileSystem) (s : EngineSettings) (cacheFault : Option String := none) :
    Except Error Config := do
  let c : Config := {}
  let c := c.debugInfo s.debugInfo |>.consumeFuel s.consumeFuel |>.interruptable s.interruptable
    |>.threads s.features.threads |>.referenceTypes s.features.referenceTypes
    |>.simd s.features.simd |>.bulkMemory s.features.bulkMemory
    |>.multiValue s.features.multiValue |>.debugVerifier s.debugVerifier |>.optLevel s.optLevel
    |>.pooling s.pooling
  let c := c.setIf maxWasmStack s.maxWasmStack
    |> setIf staticMemoryMaximumSize s.staticMemoryMaximumSize
    |> setIf staticMemoryGuardSize s.staticMemoryGuardSize
    |> setIf dynamicMemoryGuardSize s.dynamicMemoryGuardSize
  let c ← c.strategy s.strategy
  let c ← c.profiler s.profiler
  if s.cache.enabled then
    match s.cache.configPath with
    | some path => c.cacheLoad files path
    | none => c.cacheLoadDefault cacheFault
  else return c

/-- How a truth value is shown. -/
def shownBool (b : Bool) : String := if b then "true" else "false"

/-- How a size that may be missing is shown. -/
def shownSize : Option Nat → String
  | none => "None"
  | some n => s!"Some({n})"

/-- A configuration as it is shown. -/
def shown (c : Config) : String :=
  "Config \x7b consume_fuel: " ++ shownBool c.consumesFuel ++ ", interruptable: "
    ++ shownBool c.isInterruptable ++ ", static_guard: " ++ shownSize c.staticGuard
    ++ ", dynamic_guard: " ++ shownSize c.dynamicGuard ++ ", .. \x7d"

end Config

end WasmHost

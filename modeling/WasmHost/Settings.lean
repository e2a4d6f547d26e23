/-!
# Settings

What an embedder can set in a file: how the engine compiles and runs, what a store starts with, and
what a program sees of the system. Every field has its default here.
-/

namespace WasmHost

/-- How code is compiled. -/
inductive Strategy where
  | auto | cranelift | winch
deriving DecidableEq, Inhabited

/-- How much the compiler optimises. -/
inductive OptLevel where
  | none | speed | speedAndSize
deriving DecidableEq, Inhabited

/-- Which profiler is told about compiled code. -/
inductive Profiler where
  | none | perfMap | jitDump | vTune
deriving DecidableEq, Inhabited

namespace Defaults

/-- Parts of the language that are on unless they are turned off. -/
def enabled : Bool := true

/-- The size of a pool, in instances. -/
def maxInstances : Nat := 1000

/-- The memory of each instance of a pool. -/
def instanceMemoryMb : Nat := 64

end Defaults

/-- The optional parts of the language. -/
structure FeatureSettings where
  threads : Bool := false
  referenceTypes : Bool := Defaults.enabled
  simd : Bool := Defaults.enabled
  bulkMemory : Bool := Defaults.enabled
  multiValue : Bool := Defaults.enabled
deriving DecidableEq, Inhabited

/-- The code cache. -/
structure CacheSettings where
  enabled : Bool := false
  configPath : Option String := none
deriving DecidableEq, Inhabited

/-- A fixed pool of instances. -/
structure PoolingSettings where
  maxInstances : Nat := Defaults.maxInstances
  instanceMemoryMb : Nat := Defaults.instanceMemoryMb
deriving DecidableEq, Inhabited

/-- The settings of an engine. -/
structure EngineSettings where
  debugInfo : Bool := false
  consumeFuel : Bool := false
  interruptable : Bool := false
  maxWasmStack : Option Nat := none
  staticMemoryMaximumSize : Option Nat := none
  staticMemoryGuardSize : Option Nat := none
  dynamicMemoryGuardSize : Option Nat := none
  features : FeatureSettings := {}
  strategy : Strategy := .auto
  optLevel : OptLevel := .speed
  debugVerifier : Bool := false
  profiler : Profiler := .none
  cache : CacheSettings := {}
  pooling : Option PoolingSettings := none
deriving DecidableEq, Inhabited

/-- The settings of a store. -/
structure StoreSettings where
  initialFuel : Option Nat := none
deriving DecidableEq, Inhabited

/-- Where a standard stream of a program leads. -/
inductive StdioSetting where
  | null
  | inherit
  | file (path : String)
deriving DecidableEq, Inhabited

/-- A directory that a program finds open. -/
structure PreopenSetting where
  host : String
  guest : String
deriving DecidableEq, Inhabited

/-- What a program sees of the system. The environment is in rising order of the names. -/
structure WasiSettings where
  inheritArgs : Bool := false
  args : List String := []
  inheritEnv : Bool := false
  env : List (String × String) := []
  stdin : StdioSetting := .null
  stdout : StdioSetting := .null
  stderr : StdioSetting := .null
  preopens : List PreopenSetting := []
deriving DecidableEq, Inhabited

/-- The content of a settings file. -/
structure SettingsFile where
  engine : EngineSettings := {}
  store : StoreSettings := {}
  wasi : Option WasiSettings := none
deriving DecidableEq, Inhabited

end WasmHost

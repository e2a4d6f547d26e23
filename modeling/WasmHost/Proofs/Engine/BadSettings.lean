import Mathlib.Data.Nat.Find
import WasmHost.Proofs.Engine.SettingsCalls

/-!
# Settings that are refused

Settings are looked at twice: by the setters, which refuse what this build does not have, and by the
engine, which refuses options that contradict each other. `RefusalCause` lists all there is to
refuse, in the order in which it is looked at, and no engine is made exactly when there is a cause;
the first one is told.
-/

namespace WasmHost

/-- What settings can be refused for. -/
inductive RefusalCause where
  | winch
  | jitDump
  | vTune
  | cacheFile (path : String)
  | noStack
  | simdOff
  | pooledMemory (p : PoolingSettings)

namespace RefusalCause

/-- The place of a cause in the order in which settings are looked at. There is but one profiler. -/
@[simp]
def rank : RefusalCause → Nat
  | winch => 0
  | jitDump | vTune => 1
  | cacheFile _ => 2
  | noStack => 3
  | simdOff => 4
  | pooledMemory _ => 5

end RefusalCause

/-- The address space that settings reserve for a memory, in bytes. -/
def EngineSettings.reservation (s : EngineSettings) : Nat :=
  s.staticMemoryMaximumSize.getD (twoTo 32)

/-- Whether there is a file that describes a code cache. -/
def FileSystem.HasCacheFile (files : FileSystem) (path : String) : Prop :=
  ∃ text, files.readText path = .ok text ∧ Config.isCacheFile text

/-- The settings have something to be refused for. -/
def EngineSettings.Has (s : EngineSettings) (files : FileSystem) : RefusalCause → Prop
  | .winch => s.strategy = .winch
  | .jitDump => s.profiler = .jitDump
  | .vTune => s.profiler = .vTune
  | .cacheFile path =>
    s.cache.enabled ∧ s.cache.configPath = some path ∧ ¬files.HasCacheFile path
  | .noStack => s.maxWasmStack = some 0
  | .simdOff => s.features.simd = false
  | .pooledMemory p => s.pooling = some p ∧ s.reservation < p.instanceMemoryMb * twoTo 20

/-- What is told of a cause. -/
def EngineSettings.reason (s : EngineSettings) : RefusalCause → String
  | .winch => "the winch compilation strategy is not available in this build"
  | .jitDump => "profiler JitDump is not supported on this platform"
  | .vTune => "profiler VTune is not supported on this platform"
  | .cacheFile path => "failed to load cache config from " ++ path ++ ": "
  | .noStack => "Failed to create engine: " ++ EngineFault.noStack.message
  | .simdOff => "Failed to create engine: " ++ EngineFault.simdOff.message
  | .pooledMemory p =>
    "Failed to create engine: " ++ (EngineFault.pooledMemory p.memoryBytes s.reservation).message

variable {s : EngineSettings} {files : FileSystem}

/-! ## What the setters refuse -/

namespace Engine

end Engine

end WasmHost

import WasmHost.Config

/-!
# Engines

An engine is made from a configuration, once. `Engine.make` refuses options that contradict each
other; the number tells two engines with equal options apart.
-/

namespace WasmHost

/-- Bytes in a page of memory. -/
def pageSize : Nat := 65536

/-- An engine: its options, and what its configuration said of fuel and interrupts. -/
structure Engine where
  id : Nat
  options : EngineOptions
  consumesFuel : Bool
  isInterruptable : Bool
deriving DecidableEq

/-- Why no engine can be made with some options. -/
inductive EngineFault where
  | noStack
  | simdOff
  | pooledMemory (size reservation : Nat)
deriving DecidableEq

/-- The text of the fault. -/
def EngineFault.message : EngineFault → String
  | noStack => "max_wasm_stack size cannot be zero"
  | simdOff => "cannot disable the simd proposal but enable the relaxed simd proposal"
  | pooledMemory size reservation =>
    "maximum memory size of 0x" ++ Text.hex size
      ++ " bytes exceeds the configured memory reservation of 0x" ++ Text.hex reservation
      ++ " bytes"

/-- The greatest size of a pooled memory, in bytes. -/
def PoolingSettings.memoryBytes (p : PoolingSettings) : Nat := p.instanceMemoryMb * twoTo 20

/-- The fault of some options, if they have one. -/
def EngineOptions.fault? (o : EngineOptions) : Option EngineFault :=
  if o.maxWasmStack = 0 then some .noStack
  else if o.relaxedSimd ∧ ¬o.simd then some .simdOff
  else match o.pooling with
    | some p =>
      if o.memoryReservation < p.memoryBytes then
        some (.pooledMemory p.memoryBytes o.memoryReservation)
      else none
    | none => none

/-- What two engines must agree on for one to run what the other compiled. -/
structure Compatibility where
  consumeFuel : Bool
  epochInterruption : Bool
  debugInfo : Bool
  memoryReservation : Nat
  memoryGuardSize : Nat
  threads : Bool
  referenceTypes : Bool
  bulkMemory : Bool
  multiValue : Bool
  simd : Bool
deriving DecidableEq

/-- The options that compiled code depends on. -/
def EngineOptions.compatibility (o : EngineOptions) : Compatibility :=
  { consumeFuel := o.consumeFuel, epochInterruption := o.epochInterruption,
    debugInfo := o.debugInfo, memoryReservation := o.memoryReservation,
    memoryGuardSize := o.memoryGuardSize, threads := o.threads,
    referenceTypes := o.referenceTypes, bulkMemory := o.bulkMemory, multiValue := o.multiValue,
    simd := o.simd }

/-- The pages that a pooled memory may have, if there is a pool. -/
def EngineOptions.pooledPages (o : EngineOptions) : Option Nat :=
  o.pooling.map fun p => p.memoryBytes / pageSize

namespace Engine

/-- The engine of a configuration. -/
def make (id : Nat) (c : Config) : Except Error Engine :=
  match c.options.fault? with
  | some f => .error (.invalidConfig ("Failed to create engine: " ++ f.message))
  | none => .ok ⟨id, c.options, c.consumesFuel, c.isInterruptable⟩

/-- The engine that settings describe. -/
def ofSettings (id : Nat) (files : FileSystem) (s : EngineSettings) : Except Error Engine := do
  make id (← Config.ofSettings files s)

/-- The engine of the default configuration. -/
def default (id : Nat) : Engine := ⟨id, {}, false, false⟩

/-- An engine as it is shown. -/
def shown (e : Engine) : String :=
  "Engine \x7b consume_fuel: " ++ Config.shownBool e.consumesFuel ++ ", interruptable: "
    ++ Config.shownBool e.isInterruptable ++ ", .. \x7d"

end Engine

end WasmHost

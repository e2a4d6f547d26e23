import WasmHost.CompiledModule

/-!
# Artifacts

An artifact is a compiled module as bytes: a header that tells what the module was compiled for, and
the module. An engine loads the artifacts whose header is the one it would write itself, so it
refuses those of engines that do not agree with it, and all other bytes.
-/

namespace WasmHost

namespace Artifact

/-- What every artifact begins with. -/
def magic : Wasm.Bytes := [0x00, 0x61, 0x6f, 0x74]

/-- A flag as a byte. -/
def flag (b : Bool) : UInt8 := if b then 1 else 0

/-- The header of the artifacts that an engine makes. -/
def header (c : Compatibility) : Wasm.Bytes :=
  magic
    ++ [c.consumeFuel, c.epochInterruption, c.debugInfo, c.threads, c.referenceTypes, c.bulkMemory,
        c.multiValue, c.simd].map flag
    ++ Wasm.Leb.unsigned c.memoryReservation ++ Wasm.Leb.unsigned c.memoryGuardSize

/-- The refusal of an artifact, whose details are left out. -/
def refused : Error := .deserialization "Module deserialization failed: "

end Artifact

namespace CompiledModule

/-- A module as an artifact. -/
def serialize (m : CompiledModule) : Wasm.Bytes := Artifact.header m.compatibility ++ m.binary

/-- Loads an artifact. -/
def deserialize (o : EngineOptions) (artifact : Wasm.Bytes) : Except Error CompiledModule :=
  let header := Artifact.header o.compatibility
  if header.isPrefixOf artifact then
    (ofBinary o (artifact.drop header.length)).mapError fun _ => Artifact.refused
  else .error Artifact.refused

end CompiledModule

end WasmHost

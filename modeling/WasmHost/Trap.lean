import WasmHost.Error

/-!
# Traps

A `Trap` is what the embedder sees of a fault in running code. Inside the engine a fault is a
`Fault`: a cause and the frames that were active when it arose. `Fault.trap?` says which faults
count as traps: exits, engine traps and host traps always do, any other failure only when some frame
was active.
-/

namespace WasmHost

/-- The faults that the engine itself raises. -/
inductive TrapCode where
  | stackExhausted | memoryOutOfBounds | tableOutOfBounds | uninitializedElement
  | signatureMismatch | integerOverflow | integerDivideByZero | invalidConversion
  | unreachable | outOfFuel | interrupt
deriving DecidableEq

/-- The text of an engine fault. -/
def TrapCode.message : TrapCode → String
  | stackExhausted => "wasm trap: call stack exhausted"
  | memoryOutOfBounds => "wasm trap: out of bounds memory access"
  | tableOutOfBounds => "wasm trap: undefined element: out of bounds table access"
  | uninitializedElement => "wasm trap: uninitialized element"
  | signatureMismatch => "wasm trap: indirect call type mismatch"
  | integerOverflow => "wasm trap: integer overflow"
  | integerDivideByZero => "wasm trap: integer divide by zero"
  | invalidConversion => "wasm trap: invalid conversion to integer"
  | unreachable => "wasm trap: wasm `unreachable` instruction executed"
  | outOfFuel => "wasm trap: all fuel consumed by WebAssembly"
  | interrupt => "wasm trap: interrupt"

/-- One frame of a trap's call stack. Offsets are of the instruction in its function body and in its
module's binary. -/
structure FrameInfo where
  funcIndex : Nat
  funcName : Option String
  moduleName : Option String
  funcOffset : Nat
  moduleOffset : Nat
deriving DecidableEq

/-- A fault of running code as the embedder sees it; the trace is innermost first. -/
structure Trap where
  message : String
  exit : Option Int := none
  code : Option TrapCode := none
  trace : List FrameInfo := []
deriving DecidableEq

namespace Trap

/-- Whether the program ran out of fuel. -/
def isOutOfFuel (t : Trap) : Bool := t.code == some .outOfFuel

/-- Whether the program was interrupted. -/
def isInterrupt (t : Trap) : Bool := t.code == some .interrupt

end Trap

/-- Why an operation that runs code failed: it was refused, or the code trapped. -/
inductive Failure where
  | error (error : Error)
  | trap (trap : Trap)
deriving DecidableEq

namespace Failure

/-- The bare text of a failure. -/
def message : Failure → String
  | error e => e.message
  | trap t => t.message

/-- The text of a failure that tells traps apart. -/
def display : Failure → String
  | error e => e.message
  | trap t => "wasm trap: " ++ t.message

/-- Whether the failure is a trap. -/
def isTrap : Failure → Bool
  | error _ => false
  | trap _ => true

end Failure

/-- The causes of a fault inside the engine. -/
inductive Cause where
  /-- The program asked to exit. -/
  | exit (status : Int)
  /-- The engine found a fault in the code. -/
  | code (code : TrapCode)
  /-- A host function returned a trap. -/
  | host (trap : Trap)
  /-- Any other failure of a host function. -/
  | other (message : String)
deriving DecidableEq

/-- A fault inside the engine with the frames that were active when it arose. -/
structure Fault where
  cause : Cause
  trace : List FrameInfo := []
deriving DecidableEq

namespace Fault

/-- The trap that a fault amounts to, if it counts as one. A host trap keeps its text, exit status
and code; only its trace is made anew. -/
def trap? (f : Fault) : Option Trap :=
  match f.cause with
  | .exit status =>
    some { message := s!"Exited with i32 exit status {status}", exit := some status,
           trace := f.trace }
  | .code c => some { message := c.message, code := some c, trace := f.trace }
  | .host t => some { message := t.message, exit := t.exit, code := t.code, trace := f.trace }
  | .other m => if f.trace.isEmpty then none else some { message := m, trace := f.trace }

/-- The text of a fault that is no trap. -/
def message (f : Fault) : String :=
  match f.cause with
  | .exit status => s!"Exited with i32 exit status {status}"
  | .code c => c.message
  | .host t => t.message
  | .other m => m

/-- The failure that a fault amounts to; one that is no trap becomes the error `otherwise`. -/
def failure (otherwise : String → Error) (f : Fault) : Failure :=
  match f.trap? with
  | some t => .trap t
  | none => .error (otherwise f.message)

end Fault

end WasmHost

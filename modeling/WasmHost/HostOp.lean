import WasmHost.Reference
import WasmHost.Value

/-!
# Bodies of host functions

What a host function does is a list of operations. They run in order; the first one that traps ends
the function. `args` and `results` are those of the call; the results start as zeros and nulls.
-/

namespace WasmHost

/-- A value as the embedder holds it. -/
abbrev HostVal := Val RefId

/-- The number of a store's interrupt signal. -/
abbrev SignalId := Nat

/-- An argument of a call that a host function makes. -/
inductive HostArg where
  | arg (index : Nat)
  | value (val : HostVal)
deriving DecidableEq

/-- One operation of a host function. -/
inductive HostOp where
  /-- Sets a result. -/
  | set (result : Nat) (val : HostVal)
  /-- Sets a result to an argument. -/
  | copy (result arg : Nat)
  /-- Sets a result to the sum of the arguments that are 32-bit integers. -/
  | add (result : Nat)
  | trap (text : String)
  | log (text : String)
  | logArgs
  | logResults
  /-- Logs the kind of an export of the caller. -/
  | kindOf (name : String)
  /-- Sets a result to the byte at the address that an argument gives. -/
  | peek (name : String) (addr result : Nat)
  /-- Writes the low byte of an argument to the address that another gives. -/
  | poke (name : String) (addr value : Nat)
  /-- Grows a memory of the caller and logs its size. -/
  | grow (name : String) (delta : Nat)
  /-- Logs the size of a memory of the caller. -/
  | size (name : String)
  | setGlobal (name : String) (val : HostVal)
  /-- Calls a function of the caller and logs its results, the first of which can become a result of
  this function. A failure that is caught is only logged. -/
  | call (name : String) (args : List HostArg) (result : Option Nat) (catches : Bool)
  /-- Logs the fuel that was used. -/
  | fuel
  | addFuel (amount : Nat)
  | gc
  | interrupt (signal : SignalId)
  /-- Goes on with one of two lists, the first if an argument is zero. -/
  | branch (arg : Nat) (zero nonzero : List HostOp)

namespace HostArg

/-- The references that an argument holds. -/
def refs : HostArg → List RefId
  | arg _ => []
  | value v => v.foreign?.toList

end HostArg

mutual

/-- The references that an operation holds. -/
def HostOp.refs : HostOp → List RefId
  | .set _ v | .setGlobal _ v => v.foreign?.toList
  | .call _ args _ _ => args.flatMap HostArg.refs
  | .branch _ zero nonzero => HostOp.refsOf zero ++ HostOp.refsOf nonzero
  | _ => []

/-- The references that some operations hold. -/
def HostOp.refsOf : List HostOp → List RefId
  | [] => []
  | op :: ops => op.refs ++ HostOp.refsOf ops

end

/-- What host functions log. -/
inductive LogEntry where
  | text (text : String)
  | values (vals : List HostVal)
  | kind (name : Option String)
  | grew (pages bytes : Nat)
  | size (pages bytes : Nat)
  | caught (message : String) (isTrap : Bool)
  | consumed (fuel : Option Nat)

end WasmHost

/-!
# Errors

`Error` is the failure of an operation that could not even start: a bad configuration, a module that
does not compile, imports that do not fit. Faults of running code are `Trap`s and live apart.
-/

namespace WasmHost

/-- A fault in setting up a program's system interface. -/
inductive WasiError where
  | initializationFailed (reason : String)
  | filesystem (path operation : String)
deriving DecidableEq

/-- The text of a system interface error. -/
def WasiError.message : WasiError → String
  | initializationFailed reason => "WASI initialization failed: " ++ reason
  | filesystem path operation =>
    "WASI filesystem error: cannot open '" ++ path ++ "' for " ++ operation

/-- Why an operation was refused. The constructor is the family, the text says the rest. -/
inductive Error where
  | invalidConfig (reason : String)
  | parse (reason : String)
  | compilationFailed (reason : String)
  | serialization (reason : String)
  | deserialization (reason : String)
  | link (reason : String)
  | typeMismatch (reason : String)
  | immutableGlobal
  | outOfBounds (index size : Nat)
  | resourceLimit (reason : String)
  | wasi (error : WasiError)
deriving DecidableEq

namespace Error

/-- The text of an error. -/
def message : Error → String
  | invalidConfig reason => "Invalid configuration: " ++ reason
  | parse reason => "Failed to parse WebAssembly text: " ++ reason
  | compilationFailed reason => "Compilation failed: " ++ reason
  | serialization reason => "Serialization failed: " ++ reason
  | deserialization reason => "Deserialization failed: " ++ reason
  | link reason => "Link error: " ++ reason
  | typeMismatch reason => "Type mismatch: " ++ reason
  | immutableGlobal => "Cannot set an immutable global"
  | outOfBounds index size => s!"Index {index} out of bounds for table of size {size}"
  | resourceLimit reason => "Resource limit exceeded: " ++ reason
  | wasi error => "WASI error: " ++ error.message

/-- Configuration errors. -/
def isConfig : Error → Bool
  | invalidConfig _ => true
  | _ => false

/-- Errors of the text format and of compilation. -/
def isCompile : Error → Bool
  | parse _ | compilationFailed _ => true
  | _ => false

/-- Errors of linking. -/
def isLink : Error → Bool
  | link _ => true
  | _ => false

/-- Errors of a value that does not fit, a write to an immutable global included. -/
def isType : Error → Bool
  | typeMismatch _ | immutableGlobal => true
  | _ => false

/-- Errors of a bound that was passed. -/
def isResourceLimit : Error → Bool
  | outOfBounds .. | resourceLimit _ => true
  | _ => false

end Error

end WasmHost

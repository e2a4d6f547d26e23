import WasmHost.Engine
import WasmHost.Text.Quoted
import WasmHost.Wasm.Decode
import WasmHost.Wasm.Validate
import WasmHost.Wat.Module

/-!
# Compiled modules

`CompiledModule.load` takes a module in either format: bytes that are empty or begin like a binary
are read as one, all others as text. Text is turned into a binary first, so the places of
instructions are those of that binary. A module is compiled if it is valid for its engine and, in a
pool, fits a slot.
-/

namespace WasmHost

/-- A function body made ready to run. -/
structure FuncCode where
  /-- The index of the function in its module. -/
  index : Nat
  type : FuncType
  locals : List ValType
  ops : Array Wasm.Op
  /-- For an instruction that opens a block the place of its `orElse` or `done`, for an `orElse`
  that of its `done`. -/
  partners : Array Nat
  layout : Wasm.Layout
deriving DecidableEq

/-- A module that an engine has compiled. -/
structure CompiledModule where
  compatibility : Compatibility
  /-- The binary that it was compiled from. -/
  binary : Wasm.Bytes
  module : Wasm.Module
  codes : Array FuncCode
deriving DecidableEq

namespace EngineOptions

/-- The parts of the language that an engine takes. -/
def languageFeatures (o : EngineOptions) : Wasm.Features :=
  { threads := o.threads, referenceTypes := o.referenceTypes, bulkMemory := o.bulkMemory,
    multiValue := o.multiValue }

/-- The elements that a pooled table may have, if there is a pool. -/
def pooledElements (o : EngineOptions) : Option Nat := o.pooling.map fun _ => 20000

/-- Whether a module fits a slot of the pool: one memory and one table of its own at most, neither
larger than the slot. -/
def fitsPool (o : EngineOptions) (m : Wasm.Module) : Bool :=
  o.pooling.isNone
    || (decide (m.memories.length ≤ 1) && decide (m.tables.length ≤ 1)
      && m.memories.all (fun t => o.pooledPages.all fun n => decide (t.limits.min ≤ n))
      && m.tables.all (fun t => o.pooledElements.all fun n => decide (t.limits.min ≤ n)))

end EngineOptions

/-- Finds the partners of the instructions from place `i` on. `openings` are the places of the
blocks that are still open, innermost first. -/
def partnersFrom (openings : List Nat) (partners : Array Nat) : Nat → List Wasm.Op → Array Nat
  | _, [] => partners
  | i, op :: rest =>
    match op with
    | .block _ | .loop _ | .ifThen _ => partnersFrom (i :: openings) partners (i + 1) rest
    | .orElse =>
      match openings with
      | o :: outer => partnersFrom (i :: outer) (partners.setIfInBounds o i) (i + 1) rest
      | [] => partnersFrom [] partners (i + 1) rest
    | .done =>
      match openings with
      | o :: outer => partnersFrom outer (partners.setIfInBounds o i) (i + 1) rest
      | [] => partnersFrom [] partners (i + 1) rest
    | _ => partnersFrom openings partners (i + 1) rest

namespace FuncCode

/-- The body of the function with index `index`, made ready. -/
def make (index : Nat) (type : FuncType) (code : Wasm.Code) (layout : Wasm.Layout) : FuncCode :=
  { index, type, layout
    locals := code.allLocals
    ops := code.body.toArray
    partners := partnersFrom [] (Array.replicate code.body.length 0) 0 code.body }

end FuncCode

namespace CompiledModule

/-- The failure to compile, whose details are left out. -/
def compilationFailed : Error := .compilationFailed "Module compilation failed: "

/-- Makes the bodies of a valid module ready. -/
def make (o : EngineOptions) (binary : Wasm.Bytes) (m : Wasm.Module)
    (layouts : List Wasm.Layout) : CompiledModule :=
  let codes := (m.funcs.zip (m.codes.zip layouts)).zipIdx.map fun ((t, code, layout), i) =>
    FuncCode.make (m.importedFuncs + i) (m.types.getD t default) code layout
  { compatibility := o.compatibility, binary, module := m, codes := codes.toArray }

/-- Compiles a binary. -/
def ofBinary (o : EngineOptions) (bytes : Wasm.Bytes) : Except Error CompiledModule :=
  match Wasm.Module.decode bytes with
  | some (m, layouts) =>
    if m.isValid o.languageFeatures ∧ o.fitsPool m then .ok (make o bytes m layouts)
    else .error compilationFailed
  | none => .error compilationFailed

/-- The binary that a text stands for. -/
def binaryOfText (text : String) : Except Error Wasm.Bytes :=
  match Wasm.Module.ofText? text with
  | some m => .ok m.encode
  | none => .error (.parse "")

/-- Compiles a text. -/
def ofText (o : EngineOptions) (text : String) : Except Error CompiledModule := do
  ofBinary o (← binaryOfText text)

/-- Whether bytes are taken for a binary. -/
def isBinary (bytes : Wasm.Bytes) : Bool := bytes.isEmpty || Wasm.magic.isPrefixOf bytes

/-- Compiles a module in either format. -/
def load (o : EngineOptions) (bytes : Wasm.Bytes) : Except Error CompiledModule :=
  if isBinary bytes then ofBinary o bytes
  else
    match Text.decodeUtf8 bytes with
    | .ok text => ofText o text
    | .error f => .error (.parse ("Module text is not valid UTF-8: " ++ f.message))

/-- Checks a binary without compiling it. -/
def validate (o : EngineOptions) (bytes : Wasm.Bytes) : Except Error Unit :=
  match Wasm.Module.decode bytes with
  | some (m, _) =>
    if m.isValid o.languageFeatures then .ok ()
    else .error (.compilationFailed "Module validation failed: ")
  | none => .error (.compilationFailed "Module validation failed: ")

/-- The name that a module gives itself. -/
def name (m : CompiledModule) : Option String := m.module.names.module

/-- The imports and exports of a module. -/
def signature (m : CompiledModule) : Signature := m.module.signature

/-- A module as it is shown. -/
def shown (m : CompiledModule) : String :=
  let name := match m.name with
    | some n => "Some(" ++ Text.quoted n ++ ")"
    | none => "None"
  "Module \x7b name: " ++ name ++ ", .. \x7d"

/-- The name that a module gives to one of its functions. -/
def funcName (m : CompiledModule) (index : Nat) : Option String :=
  (m.module.names.funcs.reverse.find? (·.1 == index)).map (·.2)

end CompiledModule

end WasmHost

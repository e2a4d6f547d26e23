import WasmHost.Wasm.Op

/-!
# Modules

A `Module` is what a module's text or binary says, with every name resolved to an index: the two
formats are two ways to write it down. Nothing is checked yet.
-/

namespace WasmHost.Wasm

/-- What an import asks for; a function's signature is an index. -/
inductive ImportDesc where
  | func (type : Nat)
  | table (type : TableType)
  | memory (type : MemoryType)
  | global (type : GlobalType)
deriving DecidableEq

/-- An import. -/
structure Import where
  module : String
  name : String
  desc : ImportDesc
deriving DecidableEq

/-- An export: the item is given by its kind and its index among the items of that kind. -/
structure Export where
  name : String
  kind : ItemKind
  index : Nat
deriving DecidableEq

/-- A global with the expression of its first value. An expression ends with `done`. -/
structure Global where
  type : GlobalType
  init : List Op
deriving DecidableEq

/-- The elements of a segment: functions by index, or expressions of a type. -/
inductive ElemItems where
  | funcs (indices : List Nat)
  | exprs (type : ValType) (exprs : List (List Op))
deriving DecidableEq

/-- How a segment of elements is used. An active one may leave its table out. -/
inductive ElemMode where
  | active (table : Option Nat) (offset : List Op)
  | passive
  | declared
deriving DecidableEq

/-- A segment of elements. -/
structure Elem where
  mode : ElemMode
  items : ElemItems
deriving DecidableEq

/-- A segment of data; an active one has a memory and an offset. -/
structure Data where
  place : Option (Nat × List Op)
  bytes : List UInt8
deriving DecidableEq

/-- A function body: its locals in groups of one type, and its instructions, which end with `done`.
-/
structure Code where
  locals : List (Nat × ValType)
  body : List Op
deriving DecidableEq

/-- The locals that a body declares, one by one. -/
def Code.allLocals (c : Code) : List ValType :=
  c.locals.flatMap fun (g : Nat × ValType) => List.replicate g.1 g.2

/-- Names of items by index, in rising order. -/
abbrev NameMap := List (Nat × String)

/-- The names that a module gives its items. -/
structure Names where
  module : Option String := none
  funcs : NameMap := []
  locals : List (Nat × NameMap) := []
  labels : List (Nat × NameMap) := []
  types : NameMap := []
  tables : NameMap := []
  memories : NameMap := []
  globals : NameMap := []
  elems : NameMap := []
  datas : NameMap := []
deriving DecidableEq

/-- A module. -/
structure Module where
  types : List FuncType := []
  imports : List Import := []
  funcs : List Nat := []
  tables : List TableType := []
  memories : List MemoryType := []
  globals : List Global := []
  exports : List Export := []
  start : Option Nat := none
  elems : List Elem := []
  dataCount : Option Nat := none
  codes : List Code := []
  datas : List Data := []
  names : Names := {}
deriving DecidableEq

namespace Module

/-- The signature indices of the functions, imported ones first. -/
def funcTypeIndices (m : Module) : List Nat :=
  (m.imports.filterMap fun i => match i.desc with | .func t => some t | _ => none) ++ m.funcs

/-- The types of the tables, imported ones first. -/
def tableTypes (m : Module) : List TableType :=
  (m.imports.filterMap fun i => match i.desc with | .table t => some t | _ => none) ++ m.tables

/-- The types of the memories, imported ones first. -/
def memoryTypes (m : Module) : List MemoryType :=
  (m.imports.filterMap fun i => match i.desc with | .memory t => some t | _ => none) ++ m.memories

/-- The types of the globals, imported ones first. -/
def globalTypes (m : Module) : List GlobalType :=
  (m.imports.filterMap fun i => match i.desc with | .global t => some t | _ => none)
    ++ m.globals.map (·.type)

/-- How many functions are imported. -/
def importedFuncs (m : Module) : Nat :=
  m.imports.countP fun i => match i.desc with | .func _ => true | _ => false

/-- How many globals are imported. -/
def importedGlobals (m : Module) : Nat :=
  m.imports.countP fun i => match i.desc with | .global _ => true | _ => false

/-- The signature of a function. -/
def funcType? (m : Module) (func : Nat) : Option FuncType := do
  m.types[← m.funcTypeIndices[func]?]?

/-- The type that an import asks for. -/
def importType? (m : Module) : ImportDesc → Option ItemType
  | .func t => m.types[t]?.map .func
  | .table t => some (.table t)
  | .memory t => some (.memory t)
  | .global t => some (.global t)

/-- The type of an exported item. -/
def itemType? (m : Module) (kind : ItemKind) (index : Nat) : Option ItemType :=
  match kind with
  | .func => (m.funcType? index).map .func
  | .table => m.tableTypes[index]?.map .table
  | .memory => m.memoryTypes[index]?.map .memory
  | .global => m.globalTypes[index]?.map .global

/-- The imports and exports of a module; entries whose index is out of range are left out. -/
def signature (m : Module) : Signature :=
  { imports := m.imports.filterMap fun i =>
      (m.importType? i.desc).map fun t => ⟨i.module, i.name, t⟩
    exports := m.exports.filterMap fun e =>
      (m.itemType? e.kind e.index).map fun t => ⟨e.name, t⟩ }

end Module

end WasmHost.Wasm

/-!
# Types of values and of the things a module imports or exports

`ValType` names the kinds of value. `ItemType` is the type of a function, global, table or memory;
`Signature` is what a module imports and exports; `ExternType` adds instances and modules, the two
kinds of item that no module can import.
-/

namespace WasmHost

/-- The kinds of value. -/
inductive ValType where
  | i32 | i64 | f32 | f64 | v128 | externref | funcref
deriving DecidableEq, Inhabited

namespace ValType

/-- The word for a kind, in messages and in the text format. -/
def name : ValType → String
  | i32 => "i32"
  | i64 => "i64"
  | f32 => "f32"
  | f64 => "f64"
  | v128 => "v128"
  | externref => "externref"
  | funcref => "funcref"

/-- All kinds, in the order of their declaration. -/
def all : List ValType := [i32, i64, f32, f64, v128, externref, funcref]

/-- The kind that a word names. -/
def ofName? (s : String) : Option ValType := all.find? (·.name == s)

/-- References are the kinds that a table can hold. -/
def isRef : ValType → Bool
  | externref | funcref => true
  | _ => false

/-- Numbers and vectors are the kinds that are no references. -/
def isNum (t : ValType) : Bool := !t.isRef

/-- How a kind is written where a value met a parameter of another kind: references are spelled
with their heap. -/
def heapName : ValType → String
  | externref => "(ref null extern)"
  | funcref => "(ref null func)"
  | t => t.name

end ValType

/-- The signature of a function. -/
structure FuncType where
  params : List ValType
  results : List ValType
deriving DecidableEq, Inhabited

namespace FuncType

/-- One parenthesised group of a signature; an empty group is left out. -/
def group (word : String) : List ValType → String
  | [] => ""
  | ts => " (" ++ word ++ String.join (ts.map fun t => " " ++ t.heapName) ++ ")"

/-- A signature in the text format, as link errors show it. -/
def text (t : FuncType) : String :=
  "(func" ++ group "param" t.params ++ group "result" t.results ++ ")"

end FuncType

/-- Size bounds of a table (in elements) or a memory (in pages). -/
structure Limits where
  min : Nat
  max : Option Nat := none
deriving DecidableEq, Inhabited

/-- Whether the least size is within the greatest one. -/
def Limits.inOrder (l : Limits) : Bool := l.max.all fun m => decide (l.min ≤ m)

/-- The type of a global. -/
structure GlobalType where
  content : ValType
  isMutable : Bool := false
deriving DecidableEq, Inhabited

/-- The type of a table. -/
structure TableType where
  element : ValType
  limits : Limits
deriving DecidableEq, Inhabited

/-- The type of a memory. -/
structure MemoryType where
  limits : Limits
  shared : Bool := false
deriving DecidableEq, Inhabited

/-- The four kinds of item that a module can import and export. -/
inductive ItemKind where
  | func | global | table | memory
deriving DecidableEq, Inhabited

/-- The word for a kind of item. -/
def ItemKind.name : ItemKind → String
  | func => "func"
  | global => "global"
  | table => "table"
  | memory => "memory"

/-- The type of an item that a module can import and export. -/
inductive ItemType where
  | func (type : FuncType)
  | global (type : GlobalType)
  | table (type : TableType)
  | memory (type : MemoryType)
deriving DecidableEq, Inhabited

/-- The kind that an item's type belongs to. -/
def ItemType.kind : ItemType → ItemKind
  | func _ => .func
  | global _ => .global
  | table _ => .table
  | memory _ => .memory

/-- One import of a module: a two-level name and a type. -/
structure ImportType where
  module : String
  name : String
  type : ItemType
deriving DecidableEq, Inhabited

/-- One export of a module: a name and a type. -/
structure ExportType where
  name : String
  type : ItemType
deriving DecidableEq, Inhabited

/-- The imports and exports of a module, in declaration order. -/
structure Signature where
  imports : List ImportType
  exports : List ExportType
deriving DecidableEq, Inhabited

/-- The type of anything an embedder can hold, instances and modules included. -/
inductive ExternType where
  | func (type : FuncType)
  | global (type : GlobalType)
  | table (type : TableType)
  | memory (type : MemoryType)
  | instance (exports : List (String × ExternType))
  | module (imports : List (String × String × ExternType)) (exports : List (String × ExternType))
deriving BEq, Inhabited

namespace ExternType

/-- The word for the kind of an item, in messages. -/
def kindName : ExternType → String
  | func _ => "func"
  | global _ => "global"
  | table _ => "table"
  | memory _ => "memory"
  | .instance _ => "instance"
  | module .. => "module"

/-- The signature, if the type is one of a function. -/
def func? : ExternType → Option FuncType
  | func t => some t
  | _ => none

/-- The global type, if the type is one of a global. -/
def global? : ExternType → Option GlobalType
  | global t => some t
  | _ => none

/-- The table type, if the type is one of a table. -/
def table? : ExternType → Option TableType
  | table t => some t
  | _ => none

/-- The memory type, if the type is one of a memory. -/
def memory? : ExternType → Option MemoryType
  | memory t => some t
  | _ => none

/-- An item's type among the types of everything an embedder can hold. -/
def ofItem : ItemType → ExternType
  | .func t => func t
  | .global t => global t
  | .table t => table t
  | .memory t => memory t

/-- The type of an instance with the given exports. -/
def ofExports (exports : List ExportType) : ExternType :=
  .instance (exports.map fun e => (e.name, ofItem e.type))

/-- The type of a module with the given signature. -/
def ofSignature (s : Signature) : ExternType :=
  module (s.imports.map fun i => (i.module, i.name, ofItem i.type))
    (s.exports.map fun e => (e.name, ofItem e.type))

end ExternType

end WasmHost

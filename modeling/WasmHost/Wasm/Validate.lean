import WasmHost.Wasm.Typing

/-!
# Valid modules

`Module.isValid` checks what a module must satisfy before it can run: its indices point to
something, its bodies are well typed, and it keeps within the limits of the features.
-/

namespace WasmHost.Wasm

/-- The most pages that a memory can have. -/
def maxPages : Nat := 65536

/-- The most parameters and locals that a function can have. -/
def maxLocals : Nat := 50000

/-- The most parameters or results of a signature. -/
def maxArity : Nat := 1000

/-- The most tables or memories of a module. -/
def maxItems : Nat := 100

namespace Features

variable (f : Features)

/-- Whether a signature may be used. -/
def checkFuncType (t : FuncType) : Bool :=
  t.params.all f.allows && t.results.all f.allows
    && (f.multiValue || decide (t.results.length ≤ 1))
    && decide (t.params.length ≤ maxArity) && decide (t.results.length ≤ maxArity)

/-- Whether a table may be used; one of functions always may. -/
def checkTableType (t : TableType) : Bool :=
  (t.element == .funcref || f.allows t.element) && t.limits.inOrder

/-- Whether a memory may be used; a shared one needs a maximum. -/
def checkMemoryType (t : MemoryType) : Bool :=
  t.limits.inOrder && decide (t.limits.min ≤ maxPages)
    && t.limits.max.all (fun m => decide (m ≤ maxPages))
    && (!t.shared || (f.threads && t.limits.max.isSome))

/-- Whether a global may be used. -/
def checkGlobalType (t : GlobalType) : Bool := f.allows t.content

end Features

/-- The functions that an expression makes references of. -/
def funcRefs (ops : List Op) : List Nat :=
  ops.filterMap fun o => match o with
    | .refFunc f => some f
    | _ => none

namespace Module

variable (m : Module)

/-- The functions of which the code may make references: those that an export, a segment or the
first value of a global mentions. -/
def referable : List Nat :=
  (m.exports.filterMap fun e => if e.kind = .func then some e.index else none)
    ++ m.globals.flatMap (fun g => funcRefs g.init)
    ++ m.elems.flatMap fun e => match e.items with
      | .funcs fs => fs
      | .exprs _ es => es.flatMap funcRefs

/-- The types of the elements of segments. -/
def elemTypes : List ValType :=
  m.elems.map fun e => match e.items with
    | .funcs _ => .funcref
    | .exprs t _ => t

/-- What the code of the module may refer to. -/
def context (f : Features) : Context :=
  { features := f
    types := m.types.toArray
    funcs := (m.funcTypeIndices.filterMap (m.types[·]?)).toArray
    tables := m.tableTypes.toArray
    memories := m.memoryTypes.toArray
    globals := m.globalTypes.toArray
    elems := m.elemTypes.toArray
    dataCount := m.dataCount
    referable := m.referable }

end Module

/-- Whether an instruction may stand in an expression that is evaluated before the module runs: a
constant, a reference, an imported global that never changes, or plain arithmetic on integers. -/
def isConstantOp (c : Context) (imported : Nat) : Op → Bool
  | .i32Const _ | .i64Const _ | .f32Const _ | .f64Const _ | .refNull _ | .done => true
  | .refFunc f => f < c.funcs.size
  | .globalGet i => i < imported && (c.globals[i]?).any fun g => !g.isMutable
  | .numeric (.intBinary _ op) => op == .add || op == .sub || op == .mul
  | _ => false

namespace Module

variable (m : Module) (f : Features)

/-- Whether an expression is constant and gives a value of a kind. -/
def checkConstant (t : ValType) (e : List Op) : Bool :=
  let c := { m.context f with referable := funcRefs e }
  e.all (isConstantOp c m.importedGlobals) && c.checkBody ⟨[], [t]⟩ e

/-- Whether an import may be asked for. -/
def checkImport (i : Import) : Bool :=
  match i.desc with
  | .func t => decide (t < m.types.length)
  | .table t => f.checkTableType t
  | .memory t => f.checkMemoryType t
  | .global t => f.checkGlobalType t

/-- Whether a segment of elements fits its table. -/
def checkElem (e : Elem) : Bool :=
  let (type, good) := match e.items with
    | .funcs fs => (ValType.funcref, fs.all fun i => decide (i < m.funcTypeIndices.length))
    | .exprs t es => (t, f.allows t && es.all (m.checkConstant f t))
  good && match e.mode with
    | .active table offset =>
      (m.tableTypes[table.getD 0]?).any (·.element == type) && m.checkConstant f .i32 offset
    | .passive | .declared => f.bulkMemory

/-- Whether a segment of data fits its memory. -/
def checkData (d : Data) : Bool :=
  match d.place with
  | some (memory, offset) => decide (memory < m.memoryTypes.length) && m.checkConstant f .i32 offset
  | none => true

/-- Whether a function body fits its signature. -/
def checkCode (c : Context) (type : Nat) (code : Code) : Bool :=
  match m.types[type]? with
  | none => false
  | some t =>
    let count := code.locals.foldl (fun n g => n + g.1) 0
    code.locals.all (fun (_, t) => f.allows t)
      && decide (t.params.length + count ≤ maxLocals)
      && (c.withLocals (t.params ++ code.allLocals)).checkBody t code.body

/-- Whether a module can be run. -/
def isValid : Bool :=
  m.types.all f.checkFuncType
    && m.imports.all (m.checkImport f)
    && m.funcs.all (fun t => decide (t < m.types.length))
    && m.tables.all f.checkTableType
    && m.memories.all f.checkMemoryType
    && decide (m.tableTypes.length ≤ if f.referenceTypes then maxItems else 1)
    && decide (m.memoryTypes.length ≤ maxItems)
    && m.globals.all (fun g => f.checkGlobalType g.type && m.checkConstant f g.type.content g.init)
    && m.exports.all (fun e => (m.itemType? e.kind e.index).isSome)
    && decide ((m.exports.map (·.name)).eraseDups.length = m.exports.length)
    && m.start.all (fun s => m.funcType? s == some ⟨[], []⟩)
    && m.elems.all (m.checkElem f)
    && m.datas.all (m.checkData f)
    && (let c := m.context f
        (m.funcs.zip m.codes).all fun (t, code) => m.checkCode f c t code)

end Module

end WasmHost.Wasm

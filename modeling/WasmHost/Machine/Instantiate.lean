import WasmHost.Import
import WasmHost.Wasm.Arithmetic

/-!
# Making instances

`World.allocate` gives a module its functions, globals, tables and memories in a store; nothing can
fail. `World.fill` then applies the active segments, elements before data, each in order; the first
one that does not fit is a fault, and what was applied before it stays.
-/

namespace WasmHost

/-- Applies a numeric instruction to the values on top of a stack. -/
def Wasm.NumOp.apply {ρ : Type} (op : Wasm.NumOp) :
    List (Val ρ) → Except TrapCode (List (Val ρ))
  | stack =>
    match op.type.1, stack with
    | [_, _], b :: a :: rest => (op.eval a.toBits b.toBits).map fun n => .ofBits op.type.2 n :: rest
    | _, a :: rest => (op.eval a.toBits 0).map fun n => .ofBits op.type.2 n :: rest
    | _, [] => .ok []

namespace World

/-- The stack that a constant expression leaves. -/
def constantStack (w : World) (funcs : Array FuncAddr) (globals : Array Nat) :
    List StoreVal → List Wasm.Op → List StoreVal
  | stack, [] => stack
  | stack, op :: ops =>
    let stack := match op with
      | .i32Const b => .i32 b :: stack
      | .i64Const b => .i64 b :: stack
      | .f32Const b => .f32 b :: stack
      | .f64Const b => .f64 b :: stack
      | .refNull t => Val.default t :: stack
      | .refFunc f => .funcref funcs[f]? :: stack
      | .globalGet i => w.globalValue (globals.getD i 0) :: stack
      | .numeric op => (op.apply stack).toOption.getD stack
      | _ => stack
    constantStack w funcs globals stack ops

/-- The value of a constant expression. -/
def constant (w : World) (funcs : Array FuncAddr) (globals : Array Nat) (e : List Wasm.Op) :
    StoreVal :=
  (w.constantStack funcs globals [] e).headD default

/-- Adds globals with their first values; each can refer to those before it. -/
def pushGlobals (funcs : Array FuncAddr) (globals : Array Nat) :
    List Wasm.Global → World → Array Nat × World
  | [], w => (globals, w)
  | g :: gs, w =>
    let value := w.constant funcs globals g.init
    let addr := w.store.globals.size
    let w := (w.holdVal value).mapStore fun s =>
      { s with globals := s.globals.push { type := g.type, value } }
    pushGlobals funcs (globals.push addr) gs w

/-- Adds tables of nulls. -/
def pushTables (slot : Option Nat) (tables : Array Nat) :
    List TableType → World → Array Nat × World
  | [], w => (tables, w)
  | t :: ts, w =>
    let limit := min (t.limits.max.getD maxElements) (slot.getD maxElements)
    let (addr, w) := w.pushTable t limit (Val.default t.element)
    pushTables slot (tables.push addr) ts w

/-- Adds memories. -/
def pushMemories (slot : Option Nat) (memories : Array Nat) :
    List MemoryType → World → Array Nat × World
  | [], w => (memories, w)
  | t :: ts, w =>
    let limit := min (t.limits.max.getD Wasm.maxPages) (slot.getD Wasm.maxPages)
    let (addr, w) := w.pushMemory t.limits.min limit
    pushMemories slot (memories.push addr) ts w

/-- The item that an export names. -/
def exportItem (m : Wasm.Module) (funcs : Array FuncAddr) (globals tables memories : Array Nat)
    (e : Wasm.Export) : Item :=
  match e.kind with
  | .func => .func (funcs.getD e.index 0)
  | .global => .global (globals.getD e.index 0)
  | .table => .table (tables.getD e.index 0) (m.tableTypes.getD e.index default)
  | .memory => .memory (memories.getD e.index 0) (m.memoryTypes.getD e.index default)

/-- Whether a segment of elements is kept for instructions. -/
def isPassive (e : Wasm.Elem) : Bool :=
  match e.mode with
  | .passive => true
  | _ => false

/-- Adds an instance of a module with the given imports. -/
def allocate (m : CompiledModule) (imports : List Item) (w : World) : InstanceAddr × World :=
  let addr := w.store.instances.size
  let o := w.store.engine.options
  let firstFunc := w.store.funcs.size
  let funcs := (imports.filterMap Item.func?).toArray
    ++ (Array.range m.codes.size).map (firstFunc + ·)
  let w := w.mapStore fun s =>
    { s with funcs := s.funcs ++ m.codes.map fun c => { type := c.type, body := .code addr c } }
  let (globals, w) :=
    w.pushGlobals funcs (imports.filterMap Item.global?).toArray m.module.globals
  let (tables, w) :=
    w.pushTables o.pooledElements (imports.filterMap Item.table?).toArray m.module.tables
  let (memories, w) :=
    w.pushMemories o.pooledPages (imports.filterMap Item.memory?).toArray m.module.memories
  let new : Instance :=
    { module := m, funcs, globals, tables, memories
      exports := m.module.exports.map fun e =>
        (e.name, exportItem m.module funcs globals tables memories e)
      droppedElems := (m.module.elems.map fun e => !isPassive e).toArray
      droppedDatas := (m.module.datas.map fun d => d.place.isSome).toArray }
  let engine := w.store.engine.id
  let count := w.shared.instanceCount engine
  (addr, (w.mapStore fun s => { s with instances := s.instances.push new }).mapShared
    (·.setInstanceCount engine (count + 1)))

/-- Puts a value into a table, which holds its box from then on and no longer the old one. -/
def putElem (addr index : Nat) (v : StoreVal) (w : World) : World :=
  let old := ((w.table addr).elems[index]?).getD default
  ((w.holdVal v).mapElems addr (·.setIfInBounds index v)).unholdVal old

/-- Puts values into a table one behind the other. -/
def putElems (addr : Nat) : Nat → List StoreVal → World → World
  | _, [], w => w
  | index, v :: vs, w => putElems addr (index + 1) vs (w.putElem addr index v)

/-- Puts values into a table one behind the other, beginning with the last one. -/
def putElemsBack (addr : Nat) : Nat → List StoreVal → World → World
  | _, [], w => w
  | index, v :: vs, w => (putElemsBack addr (index + 1) vs w).putElem addr index v

/-- Copies values that were read from a place on into a table. Those of a range that overlaps are
moved in the order in which none is overwritten before it is put in its new place. -/
def copyElems (addr source index : Nat) (vs : List StoreVal) (w : World) : World :=
  if index ≤ source then w.putElems addr index vs else w.putElemsBack addr index vs

/-- The values of a segment of elements. -/
def elemValues (w : World) (i : Instance) (items : Wasm.ElemItems) : List StoreVal :=
  match items with
  | .funcs fs => fs.map fun f => .funcref i.funcs[f]?
  | .exprs _ es => es.map (w.constant i.funcs i.globals)

/-- An active segment of elements: the table, the place and the values. -/
def activeElem? (w : World) (i : Instance) (e : Wasm.Elem) :
    Option (Nat × Nat × List StoreVal) :=
  match e.mode with
  | .active table offset =>
    some (i.tables.getD (table.getD 0) 0, (w.constant i.funcs i.globals offset).toBits,
      w.elemValues i e.items)
  | .passive | .declared => none

/-- An active segment of data: the memory, the place and the bytes. -/
def activeData? (w : World) (i : Instance) (d : Wasm.Data) : Option (Nat × Nat × List UInt8) :=
  d.place.map fun (memory, offset) =>
    (i.memories.getD memory 0, (w.constant i.funcs i.globals offset).toBits, d.bytes)

/-- Applies active segments of elements. -/
def fillTables (i : Instance) : List Wasm.Elem → World → Except Cause Unit × World
  | [], w => (.ok (), w)
  | e :: es, w =>
    match w.activeElem? i e with
    | none => fillTables i es w
    | some (table, place, values) =>
      if place + values.length ≤ w.tableSize table then
        fillTables i es (w.putElems table place values)
      else (.error (.code .tableOutOfBounds), w)

/-- Applies active segments of data. -/
def fillMemories (i : Instance) : List Wasm.Data → World → Except Cause Unit × World
  | [], w => (.ok (), w)
  | d :: ds, w =>
    match w.activeData? i d with
    | none => fillMemories i ds w
    | some (memory, place, bytes) =>
      if (w.memory memory).fits place bytes.length then
        fillMemories i ds (w.mapMemory memory (·.put place bytes))
      else (.error (.code .memoryOutOfBounds), w)

/-- The fault of a segment that does not fit, where all are looked at before any is applied. -/
def misplaced? (w : World) (i : Instance) : Option Cause :=
  let m := i.module.module
  if m.elems.any fun e => (w.activeElem? i e).any fun (table, place, values) =>
      decide (w.tableSize table < place + values.length) then
    some (.other "table out of bounds: elements segment does not fit")
  else if m.datas.any fun d => (w.activeData? i d).any fun (memory, place, bytes) =>
      !(w.memory memory).fits place bytes.length then
    some (.other "memory out of bounds: data segment does not fit")
  else none

/-- Applies the active segments of an instance. Without bulk operations all of them must fit. -/
def fill (addr : InstanceAddr) (w : World) : Except Cause Unit × World :=
  match w.store.instances[addr]? with
  | none => (.ok (), w)
  | some i =>
    match if w.store.engine.options.bulkMemory then none else w.misplaced? i with
    | some c => (.error c, w)
    | none =>
      match w.fillTables i i.module.module.elems with
      | (.ok (), w) => w.fillMemories i i.module.module.datas
      | r => r

/-- The instances that an engine can have at a time, if it has a pool. -/
def poolFault? (w : World) : Option Cause :=
  match w.store.engine.options.pooling with
  | some p =>
    if p.maxInstances ≤ w.shared.instanceCount w.store.engine.id then
      some (.other s!"maximum concurrent limit of {p.maxInstances} for core instances reached")
    else none
  | none => none

/-- Makes an instance and applies its segments; its start function has not run yet. -/
def instantiate (m : CompiledModule) (imports : List Item) (w : World) :
    Except Cause InstanceAddr × World :=
  match w.poolFault? with
  | some c => (.error c, w)
  | none =>
    let (addr, w) := w.allocate m imports
    match w.fill addr with
    | (.ok (), w) => (.ok addr, w)
    | (.error c, w) => (.error c, w)

/-- The start function of an instance. -/
def startFunc? (w : World) (addr : InstanceAddr) : Option FuncAddr := do
  let i ← w.store.instances[addr]?
  let s ← i.module.module.start
  i.funcs[s]?

/-- The export of an instance with a name. -/
def getExport (w : World) (addr : InstanceAddr) (name : String) : Option Item :=
  (w.exportsOf addr).lookup name

end World

end WasmHost

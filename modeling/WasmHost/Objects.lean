import WasmHost.World

/-!
# Globals, tables and memories

The operations of an embedder on the objects of a store. One that is refused changes nothing, with
one exception: a table that cannot grow, or grows by nothing, keeps the box of the value it was
offered.
-/

namespace WasmHost.World

/-- The refusal of a value of the wrong kind. -/
def kindError (what : String) (wanted found : ValType) : Error :=
  .typeMismatch s!"{what} of type {wanted.name} cannot hold a {found.name} value"

/-! ## Globals -/

/-- Makes a global. -/
def newGlobal (type : GlobalType) (init : HostVal) (w : World) : Except Error (Nat × World) :=
  if init.type = type.content then
    let (value, w) := w.accept init
    .ok (w.store.globals.size,
      w.mapStore fun s => { s with globals := s.globals.push { type, value } })
  else .error (kindError "global" type.content init.type)

/-- The type of a global. -/
def globalType (w : World) (addr : Nat) : GlobalType :=
  (w.store.globals[addr]?.map (·.type)).getD default

/-- The value of a global, inside the store. -/
def globalValue (w : World) (addr : Nat) : StoreVal :=
  (w.store.globals[addr]?.map (·.value)).getD default

/-- Puts a value into a global, which holds its box from then on and no longer the old one. -/
def putGlobal (addr : Nat) (v : StoreVal) (w : World) : World :=
  let old := w.globalValue addr
  let w := (w.holdVal v).mapStore fun s =>
    { s with globals := s.globals.modify addr ({ · with value := v }) }
  w.unholdVal old

/-- The value of a global. -/
def getGlobal (addr : Nat) (w : World) : HostVal × World := w.reveal (w.globalValue addr)

/-- Sets a global. -/
def setGlobal (addr : Nat) (v : HostVal) (w : World) : Except Error World :=
  let type := w.globalType addr
  if !type.isMutable then .error .immutableGlobal
  else if v.type ≠ type.content then .error (kindError "global" type.content v.type)
  else
    let (v, w) := w.accept v
    .ok ((w.putGlobal addr v).unholdVal v)

/-! ## Tables -/

/-- The most elements that any table can have. -/
def maxElements : Nat := twoTo 32 - 1

/-- Adds a table whose elements are all one value; each of them holds its box. -/
def pushTable (type : TableType) (limit : Nat) (v : StoreVal) (w : World) : Nat × World :=
  let elems := Array.replicate type.limits.min v
  (w.store.tables.size,
    (w.holdAll elems.toList).mapStore fun s =>
      { s with tables := s.tables.push { element := type.element, elems, limit } })

/-- Makes a table. -/
def newTable (type : TableType) (init : HostVal) (w : World) : Except Error (Nat × World) :=
  if !type.element.isRef then
    .error (.typeMismatch
      s!"table element type must be a reference type, found {type.element.name}")
  else if init.type ≠ type.element then .error (kindError "table" type.element init.type)
  else
    let (v, w) := w.accept init
    let (addr, w) := w.pushTable type (type.limits.max.getD maxElements) v
    .ok (addr, w.unholdVal v)

/-- The table with a number. -/
def table (w : World) (addr : Nat) : Table :=
  (w.store.tables[addr]?).getD { element := .funcref, elems := #[], limit := 0 }

/-- The number of elements of a table. -/
def tableSize (w : World) (addr : Nat) : Nat := (w.table addr).elems.size

/-- Changes the elements of a table. -/
def mapElems (addr : Nat) (f : Array StoreVal → Array StoreVal) (w : World) : World :=
  w.mapStore fun s =>
    { s with tables := s.tables.modify addr fun t => { t with elems := f t.elems } }

/-- The element of a table, if it is within bounds. -/
def getTable (addr index : Nat) (w : World) : Option HostVal × World :=
  match (w.table addr).elems[index]? with
  | some v =>
    let (v, w) := w.reveal v
    (some v, w)
  | none => (none, w)

/-- Sets an element of a table. The box of the old element is not given up. -/
def setTable (addr index : Nat) (v : HostVal) (w : World) : Except Error World :=
  let t := w.table addr
  if t.elems.size ≤ index then .error (.outOfBounds index t.elems.size)
  else if v.type ≠ t.element then .error (kindError "table" t.element v.type)
  else
    let (v, w) := w.accept v
    .ok (w.mapElems addr (·.setIfInBounds index v))

/-- Makes a table larger, inside the store: the size before, if there is room. The new elements hold
the box of the value. Without new elements, or without room, its box gains a hold for good. -/
def growElems (addr delta : Nat) (v : StoreVal) (w : World) : Option Nat × World :=
  let t := w.table addr
  if delta = 0 then (some t.elems.size, w.holdVal v)
  else if t.elems.size + delta ≤ t.limit then
    let more := Array.replicate delta v
    (some t.elems.size, (w.holdAll more.toList).mapElems addr (· ++ more))
  else (none, w.holdVal v)

/-- Makes a table larger. -/
def growTable (addr delta : Nat) (v : HostVal) (w : World) : Except Error Nat × World :=
  let t := w.table addr
  if v.type ≠ t.element then (.error (kindError "table" t.element v.type), w)
  else
    let (v, w) := w.accept v
    let (old, w) := w.growElems addr delta v
    let w := w.unholdVal v
    match old with
    | some n => (.ok n, w)
    | none =>
      (.error (.resourceLimit s!"Failed to grow table: failed to grow table by `{delta}`"), w)

/-! ## Memories -/

/-- Adds a memory. -/
def pushMemory (pages limit : Nat) (w : World) : Nat × World :=
  (w.store.memories.size,
    w.mapStore fun s => { s with memories := s.memories.push { pages, limit } })

/-- Makes a memory; bounds that no memory can have are refused with no answer. -/
def newMemory (type : MemoryType) (w : World) : Option (Nat × World) :=
  let max := type.limits.max.getD Wasm.maxPages
  if type.limits.min ≤ max ∧ max ≤ Wasm.maxPages then some (w.pushMemory type.limits.min max)
  else none

/-- The memory with a number. -/
def memory (w : World) (addr : Nat) : Memory :=
  (w.store.memories[addr]?).getD { pages := 0, limit := 0 }

/-- Changes a memory. -/
def mapMemory (addr : Nat) (f : Memory → Memory) (w : World) : World :=
  w.mapStore fun s => { s with memories := s.memories.modify addr f }

/-- Makes a memory larger, if there is room; gives the pages before. -/
def growPages (addr delta : Nat) (w : World) : Option (Nat × World) :=
  let pages := (w.memory addr).pages
  if (w.memory addr).canGrow delta then some (pages, w.mapMemory addr (·.grow delta)) else none

/-- Makes a memory larger; gives the pages before. -/
def growMemory (addr delta : Nat) (w : World) : Except Error (Nat × World) :=
  match w.growPages addr delta with
  | some r => .ok r
  | none =>
    .error (.resourceLimit s!"Failed to grow memory: failed to grow memory by `{delta}`")

/-- The bytes of a range of a memory, if it is within bounds. -/
def readMemory (w : World) (addr offset length : Nat) : Option (List UInt8) :=
  (w.memory addr).read? offset length

/-- Writes bytes into a memory, if their range is within bounds. -/
def writeMemory (addr offset : Nat) (bytes : List UInt8) (w : World) : Option World :=
  if (w.memory addr).fits offset bytes.length then some (w.mapMemory addr (·.put offset bytes))
  else none

/-! ## Types of items -/

/-- The type of an instance's exports; shared memories are left out. -/
def exportsOf (w : World) (addr : InstanceAddr) : List (String × Item) :=
  ((w.store.instances[addr]?.map (·.exports)).getD []).filter fun e => !e.2.isSharedMemory

/-- The type of an item that a module can import and export. -/
def itemType? (w : World) : Item → Option ItemType
  | .func a => (w.store.funcs[a]?).map fun f => .func f.type
  | .global a => some (.global (w.globalType a))
  | .table _ t => some (.table t)
  | .memory _ t => some (.memory t)
  | .instance _ | .module _ => none

/-- The exports of an instance with their types. -/
def exportTypes (w : World) (addr : InstanceAddr) : List ExportType :=
  (w.exportsOf addr).filterMap fun (name, item) =>
    (w.itemType? item).map fun type => { name, type }

/-- The type of an item. -/
def externType (w : World) (item : Item) : ExternType :=
  match item with
  | .instance a => .ofExports (w.exportTypes a)
  | .module m => .ofSignature m.signature
  | item => ((w.itemType? item).map ExternType.ofItem).getD default

end WasmHost.World

import WasmHost.Wasm.Encode

/-!
# Modules from bytes

`Module.decode` reads the binary format. It gives the module together with the places of its
instructions in the binary, which `Module.encode` does not need. Nothing is said of what a fault
was.
-/

namespace WasmHost.Wasm

/-- Where a function body stands in a binary: the place behind its size, the place of its last group
of locals, and the places of its instructions. -/
structure Layout where
  start : Nat
  lastLocals : Nat
  places : Array Nat
deriving DecidableEq

/-- Bytes that are still to be read, and the place of the first one. -/
structure Input where
  place : Nat := 0
  bytes : Bytes

/-- A step of reading, which may fail. -/
abbrev Reader := StateT Input Option

namespace Reader

/-- A step that always fails. -/
def fail {α : Type} : Reader α := StateT.lift none

/-- The next byte. -/
def byte : Reader UInt8 := do
  let i ← get
  match i.bytes with
  | b :: rest =>
    set (Input.mk (i.place + 1) rest)
    return b
  | [] => fail

/-- The next byte, which is left in place. -/
def peek : Reader UInt8 := do
  match (← get).bytes with
  | b :: _ => return b
  | [] => fail

/-- A number that some groups stand for. -/
def leb {α : Type} (read : Bytes → Option (α × Bytes)) : Reader α := do
  let i ← get
  match read i.bytes with
  | some (n, rest) =>
    set (Input.mk (i.place + (i.bytes.length - rest.length)) rest)
    return n
  | none => fail

/-- A natural number of 32 bits. -/
def u32 : Reader Nat := leb (Leb.readUnsigned 32)

/-- The next bytes, of a given number. -/
def take (n : Nat) : Reader Bytes := do
  let i ← get
  let bytes := i.bytes.take n
  if bytes.length = n then
    set (Input.mk (i.place + n) (i.bytes.drop n))
    return bytes
  else fail

/-- Whether all bytes are read. -/
def atEnd : Reader Bool := return (← get).bytes.isEmpty

/-- Reads one thing out of the next `n` bytes, which it must use up. -/
def within {α : Type} (n : Nat) (item : Reader α) : Reader α := do
  let place := (← get).place
  let bytes ← take n
  match item.run ⟨place, bytes⟩ with
  | some (a, rest) => if rest.bytes.isEmpty then return a else fail
  | none => fail

/-- Reads a thing a number of times. -/
def times {α : Type} (item : Reader α) : Nat → Reader (List α)
  | 0 => return []
  | n + 1 => do
    let a ← item
    return a :: (← times item n)

/-- A list with its length in front. -/
def vector {α : Type} (item : Reader α) : Reader (List α) := do times item (← u32)

/-- A text with its size in front. -/
def name : Reader String := do
  let bytes ← take (← u32)
  (Text.decodeUtf8 bytes).toOption

/-- A number of `n` bytes, the least significant first. -/
def littleEndian (n : Nat) : Reader Nat := do
  return (← take n).foldr (fun b acc => b.toNat + 256 * acc) 0

/-! ## Types -/

/-- The kind of value that a byte stands for. -/
def valTypeOf? (b : UInt8) : Option ValType := ValType.all.find? (Encode.valType · == b)

/-- A kind of value; a reference may be spelled out. -/
def valType : Reader ValType := do
  let b ← byte
  if b = 0x63 then
    let t ← valTypeOf? (← byte)
    if t.isRef then return t else fail
  else valTypeOf? b

/-- A kind of reference. -/
def refType : Reader ValType := do
  let t ← valType
  if t.isRef then return t else fail

/-- A signature. -/
def funcType : Reader FuncType := do
  if (← byte) = 0x60 then
    let params ← vector valType
    let results ← vector valType
    return ⟨params, results⟩
  else fail

/-- Bounds, and whether the flag of a shared item is set. -/
def limits : Reader (Limits × Bool) := do
  let flag ← byte
  if flag ≤ 3 then
    let min ← u32
    let max ← if flag = 1 ∨ flag = 3 then (do pure (some (← u32))) else pure none
    return (⟨min, max⟩, flag ≥ 2)
  else fail

/-- The type of a table. -/
def tableType : Reader TableType := do
  let element ← refType
  match ← limits with
  | (l, false) => return ⟨element, l⟩
  | _ => fail

/-- The type of a memory. -/
def memoryType : Reader MemoryType := do
  let (l, shared) ← limits
  return ⟨l, shared⟩

/-- The type of a global. -/
def globalType : Reader GlobalType := do
  let content ← valType
  match ← byte with
  | 0 => return ⟨content, false⟩
  | 1 => return ⟨content, true⟩
  | _ => fail

/-! ## Instructions -/

/-- The type of a block. -/
def blockType : Reader BlockType := do
  let b ← peek
  if b = 0x40 then
    let _ ← byte
    return .empty
  else if (valTypeOf? b).isSome ∨ b = 0x63 then return .value (← valType)
  else
    let n ← leb (Leb.readSigned 33)
    if 0 ≤ n then return .index n.toNat else fail

/-- Where a memory instruction points. -/
def memArg : Reader MemArg := do
  let align ← u32
  if align < 64 then
    let offset ← u32
    return { align, offset }
  else if align < 128 then
    let memory ← u32
    let offset ← u32
    return { align := align - 64, offset, memory }
  else fail

/-- The kind of a null reference. -/
def nullType : Reader ValType := do
  let t ← valTypeOf? (← byte)
  if t.isRef then return t else fail

/-- An instruction behind the escape byte of the bulk operations. -/
def extended : Reader Op := do
  let code ← u32
  match NumOp.saturating[code]? with
  | some op => return .numeric op
  | none =>
    match code with
    | 8 => return .memoryInit (← u32) (← u32)
    | 9 => return .dataDrop (← u32)
    | 10 => return .memoryCopy (← u32) (← u32)
    | 11 => return .memoryFill (← u32)
    | 12 => return .tableInit (← u32) (← u32)
    | 13 => return .elemDrop (← u32)
    | 14 => return .tableCopy (← u32) (← u32)
    | 15 => return .tableGrow (← u32)
    | 16 => return .tableSize (← u32)
    | 17 => return .tableFill (← u32)
    | _ => fail

/-- An instruction whose opcode says only which load, store or numeric operation it is. -/
def tabled (code : Nat) : Reader Op := do
  if code < LoadOp.firstOpcode then fail
  else if h : code - LoadOp.firstOpcode < LoadOp.all.length then
    return .load LoadOp.all[code - LoadOp.firstOpcode] (← memArg)
  else if h : code - StoreOp.firstOpcode < StoreOp.all.length then
    return .store StoreOp.all[code - StoreOp.firstOpcode] (← memArg)
  else if code < NumOp.firstOpcode then fail
  else
    match NumOp.all[code - NumOp.firstOpcode]? with
    | some op => return .numeric op
    | none => fail

/-- An instruction. -/
def op : Reader Op := do
  let code ← byte
  match code with
  | 0x00 => return .unreachable
  | 0x01 => return .nop
  | 0x02 => return .block (← blockType)
  | 0x03 => return .loop (← blockType)
  | 0x04 => return .ifThen (← blockType)
  | 0x05 => return .orElse
  | 0x0b => return .done
  | 0x0c => return .br (← u32)
  | 0x0d => return .brIf (← u32)
  | 0x0e => return .brTable (← vector u32) (← u32)
  | 0x0f => return .ret
  | 0x10 => return .call (← u32)
  | 0x11 => return .callIndirect (← u32) (← u32)
  | 0x1a => return .drop
  | 0x1b => return .select
  | 0x1c => return .selectTyped (← vector valType)
  | 0x20 => return .localGet (← u32)
  | 0x21 => return .localSet (← u32)
  | 0x22 => return .localTee (← u32)
  | 0x23 => return .globalGet (← u32)
  | 0x24 => return .globalSet (← u32)
  | 0x25 => return .tableGet (← u32)
  | 0x26 => return .tableSet (← u32)
  | 0x3f => return .memorySize (← u32)
  | 0x40 => return .memoryGrow (← u32)
  | 0x41 => return .i32Const (UInt32.ofInt (← leb (Leb.readSigned 32)))
  | 0x42 => return .i64Const (UInt64.ofInt (← leb (Leb.readSigned 64)))
  | 0x43 => return .f32Const (UInt32.ofNat (← littleEndian 4))
  | 0x44 => return .f64Const (UInt64.ofNat (← littleEndian 8))
  | 0xd0 => return .refNull (← nullType)
  | 0xd1 => return .refIsNull
  | 0xd2 => return .refFunc (← u32)
  | 0xfc => extended
  | 0xfe => if (← u32) = 0x10 then return .atomicLoad (← memArg) else fail
  | code => tabled code.toNat

/-- The instructions of an expression up to its end, at most `fuel` of them. -/
def exprWithin : Nat → Reader (List Op)
  | 0 => fail
  | fuel + 1 => do
    let o ← op
    if o = .done then return [o] else return o :: (← exprWithin fuel)

/-- The instructions of an expression up to its end. -/
def expr : Reader (List Op) := do exprWithin (← get).bytes.length

/-- The instructions up to the end of the input with their places, at most `fuel` of them. -/
def opsWithin : Nat → Reader (List (Nat × Op))
  | 0 => return []
  | fuel + 1 => do
    if ← atEnd then return []
    else
      let place := (← get).place
      let o ← op
      return (place, o) :: (← opsWithin fuel)

/-! ## Entries of sections -/

/-- An import. -/
def importEntry : Reader Import := do
  let module ← name
  let name ← name
  let desc ← match ← byte with
    | 0x00 => do pure (ImportDesc.func (← u32))
    | 0x01 => do pure (.table (← tableType))
    | 0x02 => do pure (.memory (← memoryType))
    | 0x03 => do pure (.global (← globalType))
    | _ => fail
  return ⟨module, name, desc⟩

/-- The kind of item of an export. -/
def itemKind : Reader ItemKind := do
  let b ← byte
  [ItemKind.func, .table, .memory, .global].find? (Encode.itemKind · == b)

/-- An export. -/
def exportEntry : Reader Export := do
  let name ← name
  let kind ← itemKind
  return ⟨name, kind, ← u32⟩

/-- A global. -/
def globalEntry : Reader Global := do
  let type ← globalType
  return ⟨type, ← expr⟩

/-- A segment of elements. -/
def elemEntry : Reader Elem := do
  let flag ← u32
  if flag < 8 then
    let mode ← match flag % 4 with
      | 0 => do pure (ElemMode.active none (← expr))
      | 1 => pure .passive
      | 2 => do
        let table ← u32
        pure (.active (some table) (← expr))
      | _ => pure .declared
    let items ←
      if flag < 4 then do
        let kind ← if flag = 0 then pure 0 else byte
        if kind = 0 then pure (ElemItems.funcs (← vector u32)) else fail
      else do
        let type ← if flag = 4 then pure .funcref else refType
        pure (ElemItems.exprs type (← vector expr))
    return ⟨mode, items⟩
  else fail

/-- A group of locals with its place. -/
def localGroup : Reader (Nat × Nat × ValType) := do
  let place := (← get).place
  let count ← u32
  return (place, count, ← valType)

/-- A function body, and where its parts stand. -/
def codeEntry : Reader (Code × Layout) := do
  let size ← u32
  let start := (← get).place
  within size do
    let groups ← vector localGroup
    let ops ← opsWithin ((← get).bytes.length + 1)
    return (⟨groups.map (·.2), ops.map (·.2)⟩,
      { start, lastLocals := (groups.getLast?.map (·.1)).getD start
        places := (ops.map (·.1)).toArray })

/-- A segment of data. -/
def dataEntry : Reader Data := do
  let place ← match ← u32 with
    | 0 => do pure (some (0, ← expr))
    | 1 => pure none
    | 2 => do
      let memory ← u32
      pure (some (memory, ← expr))
    | _ => fail
  return ⟨place, ← take (← u32)⟩

/-! ## Names -/

/-- Names by index up to the first that cannot be read; the flag says whether all could. -/
def namesUpTo : Nat → Input → NameMap × Bool
  | 0, i => ([], i.bytes.isEmpty)
  | n + 1, i =>
    match (do let index ← u32; return (index, ← name) : Reader (Nat × String)).run i with
    | some (entry, i) =>
      let (rest, good) := namesUpTo n i
      (entry :: rest, good)
    | none => ([], false)

/-- Adds the names of one part of a name section; the flag says whether reading goes on. -/
def namePart (n : Names) (id : UInt8) (i : Input) : Names × Bool :=
  match id with
  | 0 =>
    match name.run i with
    | some (s, rest) =>
      if rest.bytes.isEmpty then ({ n with module := some s }, true) else (n, false)
    | none => (n, false)
  | 1 =>
    match u32.run i with
    | some (count, i) =>
      let (entries, good) := namesUpTo count i
      ({ n with funcs := n.funcs ++ entries }, good)
    | none => (n, false)
  | _ => (n, true)

/-- The names that the parts of a name section give, up to the first part that cannot be read. Only
those of the module and its functions are of use. -/
def nameParts : Nat → Names → Input → Names
  | 0, n, _ => n
  | fuel + 1, n, i =>
    match (do
      let id ← byte
      let size ← u32
      let place := (← get).place
      return (id, Input.mk place (← take size)) : Reader (UInt8 × Input)).run i with
    | some ((id, part), rest) =>
      let (n, good) := namePart n id part
      if good then nameParts fuel n rest else n
    | none => n

end Reader

/-! ## Sections -/

/-- A module that is being read: what is known so far, and the sections still allowed. -/
structure Progress where
  module : Module := {}
  layouts : List Layout := []
  /-- The rank of the last section in the order of the format. -/
  rank : Nat := 0

/-- The ids of the sections in their order. -/
def sectionOrder : List UInt8 := [1, 2, 3, 4, 5, 6, 7, 8, 9, 12, 10, 11]

open Reader in
/-- Reads the contents of one section. -/
def sectionBody (p : Progress) (id : UInt8) : Reader Progress := do
  let m := p.module
  match id with
  | 0 =>
    let title ← name
    let i ← get
    set (Input.mk (i.place + i.bytes.length) [])
    if title = "name" then
      return { p with module := { m with names := nameParts (i.bytes.length + 1) m.names i } }
    else return p
  | 1 => return { p with module := { m with types := ← vector funcType } }
  | 2 => return { p with module := { m with imports := ← vector importEntry } }
  | 3 => return { p with module := { m with funcs := ← vector u32 } }
  | 4 => return { p with module := { m with tables := ← vector tableType } }
  | 5 => return { p with module := { m with memories := ← vector memoryType } }
  | 6 => return { p with module := { m with globals := ← vector globalEntry } }
  | 7 => return { p with module := { m with exports := ← vector exportEntry } }
  | 8 => return { p with module := { m with start := some (← u32) } }
  | 9 => return { p with module := { m with elems := ← vector elemEntry } }
  | 12 => return { p with module := { m with dataCount := some (← u32) } }
  | 10 =>
    let codes ← vector codeEntry
    return { p with module := { m with codes := codes.map (·.1) }, layouts := codes.map (·.2) }
  | 11 => return { p with module := { m with datas := ← vector dataEntry } }
  | _ => fail

open Reader in
/-- Reads a section: those with a place in the order come at most once and in order. -/
def readSection (p : Progress) : Reader Progress := do
  let id ← byte
  let size ← u32
  if id = 0 then within size (sectionBody p id)
  else
    match sectionOrder.idxOf? id with
    | some i =>
      if p.rank ≤ i then within size (sectionBody { p with rank := i + 1 } id) else fail
    | none => fail

open Reader in
/-- Reads sections to the end of the input, at most `fuel` of them. -/
def sections : Nat → Progress → Reader Progress
  | 0, p => return p
  | fuel + 1, p => do
    if ← atEnd then return p else sections fuel (← readSection p)

/-- The module that a binary holds, and where its function bodies stand. -/
def Module.decode (bytes : Bytes) : Option (Module × List Layout) := do
  if magic ++ version = bytes.take 8 then
    let (p, _) ← (sections (bytes.length + 1) {}).run ⟨8, bytes.drop 8⟩
    let m := p.module
    if m.funcs.length = m.codes.length ∧ m.dataCount.all (· = m.datas.length) then
      return (m, p.layouts)
    else none
  else none

end WasmHost.Wasm

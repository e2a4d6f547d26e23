import WasmHost.Text.Utf8
import WasmHost.Wasm.Leb
import WasmHost.Wasm.Module

/-!
# Modules as bytes

`Module.encode` writes a module in the binary format. Every size and index takes the fewest bytes;
sections stand in the order of the format, an empty one is left out, and the names come last.
-/

namespace WasmHost.Wasm

open Leb (unsigned signed)

/-- A binary module. -/
abbrev Bytes := List UInt8

/-- The bytes that begin every module, and the version behind them. -/
def magic : Bytes := [0x00, 0x61, 0x73, 0x6d]

/-- The version of the format. -/
def version : Bytes := [0x01, 0x00, 0x00, 0x00]

namespace Encode

/-- A list with its length in front. -/
def vector {α : Type} (item : α → Bytes) (xs : List α) : Bytes :=
  unsigned xs.length ++ xs.flatMap item

/-- Bytes with their number in front. -/
def sized (bytes : Bytes) : Bytes := unsigned bytes.length ++ bytes

/-- A text with its size in front. -/
def name (s : String) : Bytes := sized (Text.encodeUtf8 s)

/-- The `n` low bytes of a number, the least first. -/
def littleEndian : Nat → Nat → Bytes
  | 0, _ => []
  | n + 1, bits => UInt8.ofNat bits :: littleEndian n (bits / 256)

/-- A kind of value. -/
def valType : ValType → UInt8
  | .i32 => 0x7f
  | .i64 => 0x7e
  | .f32 => 0x7d
  | .f64 => 0x7c
  | .v128 => 0x7b
  | .funcref => 0x70
  | .externref => 0x6f

/-- A signature. -/
def funcType (t : FuncType) : Bytes :=
  0x60 :: vector (fun t => [valType t]) t.params ++ vector (fun t => [valType t]) t.results

/-- Bounds; `shared` is a flag beside the one for a maximum. -/
def limits (l : Limits) (shared : Bool) : Bytes :=
  let flag : UInt8 := (if l.max.isSome then 1 else 0) + (if shared then 2 else 0)
  flag :: unsigned l.min ++ (match l.max with | some n => unsigned n | none => [])

/-- The type of a table. -/
def tableType (t : TableType) : Bytes := valType t.element :: limits t.limits false

/-- The type of a memory. -/
def memoryType (t : MemoryType) : Bytes := limits t.limits t.shared

/-- The type of a global. -/
def globalType (t : GlobalType) : Bytes := [valType t.content, if t.isMutable then 1 else 0]

/-- The type of a block; an index is a signed number. -/
def blockType : BlockType → Bytes
  | .empty => [0x40]
  | .value t => [valType t]
  | .index n => signed n

/-- Where a memory instruction points; a memory other than the first one is marked and follows the
alignment. -/
def memArg (a : MemArg) : Bytes :=
  if a.memory = 0 then unsigned a.align ++ unsigned a.offset
  else unsigned (a.align + 64) ++ unsigned a.memory ++ unsigned a.offset

/-- An instruction behind the escape byte of the bulk operations. -/
def extended (code : Nat) (rest : Bytes) : Bytes := 0xfc :: unsigned code ++ rest

/-- A numeric instruction. -/
def numOp (op : NumOp) : Bytes :=
  match NumOp.saturating.idxOf? op with
  | some i => extended i []
  | none => [UInt8.ofNat (NumOp.firstOpcode + NumOp.all.idxOf op)]

/-- An instruction. -/
def op : Op → Bytes
  | .unreachable => [0x00]
  | .nop => [0x01]
  | .block t => 0x02 :: blockType t
  | .loop t => 0x03 :: blockType t
  | .ifThen t => 0x04 :: blockType t
  | .orElse => [0x05]
  | .done => [0x0b]
  | .br l => 0x0c :: unsigned l
  | .brIf l => 0x0d :: unsigned l
  | .brTable ls l => 0x0e :: vector unsigned ls ++ unsigned l
  | .ret => [0x0f]
  | .call f => 0x10 :: unsigned f
  | .callIndirect t n => 0x11 :: unsigned t ++ unsigned n
  | .drop => [0x1a]
  | .select => [0x1b]
  | .selectTyped ts => 0x1c :: vector (fun t => [valType t]) ts
  | .localGet i => 0x20 :: unsigned i
  | .localSet i => 0x21 :: unsigned i
  | .localTee i => 0x22 :: unsigned i
  | .globalGet i => 0x23 :: unsigned i
  | .globalSet i => 0x24 :: unsigned i
  | .tableGet t => 0x25 :: unsigned t
  | .tableSet t => 0x26 :: unsigned t
  | .load o a => UInt8.ofNat (LoadOp.firstOpcode + LoadOp.all.idxOf o) :: memArg a
  | .store o a => UInt8.ofNat (StoreOp.firstOpcode + StoreOp.all.idxOf o) :: memArg a
  | .memorySize m => 0x3f :: unsigned m
  | .memoryGrow m => 0x40 :: unsigned m
  | .i32Const b => 0x41 :: signed b.toInt32.toInt
  | .i64Const b => 0x42 :: signed b.toInt64.toInt
  | .f32Const b => 0x43 :: littleEndian 4 b.toNat
  | .f64Const b => 0x44 :: littleEndian 8 b.toNat
  | .numeric o => numOp o
  | .refNull t => [0xd0, valType t]
  | .refIsNull => [0xd1]
  | .refFunc f => 0xd2 :: unsigned f
  | .memoryInit d m => extended 8 (unsigned d ++ unsigned m)
  | .dataDrop d => extended 9 (unsigned d)
  | .memoryCopy t s => extended 10 (unsigned t ++ unsigned s)
  | .memoryFill m => extended 11 (unsigned m)
  | .tableInit e t => extended 12 (unsigned e ++ unsigned t)
  | .elemDrop e => extended 13 (unsigned e)
  | .tableCopy t s => extended 14 (unsigned t ++ unsigned s)
  | .tableGrow t => extended 15 (unsigned t)
  | .tableSize t => extended 16 (unsigned t)
  | .tableFill t => extended 17 (unsigned t)
  | .atomicLoad a => 0xfe :: unsigned 0x10 ++ memArg a

/-- A sequence of instructions. -/
def expr (ops : List Op) : Bytes := ops.flatMap op

/-- An import. -/
def importEntry (i : Import) : Bytes :=
  name i.module ++ name i.name ++
    match i.desc with
    | .func t => 0x00 :: unsigned t
    | .table t => 0x01 :: tableType t
    | .memory t => 0x02 :: memoryType t
    | .global t => 0x03 :: globalType t

/-- The byte of a kind of item. -/
def itemKind : ItemKind → UInt8
  | .func => 0x00
  | .table => 0x01
  | .memory => 0x02
  | .global => 0x03

/-- An export. -/
def exportEntry (e : Export) : Bytes := name e.name ++ itemKind e.kind :: unsigned e.index

/-- A global. -/
def globalEntry (g : Global) : Bytes := globalType g.type ++ expr g.init

/-- A segment of elements. The flag tells expressions from functions (4), a passive or declared
segment from an active one (1), and a written table or a declared segment (2); the shortest form has
neither a table nor a type. -/
def elemEntry (e : Elem) : Bytes :=
  let (bit, type, items) : Nat × UInt8 × Bytes :=
    match e.items with
    | .funcs fs => (0, 0x00, vector unsigned fs)
    | .exprs t es => (4, valType t, vector expr es)
  match e.mode with
  | .active none offset => unsigned bit ++ expr offset ++ items
  | .passive => unsigned (bit + 1) ++ type :: items
  | .active (some t) offset => unsigned (bit + 2) ++ unsigned t ++ expr offset ++ type :: items
  | .declared => unsigned (bit + 3) ++ type :: items

/-- A function body. -/
def codeEntry (c : Code) : Bytes :=
  sized (vector (fun (n, t) => unsigned n ++ [valType t]) c.locals ++ expr c.body)

/-- A segment of data. -/
def dataEntry (d : Data) : Bytes :=
  (match d.place with
    | none => unsigned 1
    | some (0, offset) => unsigned 0 ++ expr offset
    | some (m, offset) => unsigned 2 ++ unsigned m ++ expr offset) ++ sized d.bytes

/-! ## Sections -/

/-- A section with its number and size. -/
def sectionOf (id : UInt8) (body : Bytes) : Bytes := id :: sized body

/-- A section that lists things, if there are any. -/
def entries {α : Type} (id : UInt8) (item : α → Bytes) (xs : List α) : Bytes :=
  if xs.isEmpty then [] else sectionOf id (vector item xs)

/-- Names by index. -/
def nameMap (ns : NameMap) : Bytes := vector (fun (i, n) => unsigned i ++ name n) ns

/-- Names by two indices. -/
def nestedNameMap (ns : List (Nat × NameMap)) : Bytes :=
  vector (fun (i, inner) => unsigned i ++ nameMap inner) ns

/-- The section that holds the names, if there are any. -/
def nameSection (n : Names) : Bytes :=
  let flat (id : UInt8) (ns : NameMap) : Bytes :=
    if ns.isEmpty then [] else sectionOf id (nameMap ns)
  let nested (id : UInt8) (ns : List (Nat × NameMap)) : Bytes :=
    if ns.isEmpty then [] else sectionOf id (nestedNameMap ns)
  let body := (match n.module with | some s => sectionOf 0 (name s) | none => [])
    ++ flat 1 n.funcs ++ nested 2 n.locals ++ nested 3 n.labels ++ flat 4 n.types
    ++ flat 5 n.tables ++ flat 6 n.memories ++ flat 7 n.globals ++ flat 8 n.elems ++ flat 9 n.datas
  if body.isEmpty then [] else sectionOf 0 (name "name" ++ body)

end Encode

open Encode in
/-- A module in the binary format. -/
def Module.encode (m : Module) : Bytes :=
  magic ++ version
    ++ entries 1 funcType m.types
    ++ entries 2 importEntry m.imports
    ++ entries 3 unsigned m.funcs
    ++ entries 4 tableType m.tables
    ++ entries 5 memoryType m.memories
    ++ entries 6 globalEntry m.globals
    ++ entries 7 exportEntry m.exports
    ++ (match m.start with | some f => sectionOf 8 (unsigned f) | none => [])
    ++ entries 9 elemEntry m.elems
    ++ (match m.dataCount with | some n => sectionOf 12 (unsigned n) | none => [])
    ++ entries 10 codeEntry m.codes
    ++ entries 11 dataEntry m.datas
    ++ nameSection m.names

end WasmHost.Wasm

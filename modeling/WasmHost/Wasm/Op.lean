import WasmHost.Wasm.Numeric
import WasmHost.Value

/-!
# Instructions

A function body is a flat sequence of instructions in which `block`, `loop`, `ifThen`, `orElse` and
`done` mark the structure, as they do in the binary format. All indices are numbers.
-/

namespace WasmHost.Wasm

/-- The type of a block: none or one result, or an index of a signature. -/
inductive BlockType where
  | empty
  | value (type : ValType)
  | index (type : Nat)
deriving DecidableEq

/-- Where a memory instruction points: the alignment as a power of two, a constant offset, and the
memory. -/
structure MemArg where
  align : Nat
  offset : Nat := 0
  memory : Nat := 0
deriving DecidableEq

/-- The bytes that a number of a type fills. -/
def numberBytes : ValType → Nat
  | .i32 | .f32 => 4
  | .i64 | .f64 => 8
  | .v128 => 16
  | .externref | .funcref => 0

/-- A load: the type it gives, the bytes it reads, and how they are extended. -/
structure LoadOp where
  type : ValType
  bytes : Nat
  sign : Sign := .unsigned
deriving DecidableEq

namespace LoadOp

/-- The mnemonic: one that reads fewer bytes than its type fills says how many bits. -/
def name (op : LoadOp) : String :=
  if op.bytes = numberBytes op.type then op.type.name ++ ".load"
  else op.type.name ++ s!".load{8 * op.bytes}" ++ op.sign.suffix

/-- The loads, in the order of their opcodes. -/
def all : List LoadOp :=
  [⟨.i32, 4, .unsigned⟩, ⟨.i64, 8, .unsigned⟩, ⟨.f32, 4, .unsigned⟩, ⟨.f64, 8, .unsigned⟩]
    ++ narrow .i32 [1, 2] ++ narrow .i64 [1, 2, 4]
where
  narrow (t : ValType) (bytes : List Nat) : List LoadOp :=
    bytes.flatMap fun n => [⟨t, n, .signed⟩, ⟨t, n, .unsigned⟩]

/-- The opcode of the first load. -/
def firstOpcode : Nat := 0x28

end LoadOp

/-- A store: the type it takes, and the bytes it writes. -/
structure StoreOp where
  type : ValType
  bytes : Nat
deriving DecidableEq

namespace StoreOp

/-- The mnemonic: one that writes fewer bytes than its type fills says how many bits. -/
def name (op : StoreOp) : String :=
  if op.bytes = numberBytes op.type then op.type.name ++ ".store"
  else op.type.name ++ s!".store{8 * op.bytes}"

/-- The stores, in the order of their opcodes. -/
def all : List StoreOp :=
  [⟨.i32, 4⟩, ⟨.i64, 8⟩, ⟨.f32, 4⟩, ⟨.f64, 8⟩,
    ⟨.i32, 1⟩, ⟨.i32, 2⟩, ⟨.i64, 1⟩, ⟨.i64, 2⟩, ⟨.i64, 4⟩]

/-- The opcode of the first store. -/
def firstOpcode : Nat := 0x36

end StoreOp

/-- An instruction. -/
inductive Op where
  | unreachable
  | nop
  | block (type : BlockType)
  | loop (type : BlockType)
  | ifThen (type : BlockType)
  | orElse
  | done
  | br (label : Nat)
  | brIf (label : Nat)
  | brTable (labels : List Nat) (otherwise : Nat)
  | ret
  | call (func : Nat)
  | callIndirect (type table : Nat)
  | drop
  | select
  | selectTyped (types : List ValType)
  | localGet (index : Nat)
  | localSet (index : Nat)
  | localTee (index : Nat)
  | globalGet (index : Nat)
  | globalSet (index : Nat)
  | tableGet (table : Nat)
  | tableSet (table : Nat)
  | tableSize (table : Nat)
  | tableGrow (table : Nat)
  | tableFill (table : Nat)
  | tableCopy (target source : Nat)
  | tableInit (elem table : Nat)
  | elemDrop (elem : Nat)
  | refNull (type : ValType)
  | refIsNull
  | refFunc (func : Nat)
  | load (op : LoadOp) (arg : MemArg)
  | store (op : StoreOp) (arg : MemArg)
  | atomicLoad (arg : MemArg)
  | memorySize (memory : Nat)
  | memoryGrow (memory : Nat)
  | memoryFill (memory : Nat)
  | memoryCopy (target source : Nat)
  | memoryInit (data memory : Nat)
  | dataDrop (data : Nat)
  | i32Const (bits : UInt32)
  | i64Const (bits : UInt64)
  | f32Const (bits : UInt32)
  | f64Const (bits : UInt64)
  | numeric (op : NumOp)
deriving DecidableEq

end WasmHost.Wasm

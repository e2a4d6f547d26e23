import WasmHost.Types

/-!
# Numeric instructions

`NumOp` holds the instructions that take numbers and give a number. Their opcodes run without a gap
through `NumOp.all`, and the saturating conversions through `NumOp.saturating`; a mnemonic is built
from the type of the result and the word of the operation.
-/

namespace WasmHost.Wasm

/-- The two sizes of a number. -/
inductive Size where
  | w32 | w64
deriving DecidableEq, Inhabited

namespace Size

/-- The bits of a number. -/
def bits : Size → Nat
  | w32 => 32
  | w64 => 64

/-- The integers of a size. -/
def int : Size → ValType
  | w32 => .i32
  | w64 => .i64

/-- The floats of a size. -/
def float : Size → ValType
  | w32 => .f32
  | w64 => .f64

/-- Both sizes. -/
def all : List Size := [w32, w64]

end Size

/-- Operations on one integer. -/
inductive IntUnary where
  | clz | ctz | popcnt
deriving DecidableEq

/-- Operations on two integers. -/
inductive IntBinary where
  | add | sub | mul | divS | divU | remS | remU | and | or | xor | shl | shrS | shrU | rotl | rotr
deriving DecidableEq

/-- Comparisons of two integers. -/
inductive IntCompare where
  | eq | ne | ltS | ltU | gtS | gtU | leS | leU | geS | geU
deriving DecidableEq

/-- Operations on one float. -/
inductive FloatUnary where
  | abs | neg | ceil | floor | trunc | nearest | sqrt
deriving DecidableEq

/-- Operations on two floats. -/
inductive FloatBinary where
  | add | sub | mul | div | min | max | copysign
deriving DecidableEq

/-- Comparisons of two floats. -/
inductive FloatCompare where
  | eq | ne | lt | gt | le | ge
deriving DecidableEq

/-- Whether an integer is read with a sign. -/
inductive Sign where
  | signed | unsigned
deriving DecidableEq

/-- Conversions between kinds of number. -/
inductive Conversion where
  | wrap
  | extend (sign : Sign)
  | truncate (target source : Size) (sign : Sign)
  | saturate (target source : Size) (sign : Sign)
  | convert (target source : Size) (sign : Sign)
  | demote
  | promote
  | intBits (size : Size)
  | floatBits (size : Size)
  /-- The low `bits` bits of an integer, read with a sign. -/
  | extendLow (size : Size) (bits : Nat)
deriving DecidableEq

/-- An instruction that takes numbers and gives a number. -/
inductive NumOp where
  | eqz (size : Size)
  | intCompare (size : Size) (op : IntCompare)
  | floatCompare (size : Size) (op : FloatCompare)
  | intUnary (size : Size) (op : IntUnary)
  | intBinary (size : Size) (op : IntBinary)
  | floatUnary (size : Size) (op : FloatUnary)
  | floatBinary (size : Size) (op : FloatBinary)
  | conversion (op : Conversion)
deriving DecidableEq

/-! ## Words -/

/-- The word of an operation. -/
def IntUnary.name : IntUnary → String
  | clz => "clz"
  | ctz => "ctz"
  | popcnt => "popcnt"

/-- The word of an operation. -/
def IntBinary.name : IntBinary → String
  | add => "add"
  | sub => "sub"
  | mul => "mul"
  | divS => "div_s"
  | divU => "div_u"
  | remS => "rem_s"
  | remU => "rem_u"
  | and => "and"
  | or => "or"
  | xor => "xor"
  | shl => "shl"
  | shrS => "shr_s"
  | shrU => "shr_u"
  | rotl => "rotl"
  | rotr => "rotr"

/-- The word of a comparison. -/
def IntCompare.name : IntCompare → String
  | eq => "eq"
  | ne => "ne"
  | ltS => "lt_s"
  | ltU => "lt_u"
  | gtS => "gt_s"
  | gtU => "gt_u"
  | leS => "le_s"
  | leU => "le_u"
  | geS => "ge_s"
  | geU => "ge_u"

/-- The word of an operation. -/
def FloatUnary.name : FloatUnary → String
  | abs => "abs"
  | neg => "neg"
  | ceil => "ceil"
  | floor => "floor"
  | trunc => "trunc"
  | nearest => "nearest"
  | sqrt => "sqrt"

/-- The word of an operation. -/
def FloatBinary.name : FloatBinary → String
  | add => "add"
  | sub => "sub"
  | mul => "mul"
  | div => "div"
  | min => "min"
  | max => "max"
  | copysign => "copysign"

/-- The word of a comparison. -/
def FloatCompare.name : FloatCompare → String
  | eq => "eq"
  | ne => "ne"
  | lt => "lt"
  | gt => "gt"
  | le => "le"
  | ge => "ge"

/-- The ending that tells how an integer is read. -/
def Sign.suffix : Sign → String
  | signed => "_s"
  | unsigned => "_u"

/-! ## Operands and results -/

/-- What a conversion takes. -/
def Conversion.source : Conversion → ValType
  | wrap => .i64
  | extend _ => .i32
  | truncate _ s _ | saturate _ s _ => s.float
  | convert _ s _ => s.int
  | demote => .f64
  | promote => .f32
  | intBits s => s.float
  | floatBits s => s.int
  | extendLow s _ => s.int

/-- What a conversion gives. -/
def Conversion.target : Conversion → ValType
  | wrap => .i32
  | extend _ => .i64
  | truncate t _ _ | saturate t _ _ => t.int
  | convert t _ _ => t.float
  | demote => .f32
  | promote => .f64
  | intBits s => s.int
  | floatBits s => s.float
  | extendLow s _ => s.int

/-- The word of a conversion. -/
def Conversion.name : Conversion → String
  | wrap => "wrap_i64"
  | extend s => "extend_i32" ++ s.suffix
  | truncate _ f s => "trunc_" ++ f.float.name ++ s.suffix
  | saturate _ f s => "trunc_sat_" ++ f.float.name ++ s.suffix
  | convert _ f s => "convert_" ++ f.int.name ++ s.suffix
  | demote => "demote_f64"
  | promote => "promote_f32"
  | intBits s => "reinterpret_" ++ s.float.name
  | floatBits s => "reinterpret_" ++ s.int.name
  | extendLow _ n => s!"extend{n}_s"

namespace NumOp

/-- The operands, and the type of the result. -/
def type : NumOp → List ValType × ValType
  | eqz s => ([s.int], .i32)
  | intCompare s _ => ([s.int, s.int], .i32)
  | floatCompare s _ => ([s.float, s.float], .i32)
  | intUnary s _ => ([s.int], s.int)
  | intBinary s _ => ([s.int, s.int], s.int)
  | floatUnary s _ => ([s.float], s.float)
  | floatBinary s _ => ([s.float, s.float], s.float)
  | conversion c => ([c.source], c.target)

/-- The mnemonic in the text format. -/
def name : NumOp → String
  | eqz s => s.int.name ++ ".eqz"
  | intCompare s op => s.int.name ++ "." ++ op.name
  | floatCompare s op => s.float.name ++ "." ++ op.name
  | intUnary s op => s.int.name ++ "." ++ op.name
  | intBinary s op => s.int.name ++ "." ++ op.name
  | floatUnary s op => s.float.name ++ "." ++ op.name
  | floatBinary s op => s.float.name ++ "." ++ op.name
  | conversion c => c.target.name ++ "." ++ c.name

/-! ## Opcodes -/

/-- The comparisons of integers, in the order of their opcodes. -/
def intCompares : List IntCompare := [.eq, .ne, .ltS, .ltU, .gtS, .gtU, .leS, .leU, .geS, .geU]

/-- The comparisons of floats, in the order of their opcodes. -/
def floatCompares : List FloatCompare := [.eq, .ne, .lt, .gt, .le, .ge]

/-- The operations on one integer, in the order of their opcodes. -/
def intUnaries : List IntUnary := [.clz, .ctz, .popcnt]

/-- The operations on two integers, in the order of their opcodes. -/
def intBinaries : List IntBinary :=
  [.add, .sub, .mul, .divS, .divU, .remS, .remU, .and, .or, .xor, .shl, .shrS, .shrU, .rotl, .rotr]

/-- The operations on one float, in the order of their opcodes. -/
def floatUnaries : List FloatUnary := [.abs, .neg, .ceil, .floor, .trunc, .nearest, .sqrt]

/-- The operations on two floats, in the order of their opcodes. -/
def floatBinaries : List FloatBinary := [.add, .sub, .mul, .div, .min, .max, .copysign]

/-- Both readings of an integer. -/
def signs : List Sign := [.signed, .unsigned]

/-- The conversions, in the order of their opcodes. -/
def conversions : List Conversion :=
  let truncations (t : Size) := Size.all.flatMap fun f => signs.map (Conversion.truncate t f)
  let converts (t : Size) := Size.all.flatMap fun f => signs.map (Conversion.convert t f)
  [.wrap] ++ truncations .w32 ++ signs.map .extend ++ truncations .w64
    ++ converts .w32 ++ [.demote] ++ converts .w64 ++ [.promote]
    ++ Size.all.map .intBits ++ Size.all.map .floatBits
    ++ [.extendLow .w32 8, .extendLow .w32 16, .extendLow .w64 8, .extendLow .w64 16,
        .extendLow .w64 32]

/-- The instructions with opcodes of one byte, in the order of their opcodes. -/
def all : List NumOp :=
  (Size.all.flatMap fun s => eqz s :: intCompares.map (intCompare s))
    ++ (Size.all.flatMap fun s => floatCompares.map (floatCompare s))
    ++ (Size.all.flatMap fun s => intUnaries.map (intUnary s) ++ intBinaries.map (intBinary s))
    ++ (Size.all.flatMap fun s =>
        floatUnaries.map (floatUnary s) ++ floatBinaries.map (floatBinary s))
    ++ conversions.map conversion

/-- The opcode of the first of them. -/
def firstOpcode : Nat := 0x45

/-- The saturating conversions, in the order of their numbers behind the escape byte. -/
def saturating : List NumOp :=
  Size.all.flatMap fun t => Size.all.flatMap fun f =>
    signs.map fun s => conversion (.saturate t f s)

/-- The instruction with a mnemonic. -/
def ofName? (s : String) : Option NumOp := (all ++ saturating).find? (·.name == s)

end NumOp

end WasmHost.Wasm

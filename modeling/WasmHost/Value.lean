import WasmHost.Types

/-!
# Values

A value is a number, a vector or a reference. Numbers are kept as bit patterns, so a value that is
only moved never changes. `Val ρ` leaves open how a foreign reference is held: the embedder holds a
reference itself, a store holds the address of the box it put the reference in.
-/

namespace WasmHost

/-- The address of a function in its store. -/
abbrev FuncAddr := Nat

/-- A value whose foreign references are of type `ρ`. Floats are their IEEE bits; a vector is the
number whose least significant byte is the first one. -/
inductive Val (ρ : Type) where
  | i32 (bits : UInt32)
  | i64 (bits : UInt64)
  | f32 (bits : UInt32)
  | f64 (bits : UInt64)
  | v128 (bits : BitVec 128)
  | externref (ref : Option ρ)
  | funcref (func : Option FuncAddr)
deriving DecidableEq

namespace Val

variable {ρ σ : Type}

instance : Inhabited (Val ρ) := ⟨.i32 0⟩

/-- The kind of a value. -/
def type : Val ρ → ValType
  | i32 _ => .i32
  | i64 _ => .i64
  | f32 _ => .f32
  | f64 _ => .f64
  | v128 _ => .v128
  | externref _ => .externref
  | funcref _ => .funcref

/-- The zero of a numeric kind, the null of a reference kind. -/
def default : ValType → Val ρ
  | .i32 => i32 0
  | .i64 => i64 0
  | .f32 => f32 0
  | .f64 => f64 0
  | .v128 => v128 0
  | .externref => externref none
  | .funcref => funcref none

/-- The value itself if it has the wanted kind. -/
def get? (t : ValType) (v : Val ρ) : Option (Val ρ) := if v.type = t then some v else none

/-- The word for a kind where an accessor of that kind is named. -/
def accessorName : ValType → String
  | .i32 => "I32"
  | .i64 => "I64"
  | .f32 => "F32"
  | .f64 => "F64"
  | .v128 => "V128"
  | .externref => "ExternRef"
  | .funcref => "FuncRef"

/-- The value if it has the wanted kind, otherwise the complaint of a caller who was sure of it. -/
def expect (t : ValType) (v : Val ρ) : Except String (Val ρ) :=
  match v.get? t with
  | some w => .ok w
  | none => .error s!"expected {accessorName t} value, found {v.type.name}"

/-- Whether a value is a null reference. -/
def isNull : Val ρ → Bool
  | externref none | funcref none => true
  | _ => false

/-- How a value's kind is written where it met a parameter of another kind: a null of either
reference kind is a null function. -/
def argumentName (v : Val ρ) : String := if v.isNull then "(ref null nofunc)" else v.type.heapName

/-- The foreign reference that a value holds. -/
def foreign? : Val ρ → Option ρ
  | externref r => r
  | _ => none

/-- The same value with its foreign reference held in another way. -/
def map (f : ρ → σ) : Val ρ → Val σ
  | i32 b => i32 b
  | i64 b => i64 b
  | f32 b => f32 b
  | f64 b => f64 b
  | v128 b => v128 b
  | externref r => externref (r.map f)
  | funcref a => funcref a

/-- The bits of a number or vector; a reference has none. -/
def toBits : Val ρ → Nat
  | i32 b | f32 b => b.toNat
  | i64 b | f64 b => b.toNat
  | v128 b => b.toNat
  | externref _ | funcref _ => 0

/-- The number or vector with the given bits; for a kind of reference the null. -/
def ofBits (t : ValType) (bits : Nat) : Val ρ :=
  match t with
  | .i32 => i32 (UInt32.ofNat bits)
  | .i64 => i64 (UInt64.ofNat bits)
  | .f32 => f32 (UInt32.ofNat bits)
  | .f64 => f64 (UInt64.ofNat bits)
  | .v128 => v128 (BitVec.ofNat 128 bits)
  | .externref => externref none
  | .funcref => funcref none

/-- The `i`-th byte of a vector. -/
def laneByte (bits : BitVec 128) (i : Nat) : UInt8 := UInt8.ofNat ((bits >>> (8 * i)).toNat)

/-- The bytes of a vector, first lane first. -/
def vectorBytes (bits : BitVec 128) : List UInt8 := (List.range 16).map (laneByte bits)

/-- The vector with the given bytes, first lane first. -/
def ofVectorBytes (bytes : List UInt8) : BitVec 128 :=
  bytes.foldr (fun b acc => acc <<< 8 ||| BitVec.ofNat 128 b.toNat) 0

@[simp] theorem type_default (t : ValType) : (default t : Val ρ).type = t := by cases t <;> rfl

@[simp] theorem type_ofBits (t : ValType) (n : Nat) : (ofBits t n : Val ρ).type = t := by
  cases t <;> rfl

@[simp] theorem type_map (f : ρ → σ) (v : Val ρ) : (v.map f).type = v.type := by cases v <;> rfl

end Val

end WasmHost

import WasmHost.Ieee.Arithmetic
import WasmHost.Trap
import WasmHost.Wasm.Numeric

/-!
# Results of numeric instructions

Numbers are given by their bits. Integers wrap around; a shift takes its amount modulo the width.
What has no result is a trap.
-/

namespace WasmHost.Wasm

/-- The format of the floats of a size. -/
def Size.format : Size → Ieee.Format
  | .w32 => .single
  | .w64 => .double

namespace IntUnary

/-- The number of set bits among the lowest `n`. -/
def ones (a : Nat) : Nat → Nat
  | 0 => 0
  | n + 1 => a % 2 + ones (a / 2) n

/-- The number of zeros below the lowest set bit, among the lowest `n` bits. -/
def trailingZeros (a : Nat) : Nat → Nat
  | 0 => 0
  | n + 1 => if a % 2 = 1 then 0 else 1 + trailingZeros (a / 2) n

/-- The result of an operation on a word of `width` bits. -/
def eval (width : Nat) (a : Nat) : IntUnary → Nat
  | clz => if a = 0 then width else width - 1 - a.log2
  | ctz => trailingZeros a width
  | popcnt => ones a width

end IntUnary

/-- The result of an operation on two words, or why it has none. -/
def IntBinary.eval {n : Nat} (a b : BitVec n) : IntBinary → Except TrapCode (BitVec n)
  | add => .ok (a + b)
  | sub => .ok (a - b)
  | mul => .ok (a * b)
  | divS =>
    if b = 0 then .error .integerDivideByZero
    else if a = BitVec.intMin n ∧ b = BitVec.allOnes n then .error .integerOverflow
    else .ok (a.sdiv b)
  | divU => if b = 0 then .error .integerDivideByZero else .ok (a / b)
  | remS => if b = 0 then .error .integerDivideByZero else .ok (a.srem b)
  | remU => if b = 0 then .error .integerDivideByZero else .ok (a % b)
  | and => .ok (a &&& b)
  | or => .ok (a ||| b)
  | xor => .ok (a ^^^ b)
  | shl => .ok (a <<< (b.toNat % n))
  | shrS => .ok (a.sshiftRight (b.toNat % n))
  | shrU => .ok (a >>> (b.toNat % n))
  | rotl => .ok (a.rotateLeft b.toNat)
  | rotr => .ok (a.rotateRight b.toNat)

/-- Whether a comparison of two words holds. -/
def IntCompare.eval {n : Nat} (a b : BitVec n) : IntCompare → Bool
  | eq => a == b
  | ne => a != b
  | ltS => a.slt b
  | ltU => a.ult b
  | gtS => b.slt a
  | gtU => b.ult a
  | leS => a.sle b
  | leU => a.ule b
  | geS => b.sle a
  | geU => b.ule a

/-- The result of an operation on a float. -/
def FloatUnary.eval (f : Ieee.Format) (a : Nat) : FloatUnary → Nat
  | abs => f.abs a
  | neg => f.neg a
  | ceil => f.toWhole .up a
  | floor => f.toWhole .down a
  | trunc => f.toWhole .towardZero a
  | nearest => f.toWhole .nearestEven a
  | sqrt => f.sqrt a

/-- The result of an operation on two floats. -/
def FloatBinary.eval (f : Ieee.Format) (a b : Nat) : FloatBinary → Nat
  | add => f.add a b
  | sub => f.sub a b
  | mul => f.mul a b
  | div => f.div a b
  | min => f.min a b
  | max => f.max a b
  | copysign => f.copysign a b

/-- Whether a comparison of two floats holds; with a NaN only `ne` does. -/
def FloatCompare.eval (f : Ieee.Format) (a b : Nat) (op : FloatCompare) : Bool :=
  if f.isNaN a ∨ f.isNaN b then op == ne
  else
    match op with
    | eq => f.same a b
    | ne => !f.same a b
    | lt => f.below a b
    | gt => f.below b a
    | le => !f.below b a
    | ge => !f.below a b

namespace Sign

/-- The least integer of a width. -/
def least (width : Nat) : Sign → Int
  | signed => -(twoTo (width - 1))
  | unsigned => 0

/-- The greatest integer of a width. -/
def greatest (width : Nat) : Sign → Int
  | signed => twoTo (width - 1) - 1
  | unsigned => twoTo width - 1

/-- The integer that bits stand for. -/
def value (width bits : Nat) : Sign → Int
  | signed => Int.bmod bits (twoTo width)
  | unsigned => bits

end Sign

/-- The bits of an integer in a width. -/
def wrapped (width : Nat) (n : Int) : Nat := (n % twoTo width).toNat

/-- The result of a conversion, or why it has none. -/
def Conversion.eval (a : Nat) : Conversion → Except TrapCode Nat
  | wrap => .ok (a % twoTo 32)
  | extend s => .ok (wrapped 64 (s.value 32 a))
  | truncate t f s =>
    if f.format.isNaN a then .error .invalidConversion
    else if f.format.isInfinite a then .error .integerOverflow
    else
      let n := f.format.wholePart .towardZero a
      if s.least t.bits ≤ n ∧ n ≤ s.greatest t.bits then .ok (wrapped t.bits n)
      else .error .integerOverflow
  | saturate t f s =>
    if f.format.isNaN a then .ok 0
    else if f.format.isInfinite a then
      .ok (wrapped t.bits (if f.format.isNegative a then s.least t.bits else s.greatest t.bits))
    else
      let n := f.format.wholePart .towardZero a
      .ok (wrapped t.bits (max (s.least t.bits) (min n (s.greatest t.bits))))
  | convert t f s => .ok (t.format.ofExact false (s.value f.bits a) 0)
  | demote => .ok (Ieee.Format.double.convertTo .single a)
  | promote => .ok (Ieee.Format.single.convertTo .double a)
  | intBits _ | floatBits _ => .ok a
  | extendLow w n => .ok (wrapped w.bits (Sign.signed.value n (a % twoTo n)))

/-- A truth value as bits. -/
def truth (b : Bool) : Nat := if b then 1 else 0

/-- The result of a numeric instruction on the bits of its operands, or why it has none. A second
operand that is not used is 0. -/
def NumOp.eval (a b : Nat) : NumOp → Except TrapCode Nat
  | eqz _ => .ok (truth (a == 0))
  | intCompare s op => .ok (truth (op.eval (BitVec.ofNat s.bits a) (BitVec.ofNat s.bits b)))
  | floatCompare s op => .ok (truth (op.eval s.format a b))
  | intUnary s op => .ok (op.eval s.bits a)
  | intBinary s op => (op.eval (BitVec.ofNat s.bits a) (BitVec.ofNat s.bits b)).map BitVec.toNat
  | floatUnary s op => .ok (op.eval s.format a)
  | floatBinary s op => .ok (op.eval s.format a b)
  | conversion c => c.eval a

end WasmHost.Wasm

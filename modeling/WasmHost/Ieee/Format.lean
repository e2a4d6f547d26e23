import WasmHost.Power

/-!
# Binary floating point formats

A format is a precision and a width of the exponent. `Format.ofRatio` rounds a positive ratio to the
nearest number of the format, ties to even; `Format.decode` reads a number's bits as
`mantissa · 2 ^ exponent`.
-/

namespace WasmHost.Ieee

/-- A binary interchange format: bits of the mantissa, the hidden one included, and of the
exponent. -/
structure Format where
  precision : Nat
  exponentBits : Nat
deriving DecidableEq

namespace Format

/-- The format of 32 bits. -/
def single : Format := ⟨24, 8⟩

/-- The format of 64 bits. -/
def double : Format := ⟨53, 11⟩

variable (f : Format)

/-- The power of two that the last mantissa bit of the least numbers stands for, negated. -/
def floor : Nat := twoTo (f.exponentBits - 1) - 3 + f.precision

/-- The bits of infinity. -/
def infinity : Nat := (twoTo f.exponentBits - 1) * twoTo (f.precision - 1)

/-- The sign bit. -/
def signBit : Nat := twoTo (f.precision - 1 + f.exponentBits)

/-- The bits of the quiet NaN whose payload is zero. -/
def quietNaN : Nat := f.infinity + twoTo (f.precision - 2)

/-- The bits of the number of the format nearest to `num / den`, ties to even; `none` when that is
past the greatest number. -/
def ofRatio (num den : Nat) : Option Nat :=
  if num = 0 then some 0 else
  -- the exponent of the last place, for which the quotient has one bit too few at worst
  let guess : Int := (num.log2 : Int) - den.log2 - (f.precision - 1 : Nat)
  let scale (e : Int) : Nat × Nat :=
    if e < 0 then (num * twoTo (-e).toNat, den) else (num, den * twoTo e.toNat)
  let (n, d) := scale guess
  let e := if n / d < twoTo (f.precision - 1) then guess - 1 else guess
  let e := max e (-(f.floor : Int))
  let (n, d) := scale e
  let q := n / d
  let r := n % d
  let q := if 2 * r > d ∨ (2 * r = d ∧ q % 2 = 1) then q + 1 else q
  let bits := (e + f.floor).toNat * twoTo (f.precision - 1) + q
  if bits < f.infinity then some bits else none

/-- The mantissa and the exponent of a finite number without its sign. -/
def decode (bits : Nat) : Nat × Int :=
  let fraction := bits % twoTo (f.precision - 1)
  let exponent := bits / twoTo (f.precision - 1)
  if exponent = 0 then (fraction, -(f.floor : Int))
  else (fraction + twoTo (f.precision - 1), (exponent : Int) - 1 - f.floor)

end Format

end WasmHost.Ieee

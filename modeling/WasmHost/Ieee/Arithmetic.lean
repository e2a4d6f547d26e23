import WasmHost.Ieee.Format

/-!
# Arithmetic on floats

Floats are given by their bits. Every operation on finite numbers computes the exact result and
rounds it once. A NaN operand is passed on, made quiet, the first one if there are two; an operation
that has no result gives the NaN `Format.indefinite`.
-/

namespace WasmHost.Ieee

namespace Format

variable (f : Format)

/-- The bits without the sign. -/
def magnitude (a : Nat) : Nat := a % f.signBit

/-- Whether the sign bit is set. -/
def isNegative (a : Nat) : Bool := decide (f.signBit ≤ a)

/-- Whether the bits are those of a NaN. -/
def isNaN (a : Nat) : Bool := decide (f.infinity < f.magnitude a)

/-- Whether the bits are those of an infinity. -/
def isInfinite (a : Nat) : Bool := f.magnitude a == f.infinity

/-- A magnitude with a sign. -/
def withSign (negative : Bool) (magnitude : Nat) : Nat :=
  if negative then f.signBit + magnitude else magnitude

/-- The NaN of operations that have no result. -/
def indefinite : Nat := f.withSign true f.quietNaN

/-- A NaN with its quiet bit set. -/
def quiet (a : Nat) : Nat := a ||| twoTo (f.precision - 2)

/-- The NaN that an operation on two operands passes on, if one of them is a NaN. -/
def passedNaN (a b : Nat) : Option Nat :=
  if f.isNaN a then some (f.quiet a) else if f.isNaN b then some (f.quiet b) else none

/-- A finite number as an integer times a power of two. -/
def exact (a : Nat) : Int × Int :=
  let (m, e) := f.decode (f.magnitude a)
  (if f.isNegative a then -(m : Int) else m, e)

/-- A ratio with a sign, rounded; past the greatest number it is infinite. -/
def rounded (negative : Bool) (num den : Nat) : Nat :=
  f.withSign negative ((f.ofRatio num den).getD f.infinity)

/-- An integer times a power of two, rounded; a zero gets the given sign. -/
def ofExact (zeroSign : Bool) (m e : Int) : Nat :=
  let negative := if m = 0 then zeroSign else decide (m < 0)
  if e < 0 then f.rounded negative m.natAbs (twoTo (-e).toNat)
  else f.rounded negative (m.natAbs * twoTo e.toNat) 1

/-- The sign bit turned over. -/
def neg (a : Nat) : Nat := f.withSign (!f.isNegative a) (f.magnitude a)

/-- The sign bit cleared. -/
def abs (a : Nat) : Nat := f.magnitude a

/-- The magnitude of the first with the sign of the second. -/
def copysign (a b : Nat) : Nat := f.withSign (f.isNegative b) (f.magnitude a)

/-- The sum of two numbers that are no NaNs. -/
def addNumbers (a b : Nat) : Nat :=
  if f.isInfinite a then
    if f.isInfinite b ∧ f.isNegative a ≠ f.isNegative b then f.indefinite else a
  else if f.isInfinite b then b
  else
    let (m, d) := f.exact a
    let (n, e) := f.exact b
    let low := min d e
    f.ofExact (f.isNegative a && f.isNegative b)
      (m * twoTo (d - low).toNat + n * twoTo (e - low).toNat) low

/-- Sum. -/
def add (a b : Nat) : Nat := (f.passedNaN a b).getD (f.addNumbers a b)

/-- Difference. -/
def sub (a b : Nat) : Nat := (f.passedNaN a b).getD (f.addNumbers a (f.neg b))

/-- Product. -/
def mul (a b : Nat) : Nat :=
  let negative := f.isNegative a != f.isNegative b
  (f.passedNaN a b).getD <|
    if f.isInfinite a ∨ f.isInfinite b then
      if f.magnitude a = 0 ∨ f.magnitude b = 0 then f.indefinite
      else f.withSign negative f.infinity
    else
      let (m, d) := f.exact a
      let (n, e) := f.exact b
      f.ofExact negative (m * n) (d + e)

/-- Quotient. -/
def div (a b : Nat) : Nat :=
  let negative := f.isNegative a != f.isNegative b
  (f.passedNaN a b).getD <|
    if f.isInfinite a then
      if f.isInfinite b then f.indefinite else f.withSign negative f.infinity
    else if f.isInfinite b then f.withSign negative 0
    else if f.magnitude b = 0 then
      if f.magnitude a = 0 then f.indefinite else f.withSign negative f.infinity
    else
      let (m, d) := f.decode (f.magnitude a)
      let (n, e) := f.decode (f.magnitude b)
      if d < e then f.rounded negative m (n * twoTo (e - d).toNat)
      else f.rounded negative (m * twoTo (d - e).toNat) n

/-- The integer square root, bit by bit from the one of weight `2 ^ bits`. -/
def natSqrt (n : Nat) : Nat → Nat → Nat
  | 0, root => root
  | bits + 1, root =>
    let next := root + twoTo bits
    natSqrt n bits (if next * next ≤ n then next else root)

/-- Square root. The root is computed with bits to spare and one more that says whether it is
exact. -/
def sqrt (a : Nat) : Nat :=
  if f.isNaN a then f.quiet a
  else if f.magnitude a = 0 then a
  else if f.isNegative a then f.indefinite
  else if f.isInfinite a then a
  else
    let (m, e) := f.decode a
    let shift : Nat := 2 * f.precision + 2 + (if e % 2 = 0 then 0 else 1)
    let n := m * twoTo shift
    let root := natSqrt n (2 * f.precision + 4) 0
    let sticky : Nat := if root * root = n then 0 else 1
    f.ofExact false (2 * root + sticky : Nat) ((e - shift) / 2 - 1)

/-- How a finite number is cut to a whole one. -/
inductive Rounding where
  | up | down | towardZero | nearestEven
deriving DecidableEq

/-- The whole number that a finite number is rounded to. -/
def wholePart (mode : Rounding) (a : Nat) : Int :=
  let (m, e) := f.exact a
  if 0 ≤ e then m * twoTo e.toNat
  else
    let d : Nat := twoTo (-e).toNat
    match mode with
    | .down => m.fdiv d
    | .up => -((-m).fdiv d)
    | .towardZero => m.tdiv d
    | .nearestEven =>
      let q := m.fdiv d
      let r := m.fmod d
      if 2 * r > d ∨ (2 * r = d ∧ q % 2 = 1) then q + 1 else q

/-- Rounds to a whole number, which keeps the sign when it is zero. -/
def toWhole (mode : Rounding) (a : Nat) : Nat :=
  if f.isNaN a then f.quiet a
  else if f.isInfinite a then a
  else f.ofExact (f.isNegative a) (f.wholePart mode a) 0

/-- Whether one number is below another; neither is a NaN. -/
def below (a b : Nat) : Bool :=
  let key (a : Nat) : Int :=
    if f.isNegative a then -(f.magnitude a : Int) else f.magnitude a
  decide (key a < key b)

/-- Whether two numbers are equal; neither is a NaN. -/
def same (a b : Nat) : Bool := !f.below a b && !f.below b a

/-- The lesser number; a zero with a sign is below one without. -/
def min (a b : Nat) : Nat :=
  (f.passedNaN a b).getD <|
    if f.below a b then a else if f.below b a then b else if f.isNegative a then a else b

/-- The greater number; a zero with a sign is below one without. -/
def max (a b : Nat) : Nat :=
  (f.passedNaN a b).getD <|
    if f.below a b then b else if f.below b a then a else if f.isNegative a then b else a

/-- The number of another format nearest to a number; a NaN keeps the upper part of its payload. -/
def convertTo (g : Format) (a : Nat) : Nat :=
  if f.isNaN a then
    let fraction := f.quiet (f.magnitude a) - f.infinity
    let fraction :=
      if f.precision ≤ g.precision then fraction * twoTo (g.precision - f.precision)
      else fraction / twoTo (f.precision - g.precision)
    g.withSign (f.isNegative a) (g.infinity + fraction)
  else if f.isInfinite a then g.withSign (f.isNegative a) g.infinity
  else
    let (m, e) := f.exact a
    g.ofExact (f.isNegative a) m e

end Format

end WasmHost.Ieee

import WasmHost.Ieee.Format

/-!
# The shortest decimal of a number

`shortest` finds the fewest decimal digits that read back as a given number, and among those the
nearest to it. A decimal reads back when it lies between the middles towards the two neighbours; the
middles themselves count when the mantissa is even.
-/

namespace WasmHost.Ieee

/-- A positive number as `digits · 10 ^ exponent`. -/
structure Decimal where
  digits : Nat
  exponent : Int
deriving DecidableEq

/-- The largest `k` with `10 ^ k ≤ num / den`, searched upwards from `k`. -/
def decimalExponent (num den : Nat) : Nat → Int → Int
  | 0, k => k
  | fuel + 1, k =>
    let next := k + 1
    let fits := if next < 0 then den ≤ num * tenTo (-next).toNat else den * tenTo next.toNat ≤ num
    if fits then decimalExponent num den fuel next else k

/-- The numbers that read back as `value`, all four over one denominator. -/
structure Interval where
  low : Nat
  value : Nat
  high : Nat
  den : Nat
  closed : Bool

/-- The numbers that round to `mantissa · 2 ^ exponent`. -/
def Interval.around (f : Format) (mantissa : Nat) (exponent : Int) : Interval :=
  let unit : Nat := if exponent < 0 then 1 else twoTo exponent.toNat
  let den : Nat := if exponent < 0 then 4 * twoTo (-exponent).toNat else 4
  let value := 4 * mantissa * unit
  -- below a power of two the numbers lie twice as close
  let narrow := mantissa = twoTo (f.precision - 1) ∧ exponent ≠ -(f.floor : Int)
  { low := value - (if narrow then unit else 2 * unit), value, high := value + 2 * unit, den,
    closed := mantissa % 2 = 0 }

/-- Whether `digits · 10 ^ exponent` reads back. -/
def Interval.holds (i : Interval) (d : Decimal) : Bool :=
  let (n, scale) : Nat × Nat :=
    if d.exponent < 0 then (d.digits * i.den, tenTo (-d.exponent).toNat)
    else (d.digits * tenTo d.exponent.toNat * i.den, 1)
  if i.closed then decide (i.low * scale ≤ n ∧ n ≤ i.high * scale)
  else decide (i.low * scale < n ∧ n < i.high * scale)

/-- The two multiples of `10 ^ exponent` around the value: the one at or below it, and whether the
one above is nearer (at a tie the even one). -/
def Interval.grid (i : Interval) (exponent : Int) : Nat × Bool :=
  let (n, d) : Nat × Nat :=
    if exponent < 0 then (i.value * tenTo (-exponent).toNat, i.den)
    else (i.value, i.den * tenTo exponent.toNat)
  let q := n / d
  let r := n % d
  (q, decide (2 * r > d ∨ (2 * r = d ∧ q % 2 = 1)))

/-- The first grid on which a neighbour of the value reads back, from coarse to fine. -/
def Interval.search (i : Interval) : Nat → Int → Decimal
  | 0, k => ⟨(i.grid k).1, k⟩
  | fuel + 1, k =>
    let (below, up) := i.grid k
    let first : Decimal := ⟨if up then below + 1 else below, k⟩
    let second : Decimal := ⟨if up then below else below + 1, k⟩
    if i.holds first then first
    else if i.holds second then second
    else i.search fuel (k - 1)

/-- Trailing zeros moved into the exponent. -/
def Decimal.normalize : Nat → Decimal → Decimal
  | 0, d => d
  | fuel + 1, d =>
    if d.digits ≠ 0 ∧ d.digits % 10 = 0 then normalize fuel ⟨d.digits / 10, d.exponent + 1⟩ else d

/-- The shortest decimal that reads back as the positive finite number with the given bits. -/
def shortest (f : Format) (bits : Nat) : Decimal :=
  let (mantissa, exponent) := f.decode bits
  let i := Interval.around f mantissa exponent
  let k := decimalExponent i.value i.den 700 (-350)
  (i.search 20 k).normalize 20

end WasmHost.Ieee

import WasmHost.Ieee.Format
import WasmHost.Text.Hex

/-!
# Numbers of the text format

A numeral is an integer, a decimal or hexadecimal fraction, an infinity or a NaN. `Numeral.toInt?`
and `Numeral.toFloat?` give the bits that it stands for; a number past the range of its type has
none.
-/

namespace WasmHost.Wat

/-- The magnitude of a numeral. -/
inductive Magnitude where
  | integer (n : Nat)
  /-- A number `digits · base ^ exponent`, where the base is 10 or 2. -/
  | fraction (digits : Nat) (base : Nat) (exponent : Int)
  | infinity
  | nan (payload : Option Nat)
deriving DecidableEq

/-- A numeral with its sign, if it has one; `true` is minus. -/
structure Numeral where
  sign : Option Bool
  magnitude : Magnitude
deriving DecidableEq

namespace Numeral

/-- The value of a decimal digit. -/
def decimalDigit? (c : Char) : Option Nat :=
  if c.isDigit then some (c.toNat - '0'.toNat) else none

/-- The value of a digit in base 10 or 16. -/
def digit? (base : Nat) (c : Char) : Option Nat :=
  if base = 10 then decimalDigit? c else Text.hexDigit? c

/-- Reads more digits behind the value `n` of `count` digits; a single underscore may stand between
two digits. -/
def moreDigits (base : Nat) : List Char → Nat → Nat → Nat × Nat × List Char
  | '_' :: c :: rest, n, count =>
    match digit? base c with
    | some d => moreDigits base rest (base * n + d) (count + 1)
    | none => (n, count, '_' :: c :: rest)
  | c :: rest, n, count =>
    match digit? base c with
    | some d => moreDigits base rest (base * n + d) (count + 1)
    | none => (n, count, c :: rest)
  | [], n, count => (n, count, [])

/-- Reads at least one digit: the value, the number of digits, and the rest. -/
def digits? (base : Nat) : List Char → Option (Nat × Nat × List Char)
  | [] => none
  | c :: rest => (digit? base c).map fun d => moreDigits base rest d 1

/-- Reads the digits behind a point, which may be missing. -/
def fractionDigits (base : Nat) (cs : List Char) : Nat × Nat × List Char :=
  (digits? base cs).getD (0, 0, cs)

/-- A signed decimal exponent that ends the numeral. -/
def exponent? (cs : List Char) : Option Int :=
  let read (cs : List Char) : Option Nat :=
    match digits? 10 cs with
    | some (n, _, []) => some n
    | _ => none
  match cs with
  | '+' :: cs => (read cs).map fun n => (n : Int)
  | '-' :: cs => (read cs).map fun n => -(n : Int)
  | cs => (read cs).map fun n => (n : Int)

/-- What may follow the whole part: a point with digits, then an exponent behind its mark. -/
def fraction? (base radix : Nat) (marks : List Char) (whole : Nat) (cs : List Char) :
    Option Magnitude :=
  let (part, count, cs) := match cs with
    | '.' :: cs => fractionDigits base cs
    | cs => (0, 0, cs)
  let shift : Int := if base = 10 then count else 4 * count
  let make (e : Int) := Magnitude.fraction (whole * power base count + part) radix (e - shift)
  match cs with
  | [] => some (make 0)
  | c :: cs => if marks.contains c then (exponent? cs).map make else none

/-- A magnitude from its characters. -/
def magnitude? : List Char → Option Magnitude
  | ['i', 'n', 'f'] => some .infinity
  | ['n', 'a', 'n'] => some (.nan none)
  | 'n' :: 'a' :: 'n' :: ':' :: '0' :: 'x' :: cs =>
    match digits? 16 cs with
    | some (n, _, []) => some (.nan (some n))
    | _ => none
  | '0' :: 'x' :: cs =>
    match digits? 16 cs with
    | some (n, _, []) => some (.integer n)
    | some (n, _, cs) => fraction? 16 2 ['p', 'P'] n cs
    | none => none
  | cs =>
    match digits? 10 cs with
    | some (n, _, []) => some (.integer n)
    | some (n, _, cs) => fraction? 10 10 ['e', 'E'] n cs
    | none => none

/-- A numeral from a word. -/
def ofWord? (word : String) : Option Numeral :=
  match word.toList with
  | '+' :: cs => (magnitude? cs).map (⟨some false, ·⟩)
  | '-' :: cs => (magnitude? cs).map (⟨some true, ·⟩)
  | cs => (magnitude? cs).map (⟨none, ·⟩)

/-- Whether the numeral is negative. -/
def isNegative (n : Numeral) : Bool := n.sign == some true

/-- A natural number without a sign, below a bound. -/
def toNat? (bound : Nat) (n : Numeral) : Option Nat :=
  match n.sign, n.magnitude with
  | none, .integer v => if v < bound then some v else none
  | _, _ => none

/-- An integer of some bits, read with or without a sign. -/
def toInt? (bits : Nat) (n : Numeral) : Option Int :=
  match n.magnitude with
  | .integer v =>
    if n.isNegative then if v ≤ twoTo (bits - 1) then some (-(v : Int)) else none
    else if v < twoTo bits then some v else none
  | _ => none

/-- The bits nearest to `digits · base ^ exponent`; far outside the range of the format nothing is
computed. -/
def nearest (f : Ieee.Format) (digits base : Nat) (exponent : Int) : Option Nat :=
  if digits = 0 then some 0
  else
    let size : Int := exponent + (if base = 10 then Nat.log2 digits / 4 else Nat.log2 digits)
    if 2000 < size then none
    else if size < -2000 then some 0
    else if exponent < 0 then f.ofRatio digits (power base (-exponent).toNat)
    else f.ofRatio (digits * power base exponent.toNat) 1

/-- The bits of a float. A number past the greatest one has none, and neither has a NaN whose
payload has no bit within the format. -/
def toFloat? (f : Ieee.Format) (n : Numeral) : Option Nat := do
  let sign := if n.isNegative then f.signBit else 0
  let bits ← match n.magnitude with
    | .integer v => nearest f v 10 0
    | .fraction digits 10 e => nearest f digits 10 e
    | .fraction digits base e =>
      if -(twoTo 31 : Int) ≤ e ∧ e < twoTo 31 then nearest f digits base e else none
    | .infinity => some f.infinity
    | .nan none => some f.quietNaN
    | .nan (some p) =>
      let p := p % twoTo (f.precision - 1)
      if p = 0 then none else some (f.infinity + p)
  return sign + bits

end Numeral

end WasmHost.Wat

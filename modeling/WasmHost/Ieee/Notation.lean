import WasmHost.Ieee.Shortest

/-!
# Decimal notation of numbers

A `Notation` says how the digits of a number are laid out. Two are used: `plain` never has an
exponent, `scientific` has one for the very large and the very small.
-/

namespace WasmHost.Ieee

/-- The layout of a number: positional for the decimal exponents `positionalFrom ≤ e < positionalTo`
of the leading digit, otherwise with a signed exponent of at least two digits. -/
structure Layout where
  positionalFrom : Option Int
  positionalTo : Option Int

/-- Positional throughout. -/
def Layout.plain : Layout := ⟨none, none⟩

/-- An exponent from `10 ^ 16` on and below `10 ^ -5`. -/
def Layout.scientific : Layout := ⟨some (-5), some 16⟩

/-- Whether a number whose leading digit has the given decimal exponent is positional. -/
def Layout.isPositional (l : Layout) (e : Int) : Bool :=
  (l.positionalFrom.all (· ≤ e)) && (l.positionalTo.all (e < ·))

/-- The digits of a decimal in positional form, always with a point. -/
def Decimal.positional (d : Decimal) : String :=
  let digits := Nat.toDigits 10 d.digits
  if 0 ≤ d.exponent then
    String.ofList (digits ++ List.replicate d.exponent.toNat '0') ++ ".0"
  else
    let places := (-d.exponent).toNat
    let padded := List.replicate (places + 1 - digits.length) '0' ++ digits
    let whole := padded.length - places
    String.ofList (padded.take whole) ++ "." ++ String.ofList (padded.drop whole)

/-- A decimal with an exponent. -/
def Decimal.withExponent (d : Decimal) : String :=
  let digits := Nat.toDigits 10 d.digits
  let e : Int := d.exponent + (digits.length - 1 : Nat)
  let mantissa := match digits with
    | [c] => c.toString
    | c :: rest => c.toString ++ "." ++ String.ofList rest
    | [] => ""
  let size := Nat.toDigits 10 e.natAbs
  let size := if size.length < 2 then '0' :: size else size
  mantissa ++ "e" ++ (if e < 0 then "-" else "+") ++ String.ofList size

/-- The text of the number with the given bits. -/
def Format.text (f : Format) (l : Layout) (bits : Nat) : String :=
  let magnitude := bits % f.signBit
  let sign := if bits / f.signBit = 1 then "-" else ""
  if magnitude > f.infinity then "NaN"
  else if magnitude = f.infinity then sign ++ "inf"
  else if magnitude = 0 then sign ++ "0.0"
  else
    let d := shortest f magnitude
    let e : Int := d.exponent + ((Nat.toDigits 10 d.digits).length - 1 : Nat)
    sign ++ (if l.isPositional e then d.positional else d.withExponent)

end WasmHost.Ieee

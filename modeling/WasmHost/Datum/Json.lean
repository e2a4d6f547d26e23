import WasmHost.Datum
import WasmHost.Ieee.Format

/-!
# Reading data from JSON

`Json.read` is total: a fault in the text becomes a `broken` mark in the datum. What may follow the
datum is returned beside it, so that the caller can insist on the end of the text.
-/

namespace WasmHost.Datum.Json

/-- The text without the blanks at its front. -/
def skipBlanks : List Char → List Char
  | [] => []
  | c :: cs => if c = ' ' ∨ c = '\n' ∨ c = '\t' ∨ c = '\r' then skipBlanks cs else c :: cs

/-! ## Strings -/

/-- A piece of a quoted text: a character, or a 16-bit unit written by its number. -/
inductive Piece where
  | char (c : Char)
  | unit (n : Nat)

/-- The value of four hexadecimal digits. -/
def unit? (a b c d : Char) : Option Nat := do
  let a ← Text.hexDigit? a
  let b ← Text.hexDigit? b
  let c ← Text.hexDigit? c
  let d ← Text.hexDigit? d
  return ((a * 16 + b) * 16 + c) * 16 + d

/-- The character that a one-letter escape stands for. -/
def escaped? : Char → Option Char
  | '"' => some '"'
  | '\\' => some '\\'
  | '/' => some '/'
  | 'b' => some '\x08'
  | 'f' => some '\x0c'
  | 'n' => some '\n'
  | 'r' => some '\r'
  | 't' => some '\t'
  | _ => none

/-- The pieces up to the closing quote, and what follows it. -/
def pieces : List Char → Option (List Piece × List Char)
  | [] => none
  | '"' :: rest => some ([], rest)
  | '\\' :: 'u' :: a :: b :: c :: d :: rest => do
    let n ← unit? a b c d
    let (ps, rest) ← pieces rest
    return (.unit n :: ps, rest)
  | '\\' :: e :: rest => do
    let c ← escaped? e
    let (ps, rest) ← pieces rest
    return (.char c :: ps, rest)
  | c :: rest =>
    if c = '\\' ∨ c.toNat < 0x20 then none
    else do
      let (ps, rest) ← pieces rest
      return (.char c :: ps, rest)

/-- The characters that pieces stand for. Units above the basic plane come in pairs; one that stands
alone is no character. -/
def characters : List Piece → Option (List Char)
  | [] => some []
  | .char c :: ps => do return c :: (← characters ps)
  | .unit n :: ps =>
    if n < 0xd800 ∨ 0xdfff < n then do return Char.ofNat n :: (← characters ps)
    else if n < 0xdc00 then
      match ps with
      | .unit m :: ps =>
        if 0xdc00 ≤ m ∧ m ≤ 0xdfff then do
          return Char.ofNat (0x10000 + (n - 0xd800) * 0x400 + (m - 0xdc00)) :: (← characters ps)
        else none
      | _ => none
    else none

/-- A datum and what follows it; nothing follows a broken one. -/
abbrev Reading := Datum × Option (List Char)

/-- The string after an opening quote. -/
def readString (cs : List Char) : Reading :=
  match pieces cs with
  | none => (broken, none)
  | some (ps, rest) =>
    match characters ps with
    | some cs => (string (String.ofList cs), some rest)
    | none => (skipOnly, some rest)

/-! ## Numbers -/

/-- The parts of a written number. -/
structure NumberText where
  negative : Bool
  whole : List Char
  fraction : List Char
  /-- The sign of the exponent (`true` for negative) and its digits. -/
  exponent : Option (Bool × List Char)
  /-- Whether there is a point or an exponent. -/
  isFloat : Bool

/-- Leading decimal digits, and what follows them. -/
def digits : List Char → List Char × List Char
  | [] => ([], [])
  | c :: cs =>
    if c.isDigit then
      let (ds, rest) := digits cs
      (c :: ds, rest)
    else ([], c :: cs)

/-- An exponent, if one follows; `none` if it has no digits. -/
def exponentText : List Char → Option (Option (Bool × List Char) × List Char)
  | c :: cs =>
    if c = 'e' ∨ c = 'E' then
      let (negative, cs) : Bool × List Char := match cs with
        | '+' :: cs => (false, cs)
        | '-' :: cs => (true, cs)
        | cs => (false, cs)
      match digits cs with
      | ([], _) => none
      | (ds, rest) => some (some (negative, ds), rest)
    else some (none, c :: cs)
  | [] => some (none, [])

/-- A fraction, if one follows, and whether one does; `none` if it has no digits. -/
def fractionText : List Char → Option (List Char × Bool × List Char)
  | '.' :: rest =>
    match digits rest with
    | ([], _) => none
    | (ds, rest) => some (ds, true, rest)
  | rest => some ([], false, rest)

/-- A number by its grammar: no leading zeros, digits on both sides of the point. -/
def numberText (cs : List Char) : Option (NumberText × List Char) := do
  let (negative, cs) : Bool × List Char := match cs with
    | '-' :: cs => (true, cs)
    | cs => (false, cs)
  let (whole, rest) := digits cs
  match whole with
  | [] => none
  | '0' :: _ :: _ => none
  | _ =>
  let (fraction, hasPoint, rest) ← fractionText rest
  let (exponent, rest) ← exponentText rest
  return (⟨negative, whole, fraction, exponent, hasPoint || exponent.isSome⟩, rest)

/-- The value of a decimal digit. -/
def digitValue (c : Char) : Nat := c.toNat - '0'.toNat

/-- The number that digits stand for. -/
def digitsValue (ds : List Char) : Nat := ds.foldl (fun n c => 10 * n + digitValue c) 0

/-- The greatest whole number that is kept exactly. -/
def wholeBound : Nat := twoTo 64 - 1

/-- Takes digits into a significand while it stays within the bound, and returns the digits that are
left. -/
def takeSignificand (n : Nat) : List Char → Nat × List Char
  | [] => (n, [])
  | d :: ds =>
    let m := 10 * n + digitValue d
    if m ≤ wholeBound then takeSignificand m ds else (n, d :: ds)

/-- The double nearest to a product or a quotient of two positive doubles, `none` when it is past
the greatest one. -/
def scaled (bits factor : Nat) (up : Bool) : Option Nat :=
  let (m, e) := Ieee.Format.double.decode bits
  let (fm, fe) := Ieee.Format.double.decode factor
  let (num, den, e) : Nat × Nat × Int := if up then (m * fm, 1, e + fe) else (m, fm, e - fe)
  if 0 ≤ e then Ieee.Format.double.ofRatio (num * twoTo e.toNat) den
  else Ieee.Format.double.ofRatio num (den * twoTo (-e).toNat)

/-- The double nearest to a power of ten. -/
def powerOfTen (n : Nat) : Nat := (Ieee.Format.double.ofRatio (tenTo n) 1).getD 0

/-- A positive double times a power of ten. Each multiplication and division rounds; powers past
`10 ^ 308` are reached in steps. -/
def scaleByTen : Nat → Nat → Int → Option Nat
  | 0, bits, _ => some bits
  | fuel + 1, bits, e =>
    if bits = 0 then some 0
    else if e.natAbs ≤ 308 then scaled bits (powerOfTen e.natAbs) (decide (0 ≤ e))
    else if 0 ≤ e then none
    else do scaleByTen fuel (← scaled bits (powerOfTen 308) false) (e + 308)

/-- The double that a significand and an exponent stand for, `none` when it is past the greatest
one. The significand is rounded first. -/
def doubleOf (significand : Nat) (e : Int) : Option Nat := do
  scaleByTen 8 (← Ieee.Format.double.ofRatio significand 1) e

/-- The datum of a number with a point or an exponent, or of a whole number past the bound. -/
def floatDatum (t : NumberText) : Datum :=
  let (n, dropped) := takeSignificand 0 t.whole
  let (m, lost) := takeSignificand n t.fraction
  let start : Int := dropped.length - (t.fraction.length - lost.length : Nat)
  let sign : Nat := if t.negative then Ieee.Format.double.signBit else 0
  let size := match t.exponent with
    | none => doubleOf m start
    | some (down, ds) =>
      let e := digitsValue ds
      if twoTo 31 ≤ e then (if m ≠ 0 ∧ ¬down then none else some 0)
      else doubleOf m (if down then start - e else start + e)
  match size with
  | some bits => .float (sign + bits)
  | none => .skipOnly

/-- The datum of a number. Whole numbers of 64 bits are kept exactly, signed if negative; the rest
are rounded, and a negative zero counts among those. -/
def numberDatum (t : NumberText) : Datum :=
  let n := digitsValue t.whole
  if t.isFloat then floatDatum t
  else if t.negative then
    if n = 0 ∨ twoTo 63 < n then floatDatum t else .int (-(n : Int))
  else if n ≤ wholeBound then .int n
  else floatDatum t

/-- The number at the front of a text. -/
def readNumber (cs : List Char) : Reading :=
  match numberText cs with
  | none => (.broken, none)
  | some (t, rest) => (numberDatum t, some rest)

/-! ## Values -/

mutual

/-- The datum at the front of a text; `fuel` bounds the nesting. -/
def value : Nat → List Char → Reading
  | 0, _ => (broken, none)
  | fuel + 1, cs =>
    match skipBlanks cs with
    | '"' :: rest => readString rest
    | '[' :: rest =>
      let (items, rest) := elements fuel true rest
      (seq items, rest)
    | '\x7b' :: rest =>
      let (entries, rest) := members fuel true rest
      (map entries, rest)
    | 'n' :: 'u' :: 'l' :: 'l' :: rest => (null, some rest)
    | 't' :: 'r' :: 'u' :: 'e' :: rest => (bool true, some rest)
    | 'f' :: 'a' :: 'l' :: 's' :: 'e' :: rest => (bool false, some rest)
    | c :: rest => if c = '-' ∨ c.isDigit then readNumber (c :: rest) else (broken, none)
    | [] => (broken, none)

/-- The items up to the closing bracket. A comma stands between items and nowhere else. -/
def elements : Nat → Bool → List Char → List Datum × Option (List Char)
  | 0, _, _ => ([broken], none)
  | fuel + 1, first, cs =>
    match skipBlanks cs with
    | [] => ([broken], none)
    | ']' :: rest => ([], some rest)
    | c :: rest =>
      let start : Option (List Char) :=
        if first then some (c :: rest)
        else if c = ',' then
          match skipBlanks rest with
          | ']' :: _ => none
          | rest => some rest
        else none
      match start with
      | none => ([broken], none)
      | some cs =>
        match value fuel cs with
        | (d, none) => ([d], none)
        | (d, some rest) =>
          let (ds, rest) := elements fuel false rest
          (d :: ds, rest)

/-- The entries up to the closing brace. What stands for a key is read even if it is no string: it
may be complained about. -/
def members : Nat → Bool → List Char → List (Datum × Datum) × Option (List Char)
  | 0, _, _ => ([(broken, broken)], none)
  | fuel + 1, first, cs =>
    match skipBlanks cs with
    | [] => ([(broken, broken)], none)
    | '\x7d' :: rest => ([], some rest)
    | c :: rest =>
      let start : Option (List Char) :=
        if first then some (c :: rest)
        else if c = ',' then some (skipBlanks rest)
        else none
      match start with
      | none => ([(broken, broken)], none)
      | some ('"' :: cs) =>
        match readString cs with
        | (k, none) => ([(k, broken)], none)
        | (k, some rest) =>
          match skipBlanks rest with
          | ':' :: rest =>
            match value fuel rest with
            | (v, none) => ([(k, v)], none)
            | (v, some rest) =>
              let (es, rest) := members fuel false rest
              ((k, v) :: es, rest)
          | _ => ([(k, broken)], none)
      | some cs => ([((value fuel cs).1, broken)], none)

end

/-- The datum of a text, and whether nothing but blanks follows it. -/
def read (text : String) : Datum × Bool :=
  let cs := text.toList
  match value (2 * cs.length + 2) cs with
  | (d, none) => (d, false)
  | (d, some rest) => (d, (skipBlanks rest).isEmpty)

end WasmHost.Datum.Json

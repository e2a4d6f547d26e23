import WasmHost.Datum
import WasmHost.Datum.Json

/-!
# Scalars of TOML

Strings, numbers, dates and times. Each reader takes the text it stands at and returns what follows;
`none` means that the text is not well formed.
-/

namespace WasmHost.Datum.Toml

/-- The text without the blanks and tabs at its front. -/
def skipBlanks : List Char → List Char
  | [] => []
  | c :: cs => if c = ' ' ∨ c = '\t' then skipBlanks cs else c :: cs

/-- What follows a line end. -/
def lineEnd? : List Char → Option (List Char)
  | '\n' :: cs => some cs
  | '\r' :: '\n' :: cs => some cs
  | _ => none

/-- Characters that may stand in a comment or in a string. -/
def isTextChar (c : Char) : Bool := c = '\t' || (0x20 ≤ c.toNat && c.toNat ≠ 0x7f)

/-! ## Strings -/

/-- The character that hexadecimal digits name. -/
def scalar? (ds : List Char) : Option Char := do
  let n ← ds.foldl (fun acc c => do return 16 * (← acc) + (← Text.hexDigit? c)) (some 0)
  if h : n.isValidChar then some (Char.ofNatAux n h) else none

/-- The escape after a backslash. -/
def escape : List Char → Option (Char × List Char)
  | 'b' :: cs => some ('\x08', cs)
  | 't' :: cs => some ('\t', cs)
  | 'n' :: cs => some ('\n', cs)
  | 'f' :: cs => some ('\x0c', cs)
  | 'r' :: cs => some ('\r', cs)
  | '"' :: cs => some ('"', cs)
  | '\\' :: cs => some ('\\', cs)
  | 'u' :: cs => do
    if cs.length < 4 then none else return (← scalar? (cs.take 4), cs.drop 4)
  | 'U' :: cs => do
    if cs.length < 8 then none else return (← scalar? (cs.take 8), cs.drop 8)
  | _ => none

/-- The rest of a string between quotes, with escapes. -/
def basicString : Nat → List Char → Option (List Char × List Char)
  | 0, _ => none
  | fuel + 1, cs =>
    match cs with
    | '"' :: rest => some ([], rest)
    | '\\' :: rest => do
      let (c, rest) ← escape rest
      let (cs, rest) ← basicString fuel rest
      return (c :: cs, rest)
    | c :: rest =>
      if isTextChar c then do
        let (cs, rest) ← basicString fuel rest
        return (c :: cs, rest)
      else none
    | [] => none

/-- The rest of a string between single quotes. -/
def literalString : List Char → Option (List Char × List Char)
  | [] => none
  | '\'' :: rest => some ([], rest)
  | c :: rest =>
    if isTextChar c then do
      let (cs, rest) ← literalString rest
      return (c :: cs, rest)
    else none

/-- The text without the blanks and line ends at its front. -/
def skipSpace : List Char → List Char
  | [] => []
  | '\r' :: '\n' :: cs => skipSpace cs
  | c :: cs => if c = ' ' ∨ c = '\t' ∨ c = '\n' then skipSpace cs else c :: cs

/-- The end of a string of several lines: three quotes, before which up to two more belong to the
string. -/
def closing? (q : Char) (cs : List Char) : Option (List Char × List Char) :=
  let n := (cs.takeWhile (· = q)).length
  if n < 3 then none
  else
    let extra := min (n - 3) 2
    some (List.replicate extra q, cs.drop (extra + 3))

/-- The rest of a string of several lines, with escapes. A backslash at the end of a line removes
the line end and the space that follows it. -/
def longBasicString : Nat → List Char → Option (List Char × List Char)
  | 0, _ => none
  | fuel + 1, cs =>
    match closing? '"' cs with
    | some (extra, rest) => some (extra, rest)
    | none =>
      match cs with
      | [] => none
      | '\\' :: rest =>
        match lineEnd? (skipBlanks rest) with
        | some rest => longBasicString fuel (skipSpace rest)
        | none => do
          let (c, rest) ← escape rest
          let (cs, rest) ← longBasicString fuel rest
          return (c :: cs, rest)
      | c :: rest =>
        match lineEnd? (c :: rest) with
        | some rest => do
          let (cs, rest) ← longBasicString fuel rest
          return ('\n' :: cs, rest)
        | none =>
          if isTextChar c then do
            let (cs, rest) ← longBasicString fuel rest
            return (c :: cs, rest)
          else none

/-- The rest of a string of several lines between single quotes. -/
def longLiteralString : Nat → List Char → Option (List Char × List Char)
  | 0, _ => none
  | fuel + 1, cs =>
    match closing? '\'' cs with
    | some (extra, rest) => some (extra, rest)
    | none =>
      match cs with
      | [] => none
      | c :: rest =>
        match lineEnd? (c :: rest) with
        | some rest => do
          let (cs, rest) ← longLiteralString fuel rest
          return ('\n' :: cs, rest)
        | none =>
          if isTextChar c then do
            let (cs, rest) ← longLiteralString fuel rest
            return (c :: cs, rest)
          else none

/-- A string in any of its four forms. A line end right after three opening quotes is dropped. -/
def readString (cs : List Char) : Option (String × List Char) :=
  let fuel := cs.length + 1
  let result : Option (List Char × List Char) := match cs with
    | '"' :: '"' :: '"' :: rest => longBasicString fuel ((lineEnd? rest).getD rest)
    | '\'' :: '\'' :: '\'' :: rest => longLiteralString fuel ((lineEnd? rest).getD rest)
    | '"' :: rest => basicString fuel rest
    | '\'' :: rest => literalString rest
    | _ => none
  result.map fun (cs, rest) => (String.ofList cs, rest)

/-! ## Numbers -/

/-- Digits with single underscores between them, and what follows. -/
def digitRun (isDigit : Char → Bool) : List Char → List Char × List Char
  | [] => ([], [])
  | '_' :: d :: cs =>
    if isDigit d then
      let (ds, rest) := digitRun isDigit cs
      (d :: ds, rest)
    else ([], '_' :: d :: cs)
  | c :: cs =>
    if isDigit c then
      let (ds, rest) := digitRun isDigit cs
      (c :: ds, rest)
    else ([], c :: cs)

/-- A run that starts with a digit. -/
def digitRun1 (isDigit : Char → Bool) (cs : List Char) : Option (List Char × List Char) :=
  match cs with
  | c :: _ => if isDigit c then some (digitRun isDigit cs) else none
  | [] => none

/-- A decimal whole number without its sign: no leading zero before other digits. -/
def wholeDigits : List Char → Option (List Char × List Char)
  | '0' :: rest => some (['0'], rest)
  | cs => digitRun1 Char.isDigit cs

/-- The double nearest to a decimal, `none` when it is past the greatest one. -/
def nearestDouble (digits : Nat) (exponent : Int) : Option Nat :=
  let size : Int := ((Nat.toDigits 10 digits).length : Int) + exponent
  if digits = 0 then some 0
  else if size > 400 then none
  else if size < -400 then some 0
  else if 0 ≤ exponent then Ieee.Format.double.ofRatio (digits * tenTo exponent.toNat) 1
  else Ieee.Format.double.ofRatio digits (tenTo (-exponent).toNat)

/-- A sign, if there is one, and what follows it. -/
def signOf : List Char → Bool × List Char
  | '-' :: cs => (true, cs)
  | '+' :: cs => (false, cs)
  | cs => (false, cs)

/-- The float that parts of a number stand for. -/
def signedFloat (negative : Bool) (bits : Nat) : Datum :=
  .float (if negative then Ieee.Format.double.signBit + bits else bits)

/-- The fraction after a whole number, if there is one. -/
def fractionOf : List Char → Option (Option (List Char) × List Char)
  | '.' :: rest => do
    let (ds, rest) ← digitRun1 Char.isDigit rest
    return (some ds, rest)
  | cs => some (none, cs)

/-- The exponent after a number, if there is one. -/
def exponentOf : List Char → Option (Option Int × List Char)
  | c :: rest =>
    if c = 'e' ∨ c = 'E' then do
      let (negative, rest) := signOf rest
      let (ds, rest) ← digitRun1 Char.isDigit rest
      let n : Int := Json.digitsValue ds
      return (some (if negative then -n else n), rest)
    else some (none, c :: rest)
  | [] => some (none, [])

/-- A decimal number: whole within 64 bits, or a float below the greatest one. -/
def decimalNumber (cs : List Char) : Option (Datum × List Char) := do
  let (negative, cs) := signOf cs
  match cs with
  | 'i' :: 'n' :: 'f' :: rest => return (signedFloat negative Ieee.Format.double.infinity, rest)
  | 'n' :: 'a' :: 'n' :: rest => return (signedFloat negative Ieee.Format.double.quietNaN, rest)
  | _ =>
  let (whole, rest) ← wholeDigits cs
  let (fraction, rest) ← fractionOf rest
  let (exponent, rest) ← exponentOf rest
  if fraction.isNone && exponent.isNone then
    let n : Int := Json.digitsValue whole
    let n := if negative then -n else n
    if -twoTo 63 ≤ n ∧ n < twoTo 63 then some (.int n, rest) else none
  else
    let fraction := fraction.getD []
    let bits ← nearestDouble (Json.digitsValue (whole ++ fraction))
      (exponent.getD 0 - fraction.length)
    return (signedFloat negative bits, rest)

/-- Digits of a base between two and sixteen. -/
def isDigitBelow (base : Nat) (c : Char) : Bool := (Text.hexDigit? c).any (· < base)

/-- A whole number in another base. -/
def basedNumber (base : Nat) (cs : List Char) : Option (Datum × List Char) := do
  let (ds, rest) ← digitRun1 (isDigitBelow base) cs
  let n := ds.foldl (fun n c => base * n + (Text.hexDigit? c).getD 0) 0
  if n < twoTo 63 then some (.int n, rest) else none

/-- A number of any form. -/
def readNumber : List Char → Option (Datum × List Char)
  | '0' :: 'x' :: rest => basedNumber 16 rest
  | '0' :: 'o' :: rest => basedNumber 8 rest
  | '0' :: 'b' :: rest => basedNumber 2 rest
  | cs => decimalNumber cs

/-! ## Dates and times -/

/-- A number of exactly `n` digits within bounds. -/
def fixedDigits (n lo hi : Nat) (cs : List Char) : Option (Nat × List Char) :=
  let ds := cs.take n
  if ds.length = n ∧ ds.all Char.isDigit then
    let v := Json.digitsValue ds
    if lo ≤ v ∧ v ≤ hi then some (v, cs.drop n) else none
  else none

/-- What follows a given character. -/
def after? (c : Char) : List Char → Option (List Char)
  | d :: cs => if d = c then some cs else none
  | [] => none

/-- The number of days of a month. -/
def daysIn (year month : Nat) : Nat :=
  if month = 2 then
    if year % 4 = 0 ∧ (year % 100 ≠ 0 ∨ year % 400 = 0) then 29 else 28
  else if month = 4 ∨ month = 6 ∨ month = 9 ∨ month = 11 then 30
  else 31

/-- What follows a date. -/
def date (cs : List Char) : Option (List Char) := do
  let (y, cs) ← fixedDigits 4 0 9999 cs
  let (m, cs) ← fixedDigits 2 1 12 (← after? '-' cs)
  let (_, cs) ← fixedDigits 2 1 (daysIn y m) (← after? '-' cs)
  return cs

/-- What follows a time of day. -/
def timeOfDay (cs : List Char) : Option (List Char) := do
  let (_, cs) ← fixedDigits 2 0 23 cs
  let (_, cs) ← fixedDigits 2 0 59 (← after? ':' cs)
  let (_, cs) ← fixedDigits 2 0 60 (← after? ':' cs)
  match cs with
  | '.' :: d :: rest => if d.isDigit then return rest.dropWhile Char.isDigit else return cs
  | _ => return cs

/-- What follows an offset from the universal time, if there is one. -/
def offset (cs : List Char) : Option (List Char) :=
  match cs with
  | 'Z' :: rest | 'z' :: rest => some rest
  | '+' :: rest | '-' :: rest => do
    let (_, rest) ← fixedDigits 2 0 23 rest
    let (_, rest) ← fixedDigits 2 0 59 (← after? ':' rest)
    return rest
  | _ => some cs

/-- What follows a date, a time, or both. -/
def dateTime (cs : List Char) : Option (List Char) :=
  match date cs with
  | some rest =>
    match rest with
    | c :: time =>
      if c = 'T' ∨ c = 't' then timeOfDay time >>= offset
      else if c = ' ' then
        match timeOfDay time with
        | some rest => offset rest
        | none => some (c :: time)
      else some (c :: time)
    | [] => some []
  | none => timeOfDay cs

/-- A date or a time where the text has the form of one. -/
def readDateTime (cs : List Char) : Option (Datum × List Char) := do
  let rest ← dateTime cs
  return (.datetime (String.ofList (cs.take (cs.length - rest.length))), rest)

end WasmHost.Datum.Toml

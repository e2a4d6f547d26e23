/-!
# Hexadecimal text
-/

namespace WasmHost.Text

/-- The value of a hexadecimal digit, in either case. -/
def hexDigit? (c : Char) : Option Nat :=
  if '0' ≤ c ∧ c ≤ '9' then some (c.toNat - '0'.toNat)
  else if 'a' ≤ c ∧ c ≤ 'f' then some (c.toNat - 'a'.toNat + 10)
  else if 'A' ≤ c ∧ c ≤ 'F' then some (c.toNat - 'A'.toNat + 10)
  else none

/-- The lower-case digits of a number, with no leading zero. -/
def hex (n : Nat) : String := String.ofList (Nat.toDigits 16 n)

/-- The lower-case digits of a number, padded with zeros to a width. -/
def hexPadded (width n : Nat) : String :=
  let digits := Nat.toDigits 16 n
  String.ofList (List.replicate (width - digits.length) '0' ++ digits)

/-- Two digits a byte. -/
def hexBytes (bytes : List UInt8) : String :=
  String.join (bytes.map fun b => hexPadded 2 b.toNat)

/-- The bytes that pairs of digits stand for. -/
def unhex? : List Char → Option (List UInt8)
  | [] => some []
  | [_] => none
  | a :: b :: rest => do
    let hi ← hexDigit? a
    let lo ← hexDigit? b
    let bytes ← unhex? rest
    return UInt8.ofNat (16 * hi + lo) :: bytes

/-- The number that digits stand for. -/
def unhexNat? (s : String) : Option Nat :=
  if s.isEmpty then none
  else s.foldl (fun acc c => do return 16 * (← acc) + (← hexDigit? c)) (some 0)

end WasmHost.Text

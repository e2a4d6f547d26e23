import WasmHost.Power

/-!
# Numbers of variable length

A number is written in groups of seven bits, the least significant first; every byte but the last
has its highest bit set. `unsigned` and `signed` write the fewest groups; reading also takes longer
forms, but no more groups than the width allows, and no bits past the width.
-/

namespace WasmHost.Wasm.Leb

/-- A natural number in the fewest groups. -/
def unsigned (n : Nat) : List UInt8 :=
  if n < 128 then [UInt8.ofNat n] else UInt8.ofNat (n % 128 + 128) :: unsigned (n / 128)
termination_by n
decreasing_by omega

/-- An integer in the fewest groups; the last one holds a sign bit. -/
def signed (n : Int) : List UInt8 :=
  if -64 ≤ n ∧ n < 64 then [UInt8.ofNat (n % 128).toNat]
  else UInt8.ofNat ((n % 128).toNat + 128) :: signed (n / 128)
termination_by n.natAbs
decreasing_by omega

/-- Reads the groups of a number of at most `width` bits: its value, the number of bits that were
read, and the rest. The last byte that fits may not have bits past the width, and `fill` says which
values those bits may have together with the sign bit. -/
def groups (last : Nat → Nat → Bool) (width : Nat) : List UInt8 → Option (Nat × Nat × List UInt8)
  | [] => none
  | b :: rest =>
    let group := b.toNat % 128
    if width ≤ 7 then
      if b.toNat < 128 ∧ last width group then some (group, 7, rest) else none
    else if b.toNat < 128 then some (group, 7, rest)
    else do
      let (high, bits, rest) ← groups last (width - 7) rest
      return (group + 128 * high, bits + 7, rest)

/-- Reads a natural number below `2 ^ width`. -/
def readUnsigned (width : Nat) (bytes : List UInt8) : Option (Nat × List UInt8) := do
  let (n, _, rest) ← groups (fun w g => g < twoTo w) width bytes
  return (n, rest)

/-- Reads an integer of `width` bits. The bits of the last group past the width repeat the sign. -/
def readSigned (width : Nat) (bytes : List UInt8) : Option (Int × List UInt8) := do
  let (n, bits, rest) ←
    groups (fun w g => g < twoTo (w - 1) || 128 - twoTo (w - 1) ≤ g) width bytes
  let value : Int := if twoTo (bits - 1) ≤ n then (n : Int) - twoTo bits else n
  return (value, rest)

end WasmHost.Wasm.Leb

/-!
# Powers

The powers of natural numbers that sizes of words and places of digits need.
-/

namespace WasmHost

/-- A power of a number. -/
abbrev power (base exponent : Nat) : Nat := Nat.pow base exponent

/-- A power of two. -/
abbrev twoTo (exponent : Nat) : Nat := power 2 exponent

/-- A power of ten. -/
abbrev tenTo (exponent : Nat) : Nat := power 10 exponent

end WasmHost

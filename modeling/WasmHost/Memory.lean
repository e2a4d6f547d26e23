import Std.Data.HashMap
import WasmHost.Engine

/-!
# Linear memories

A memory is a number of pages and the bytes that were written; all others are zero. Reading and
writing succeed only within the pages. Growth adds zeros and never goes past `limit`.
-/

namespace WasmHost

/-- A memory. -/
structure Memory where
  pages : Nat
  /-- The most pages it can grow to. -/
  limit : Nat
  cells : Std.HashMap Nat UInt8 := ∅

namespace Memory

/-- The number of bytes. -/
def size (m : Memory) : Nat := m.pages * pageSize

/-- The byte at an address; past the end it reads as zero. -/
def byte (m : Memory) (addr : Nat) : UInt8 := m.cells.getD addr 0

/-- Whether a range lies within the memory. An empty range may lie at the end. -/
def fits (m : Memory) (addr length : Nat) : Bool := decide (addr + length ≤ m.size)

/-- The bytes of a range, wherever it lies. -/
def slice (m : Memory) (addr length : Nat) : List UInt8 :=
  (List.range length).map fun i => m.byte (addr + i)

/-- The bytes of a range, if it lies within the memory. -/
def read? (m : Memory) (addr length : Nat) : Option (List UInt8) :=
  if m.fits addr length then some (m.slice addr length) else none

/-- Writes bytes one behind the other, wherever they fall. -/
def put (m : Memory) (addr : Nat) : List UInt8 → Memory
  | [] => m
  | b :: bytes => put { m with cells := m.cells.insert addr b } (addr + 1) bytes

/-- Whether there is room for more pages. -/
def canGrow (m : Memory) (delta : Nat) : Bool := decide (m.pages + delta ≤ m.limit)

/-- Adds pages. -/
def grow (delta : Nat) (m : Memory) : Memory := { m with pages := m.pages + delta }

/-- The number that `n` bytes stand for, the least significant first. -/
def number (bytes : List UInt8) : Nat := bytes.foldr (fun b acc => b.toNat + 256 * acc) 0

/-- The `n` low bytes of a number, the least significant first. -/
def numberBytes : Nat → Nat → List UInt8
  | 0, _ => []
  | n + 1, bits => UInt8.ofNat bits :: numberBytes n (bits / 256)

end Memory

end WasmHost

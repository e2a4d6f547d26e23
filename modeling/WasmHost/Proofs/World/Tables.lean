import WasmHost.Proofs.World.RoundTrips
import WasmHost.Proofs.World.Sharing

/-!
# Tables as lists

Through a handle a table is a list of references of one kind, with room for so many. `RefList` is
that list with what can be done to it, and `World.Shows` says that a table shows a list from
outside. A call on a handle gives the answer of the list, and afterwards the table shows what the
list has become.
-/

namespace WasmHost

/-- The most elements that a type allows. -/
def TableType.bound (t : TableType) : Nat := t.limits.max.getD World.maxElements

/-- A call on a table. -/
inductive TableCall where
  | get (index : Nat)
  | set (index : Nat) (val : HostVal)
  | grow (delta : Nat) (val : HostVal)

/-- What a call on a table answers. -/
inductive TableAnswer where
  | got (val : Option HostVal)
  | done (r : Except Error Unit)
  /-- How many elements there were. -/
  | grown (old : Except Error Nat)

/-- Makes a call on the table with a number. -/
def TableCall.run (addr : Nat) (w : World) : TableCall → TableAnswer × World
  | get index => (.got (w.getTable addr index).1, (w.getTable addr index).2)
  | set index v =>
    match w.setTable addr index v with
    | .ok w' => (.done (.ok ()), w')
    | .error e => (.done (.error e), w)
  | grow delta v => (.grown (w.growTable addr delta v).1, (w.growTable addr delta v).2)

/-- References of one kind, with room for so many. -/
structure RefList where
  element : ValType
  vals : List HostVal
  most : Nat

namespace RefList

/-- As many copies of a value as a type asks for. -/
def new (t : TableType) (init : HostVal) : RefList :=
  { element := t.element, vals := List.replicate t.limits.min init, most := t.bound }

/-- What a call answers, and what becomes of the list. -/
def run (s : RefList) : TableCall → TableAnswer × RefList
  | .get index => (.got s.vals[index]?, s)
  | .set index v =>
    if s.vals.length ≤ index then (.done (.error (.outOfBounds index s.vals.length)), s)
    else if v.type ≠ s.element then
      (.done (.error (World.kindError "table" s.element v.type)), s)
    else (.done (.ok ()), { s with vals := s.vals.set index v })
  | .grow delta v =>
    if v.type ≠ s.element then (.grown (.error (World.kindError "table" s.element v.type)), s)
    else if s.vals.length + delta ≤ s.most then
      (.grown (.ok s.vals.length), { s with vals := s.vals ++ List.replicate delta v })
    else
      (.grown (.error
        (.resourceLimit s!"Failed to grow table: failed to grow table by `{delta}`")), s)

/-- The answers to calls one after the other, and what becomes of the list. -/
def runAll (s : RefList) : List TableCall → List TableAnswer × RefList
  | [] => ([], s)
  | c :: cs => ((s.run c).1 :: ((s.run c).2.runAll cs).1, ((s.run c).2.runAll cs).2)

variable {s : RefList}

theorem runAll_append (s : RefList) (cs cs' : List TableCall) : s.runAll (cs ++ cs') =
    ((s.runAll cs).1 ++ ((s.runAll cs).2.runAll cs').1, ((s.runAll cs).2.runAll cs').2) := by
  induction cs generalizing s with
  | nil => rfl
  | cons c cs ih => rw [List.cons_append, runAll, ih, runAll, List.cons_append]

/-- All values are of the kind of the list, and there is room for them. -/
structure Fits (s : RefList) : Prop where
  kinds : ∀ v ∈ s.vals, v.type = s.element
  room : s.vals.length ≤ s.most

theorem Fits.run (h : s.Fits) (c : TableCall) : (s.run c).2.Fits := by
  cases c with
  | get index => exact h
  | set index v =>
      simp only [RefList.run]
      split
      · exact h
      · split
        · exact h
        · rename_i htype
          refine ⟨fun u hu => ?_, (List.length_set ..).trans_le h.room⟩
          rcases List.mem_or_eq_of_mem_set hu with hu | rfl
          · exact h.kinds u hu
          · exact Decidable.not_not.mp htype
  | grow delta v =>
      simp only [RefList.run]
      split
      · exact h
      · rename_i htype
        split
        · rename_i hroom
          refine ⟨fun u hu => ?_, by simpa using hroom⟩
          rcases List.mem_append.mp hu with hu | hu
          · exact h.kinds u hu
          · rw [List.eq_of_mem_replicate hu]
            exact Decidable.not_not.mp htype
        · exact h

end RefList

namespace World

/-- From outside a table is a list. -/
structure Shows (w : World) (addr : Nat) (s : RefList) : Prop where
  there : addr < w.store.tables.size
  element : (w.table addr).element = s.element
  limit : (w.table addr).limit = s.most
  vals : (w.table addr).elems.toList.map w.view = s.vals
  /-- The boxes in its elements are there. -/
  boxed : ∀ u ∈ (w.table addr).elems, w.Boxed u
  fits : s.Fits

variable {w w' : World} {addr : Nat} {s : RefList} {v : HostVal}

namespace Shows

theorem size (h : w.Shows addr s) : (w.table addr).elems.size = s.vals.length := by
  rw [← h.vals, List.length_map, Array.length_toList]

theorem getElem? (h : w.Shows addr s) (index : Nat) :
    (w.getTable addr index).1 = s.vals[index]? := by
  rw [getTable_fst, ← h.vals, List.getElem?_map, Array.getElem?_toList]

/-- The elements of a table that stays as it is look like what they looked like. -/
theorem vals_of_keeps (h : w.Shows addr s) (hkeeps : w.Keeps w') :
    (w.table addr).elems.toList.map w'.view = s.vals := by
  rw [← h.vals]
  refine List.map_congr_left fun u hu => hkeeps.view (h.boxed u (Array.mem_toList_iff.mp hu))

theorem later (h : w.Shows addr s) (hkeeps : w.Keeps w')
    (htable : w'.store.tables[addr]? = w.store.tables[addr]?) : w'.Shows addr s := by
  have hsame : w'.table addr = w.table addr := by rw [table, htable, table]
  have hthere : addr < w'.store.tables.size := by
    rw [Array.getElem?_eq_getElem h.there] at htable
    exact (Array.getElem?_eq_some_iff.mp htable).1
  refine ⟨hthere, ?_, ?_, ?_, ?_, h.fits⟩ <;> rw [hsame]
  · exact h.element
  · exact h.limit
  · exact h.vals_of_keeps hkeeps
  · exact fun u hu => hkeeps.boxed (h.boxed u hu)

/-- What only touches boxes and the like leaves a table as it looks. -/
theorem of_objects (h : w.Shows addr s) (hkeeps : w.Keeps w') (ho : w'.objects = w.objects) :
    w'.Shows addr s :=
  h.later hkeeps (congrArg (fun s : Store => s.tables[addr]?) ho :)

theorem mapElems {f : Array StoreVal → Array StoreVal} {vals : List HostVal} (h : w.Shows addr s)
    (hvals : (f (w.table addr).elems).toList.map w.view = vals)
    (hboxed : ∀ u ∈ f (w.table addr).elems, w.Boxed u) (hfits : RefList.Fits { s with vals }) :
    (w.mapElems addr f).Shows addr { s with vals } := by
  have htable : (w.mapElems addr f).table addr =
      { w.table addr with elems := f (w.table addr).elems } := by
    simp [table, World.mapElems, mapStore, Array.getElem_modify, h.there]
  refine ⟨?_, ?_, ?_, ?_, ?_, hfits⟩
  · simpa only [World.mapElems, mapStore, Array.size_modify] using h.there
  · rw [htable]
    exact h.element
  · rw [htable]
    exact h.limit
  · rw [htable]
    exact hvals
  · rw [htable]
    exact hboxed

/-- Inside the store a table grows like the list. -/
theorem growElems {u : StoreVal} (h : w.Shows addr s) (hu : w.Boxed u)
    (hkind : u.type = s.element) (delta : Nat) :
    (s.vals.length + delta ≤ s.most ∧
      (w.growElems addr delta u).1 = some s.vals.length ∧
      (w.growElems addr delta u).2.Shows addr
        { s with vals := s.vals ++ List.replicate delta (w.view u) }) ∨
    (¬ s.vals.length + delta ≤ s.most ∧ (w.growElems addr delta u).1 = none ∧
      (w.growElems addr delta u).2.Shows addr s) := by
  have hheld := h.of_objects (keeps_holdVal u w) (objects_holdVal u w)
  simp only [World.growElems, h.size, h.limit]
  by_cases hdelta : delta = 0
  · subst hdelta
    simp only [if_true, Nat.add_zero, List.replicate_zero, List.append_nil]
    exact .inl ⟨h.fits.room, trivial, hheld⟩
  · by_cases hroom : s.vals.length + delta ≤ s.most
    · simp only [hdelta, hroom, if_true, if_false]
      refine .inl ⟨trivial, trivial, ?_⟩
      have hkeeps := keeps_holdAll (Array.replicate delta u).toList w
      have hall := h.of_objects hkeeps (objects_holdAll _ w)
      refine hall.mapElems ?_ (fun x hx => ?_) ?_
      · rw [Array.toList_append, List.map_append, hall.vals, Array.toList_replicate,
          List.map_replicate, view_holdAll]
      · rcases Array.mem_append.mp hx with hx | hx
        · exact hall.boxed x hx
        · rw [(Array.mem_replicate.mp hx).2]
          exact hkeeps.boxed hu
      · refine ⟨fun x hx => ?_, by simpa using hroom⟩
        rcases List.mem_append.mp hx with hx | hx
        · exact h.fits.kinds x hx
        · rw [List.eq_of_mem_replicate hx, type_view]
          exact hkind
    · simp only [hdelta, hroom, if_false]
      exact .inr ⟨not_false, trivial, hheld⟩

end Shows

/-! ## Calls -/

/-- A call on a handle answers what the list answers, and so does the next one. -/
theorem Shows.run (h : w.Shows addr s) (c : TableCall) :
    (c.run addr w).1 = (s.run c).1 ∧ (c.run addr w).2.Shows addr (s.run c).2 := by
  cases c with
  | get index =>
      refine ⟨congrArg TableAnswer.got (h.getElem? index), ?_⟩
      simp only [TableCall.run, RefList.run, getTable]
      split
      · exact h.of_objects (.of_boxes (congrArg Store.boxes (store_reveal ..))) (objects_reveal _ w)
      · exact h
  | set index v =>
      have haccepted := h.of_objects (keeps_accept v w) (objects_accept v w)
      have hfits := h.fits.run (.set index v)
      simp only [TableCall.run, RefList.run, setTable, h.size, h.element] at hfits ⊢
      by_cases hindex : s.vals.length ≤ index
      · simp only [hindex, if_true]
        exact ⟨trivial, h⟩
      · by_cases hkind : v.type = s.element
        · simp only [hindex, hkind, ne_eq, not_true_eq_false, if_false] at hfits ⊢
          refine ⟨trivial, haccepted.mapElems ?_ (fun u hu => ?_) hfits⟩
          · rw [Array.toList_setIfInBounds, List.map_set, haccepted.vals, view_accept]
          · rcases Array.mem_or_eq_of_mem_setIfInBounds hu with hu | rfl
            · exact haccepted.boxed u hu
            · exact boxed_accept v w
        · simp only [hindex, hkind, ne_eq, not_false_eq_true, if_false, if_true]
          exact ⟨trivial, h⟩
  | grow delta v =>
      have haccepted := h.of_objects (keeps_accept v w) (objects_accept v w)
      simp only [TableCall.run, RefList.run, growTable, h.element]
      by_cases hkind : v.type = s.element
      · have hgrown := haccepted.growElems (boxed_accept v w) ((type_accept v w).trans hkind) delta
        rw [view_accept] at hgrown
        simp only [hkind, ne_eq, not_true_eq_false, if_false]
        generalize (w.accept v).2.growElems addr delta (w.accept v).1 = grown at hgrown ⊢
        obtain ⟨old, grown⟩ := grown
        rcases hgrown with ⟨hroom, rfl, hgrown⟩ | ⟨hroom, rfl, hgrown⟩
        · simp only [hroom, if_true]
          exact ⟨trivial, hgrown.of_objects (keeps_unholdVal _ _) (objects_unholdVal _ _)⟩
        · simp only [hroom, if_false]
          exact ⟨trivial, hgrown.of_objects (keeps_unholdVal _ _) (objects_unholdVal _ _)⟩
      · simp only [hkind, ne_eq, not_false_eq_true, if_true]
        exact ⟨trivial, h⟩

end World

end WasmHost

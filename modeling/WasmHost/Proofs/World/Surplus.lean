import WasmHost.Proofs.World.RoundTrips

/-!
# Boxes are not held for nothing

`World.Tight` says that no box for a reference is held more often than something holds it. What an
embedder, code and new instances do to globals and tables keeps it so, with two exceptions: a value
that a table of the embedder's gives up for another one, and a value that is offered to a table that
does not grow, leave a hold of their box behind.
-/

namespace WasmHost

open Val

/-- Inside the store the value is the reference. -/
def Store.Refers (s : Store) (v : StoreVal) (r : RefId) : Prop :=
  ∃ b x, v.foreign? = some b ∧ s.boxes[b]? = some x ∧ x.ref = r

namespace World

/-- No box for the reference is held more often than globals, elements of tables and `H` hold it. -/
def Tight (r : RefId) (H : Multiset BoxId) (w : World) : Prop :=
  ∀ b x, w.store.boxes[b]? = some x → x.ref = r → x.holds ≤ (w.store.slots + H).count b

/-- The growth of a table adds nothing: it is one by no elements, or there is no room. -/
def Vain (w : World) (addr delta : Nat) : Prop :=
  delta = 0 ∨ (w.table addr).limit < (w.table addr).elems.size + delta

variable {r : RefId} {H H' : Multiset BoxId} {w w' : World} {v : StoreVal} {vs : List StoreVal}

namespace Tight

theorem of_count (h : w.Tight r H) (hboxes : w'.store.boxes = w.store.boxes)
    (hcount : ∀ b x, w.store.boxes[b]? = some x → x.ref = r →
      (w.store.slots + H).count b ≤ (w'.store.slots + H').count b) : w'.Tight r H' := by
  intro b x hx hr
  rw [hboxes] at hx
  exact Nat.le_trans (h b x hx hr) (hcount b x hx hr)

theorem of_le (h : w.Tight r H) (hboxes : w'.store.boxes = w.store.boxes)
    (hslots : w.store.slots + H ≤ w'.store.slots + H') : w'.Tight r H' :=
  h.of_count hboxes fun b _ _ _ => Multiset.count_le_of_le b hslots

/-- The holders told in another way. -/
theorem reshape (h : w.Tight r H) (hH : H' = H) : w.Tight r H' := hH ▸ h

/-- Who holds a box that is not for the reference does not matter. -/
theorem forget (h : w.Tight r (foreigns [v] + H)) (hv : ¬w.store.Refers v r) : w.Tight r H := by
  refine h.of_count rfl fun b x hx hr => ?_
  have hother : (foreigns [v]).count b = 0 := by
    refine Multiset.count_eq_zero.mpr fun hb => hv ?_
    obtain ⟨u, hu, hb⟩ := mem_foreigns.mp hb
    rw [List.mem_singleton.mp hu] at hb
    exact ⟨b, x, hb, hx, hr⟩
  rw [Multiset.count_add, Multiset.count_add, Multiset.count_add, hother, Nat.zero_add]

/-! ## Boxes -/

theorem updateBox {f : Box → Box} {b : BoxId} (h : w.Tight r H) (href : ∀ x, (f x).ref = x.ref)
    (hthis : ∀ x : Box, x.holds ≤ (w.store.slots + H).count b →
      (f x).holds ≤ (w.store.slots + H').count b)
    (hother : ∀ c ≠ b, H.count c ≤ H'.count c) : (w.updateBox f b).Tight r H' := by
  intro c x hx hr
  rw [store_updateBox, Array.getElem?_modify] at hx
  rw [slots_updateBox]
  by_cases hc : b = c
  · subst hc
    rw [if_pos rfl] at hx
    obtain ⟨y, hy, rfl⟩ := Option.map_eq_some_iff.mp hx
    exact hthis y (h b y hy ((href y).symm.trans hr))
  · rw [if_neg hc] at hx
    have hcount := h c x hx hr
    have hle := hother c (Ne.symm hc)
    simp only [Multiset.count_add] at hcount ⊢
    omega

theorem hold (h : w.Tight r H) (b : BoxId) : (w.hold b).Tight r (b ::ₘ H) := by
  refine h.updateBox (fun _ => rfl) (fun x hx => ?_) fun c hc => ?_
  · rw [Multiset.add_cons, Multiset.count_cons_self]
    exact Nat.succ_le_succ hx
  · rw [Multiset.count_cons_of_ne hc]

theorem unhold {b : BoxId} (h : w.Tight r (b ::ₘ H)) : (w.unhold b).Tight r H := by
  refine h.updateBox (fun _ => rfl) (fun x hx => ?_) fun c hc => ?_
  · rw [Multiset.add_cons, Multiset.count_cons_self] at hx
    exact Nat.sub_le_of_le_add hx
  · rw [Multiset.count_cons_of_ne hc]

theorem mark (h : w.Tight r H) (b : BoxId) (seen : Bool) :
    (w.updateBox ({ · with exposed := seen }) b).Tight r H :=
  h.updateBox (fun _ => rfl) (fun _ hx => hx) fun _ _ => Nat.le_refl _

theorem putIn (h : w.Tight r H) (p : RefId) : (w.putIn p).2.Tight r ((w.putIn p).1 ::ₘ H) := by
  intro b x hx hr
  have hslots : (w.putIn p).2.store.slots = w.store.slots := rfl
  have hnew : (w.putIn p).1 = w.store.boxes.size := rfl
  rw [hslots, hnew, Multiset.add_cons]
  simp only [World.putIn, mapStore, World.clone, mapRefs, mapShared, Array.getElem?_push] at hx
  split at hx
  · subst b
    cases hx
    rw [Multiset.count_cons_self]
    exact Nat.le_add_left 1 _
  · exact Nat.le_trans (h b x hx hr) (Multiset.count_le_count_cons b _ _)

/-! ## Values at the border -/

theorem holdVal (h : w.Tight r H) (v : StoreVal) :
    (w.holdVal v).Tight r (foreigns [v] + H) := by
  unfold World.holdVal boxOf
  cases hb : v.foreign? with
  | none => simpa [foreigns_of_none hb] using h
  | some b =>
      rw [foreigns_of_some hb]
      exact h.hold b

theorem unholdVal (h : w.Tight r (foreigns [v] + H)) : (w.unholdVal v).Tight r H := by
  unfold World.unholdVal boxOf
  cases hb : v.foreign? with
  | none => simpa [foreigns_of_none hb] using h
  | some b =>
      rw [foreigns_of_some hb] at h
      exact h.unhold

theorem exposeVal (h : w.Tight r H) (v : StoreVal) : (w.exposeVal v).Tight r H := by
  unfold World.exposeVal
  cases boxOf v with
  | none => exact h
  | some b => exact h.mark b true

theorem holdAll (h : w.Tight r H) (vs : List StoreVal) :
    (w.holdAll vs).Tight r (foreigns vs + H) := by
  induction vs generalizing w H with
  | nil => simpa [World.holdAll] using h
  | cons v vs ih =>
      have hheld := ih (h.holdVal v)
      rwa [← add_assoc, add_comm (foreigns vs), ← foreigns_cons] at hheld

theorem unholdAll (h : w.Tight r (foreigns vs + H)) : (w.unholdAll vs).Tight r H := by
  induction vs generalizing w with
  | nil => simpa [World.unholdAll] using h
  | cons v vs ih =>
      rw [foreigns_cons, add_assoc] at h
      exact ih h.unholdVal

theorem exposeAll (h : w.Tight r H) (vs : List StoreVal) : (w.exposeAll vs).Tight r H := by
  induction vs generalizing w with
  | nil => exact h
  | cons v vs ih => exact ih (h.exposeVal v)

theorem collect (h : w.Tight r H) (live : List BoxId) : (w.collect live).Tight r H := by
  unfold World.collect
  generalize List.range w.store.boxes.size = bs
  induction bs generalizing w with
  | nil => exact h
  | cons b bs ih =>
      refine ih ?_
      dsimp only
      split
      · exact h
      · exact h.mark b false

theorem accept (h : w.Tight r H) (v : HostVal) :
    (w.accept v).2.Tight r (foreigns [(w.accept v).1] + H) := by
  have hplain {u : StoreVal} (hu : u.foreign? = none) : w.Tight r (foreigns [u] + H) := by
    rwa [foreigns_of_none hu, zero_add]
  cases v with
  | externref p =>
      cases p with
      | none => exact hplain rfl
      | some p => exact h.putIn p
  | _ => exact hplain rfl

theorem acceptAll (h : w.Tight r H) (vs : List HostVal) :
    (w.acceptAll vs).2.Tight r (foreigns (w.acceptAll vs).1 + H) := by
  induction vs generalizing w H with
  | nil => simpa [World.acceptAll] using h
  | cons v vs ih =>
      have haccepted := ih (h.accept v)
      simp only [World.acceptAll]
      rwa [foreigns_cons, add_assoc, add_left_comm]

theorem of_store (h : w.Tight r H) (hstore : w'.store = w.store) : w'.Tight r H :=
  h.of_le (by rw [hstore]) (by rw [hstore])

theorem reveal (h : w.Tight r H) (v : StoreVal) : (w.reveal v).2.Tight r H :=
  h.of_store (store_reveal v w)

theorem revealAll (h : w.Tight r H) (vs : List StoreVal) : (w.revealAll vs).2.Tight r H := by
  induction vs generalizing w with
  | nil => exact h
  | cons v vs ih => exact ih (h.reveal v)

theorem discard (h : w.Tight r H) (v : HostVal) : (w.discard v).Tight r H := by
  unfold World.discard
  cases v.foreign? with
  | none => exact h
  | some p => exact h.of_store rfl

theorem discardAll (h : w.Tight r H) (vs : List HostVal) : (w.discardAll vs).Tight r H := by
  induction vs generalizing w with
  | nil => exact h
  | cons v vs ih => exact ih (h.discard v)

end Tight

/-! ## Sizes -/

theorem tableSize_putElem (addr index src : Nat) (v : StoreVal) (w : World) :
    (w.putElem addr index v).tableSize src = w.tableSize src := by
  obtain ⟨boxes, h⟩ := store_putElem addr index v w
  simp only [tableSize, table, h, mapElems, mapStore, Array.getElem?_modify]
  by_cases hsrc : addr = src
  · subst hsrc
    cases w.store.tables[addr]? <;> simp
  · rw [if_neg hsrc]

theorem tableSize_putElemsBack (addr index src : Nat) (vs : List StoreVal) (w : World) :
    (w.putElemsBack addr index vs).tableSize src = w.tableSize src := by
  induction vs generalizing index with
  | nil => rfl
  | cons v vs ih => exact (tableSize_putElem addr index src v _).trans (ih (index + 1))

/-- A box in which a value is taken into the store is held once. -/
theorem boxes_accept {v : HostVal} {b : BoxId} {x : Box}
    (h : (w.accept v).2.store.boxes[b]? = some x) :
    w.store.boxes[b]? = some x ∨ (w.accept v).1.foreign? = some b ∧ x.holds = 1 := by
  cases v with
  | externref p =>
      cases p with
      | none => exact .inl h
      | some p =>
          simp only [accept, putIn, mapStore, clone, mapRefs, mapShared, Array.getElem?_push] at h
          split at h
          · cases h
            exact .inr ⟨congrArg some (Eq.symm ‹_›), rfl⟩
          · exact .inl h
  | _ => exact .inl h

theorem foreign_of_refers_accept {v : HostVal}
    (h : (w.accept v).2.store.Refers (w.accept v).1 r) : v.foreign? = some r := by
  obtain ⟨b, x, hb, hx, rfl⟩ := h
  have hmap (f : BoxId → RefId) : ((w.accept v).1.map f).foreign? =
      (w.accept v).1.foreign?.map f := by cases (w.accept v).1 <;> rfl
  have hview := congrArg Val.foreign? (view_accept v w)
  rw [view, hmap, hb] at hview
  simpa [box?, hx] using hview.symm

/-- Only a table that is there has room. -/
theorem exists_table {addr delta : Nat} (h : ¬w.Vain addr delta) :
    ∃ t, w.store.tables[addr]? = some t := by
  cases ht : w.store.tables[addr]? with
  | some t => exact ⟨t, rfl⟩
  | none =>
      refine absurd ?_ h
      simp only [Vain, table, ht, Option.getD_none, List.size_toArray, List.length_nil]
      omega

namespace Tight

/-! ## Operations on globals and tables -/

theorem putGlobal (h : w.Tight r H) {addr : Nat} (haddr : addr < w.store.globals.size)
    (v : StoreVal) : (w.putGlobal addr v).Tight r H := by
  obtain ⟨boxes, hstore⟩ := store_holdVal v w
  have hg : (w.holdVal v).store.globals[addr]? = some w.store.globals[addr] := by
    rw [hstore]
    exact Array.getElem?_eq_getElem haddr
  have hset := Store.slots_setGlobal hg v
  have hold : w.globalValue addr = w.store.globals[addr].value := by
    simp [globalValue, Array.getElem?_eq_getElem haddr]
  refine unholdVal ((h.holdVal v).of_le rfl (le_of_eq ?_))
  rw [← add_assoc, ← add_assoc, hold]
  exact congrArg (· + H) hset.symm

theorem pushTable (h : w.Tight r H) (type : TableType) (limit : Nat) (v : StoreVal) :
    (w.pushTable type limit v).2.Tight r H := by
  refine (h.holdAll (Array.replicate type.limits.min v).toList).of_le rfl (le_of_eq ?_)
  exact Eq.symm ((congrArg (· + H) (Store.slots_pushTable _ _)).trans (by ac_rfl))

theorem setElem (h : w.Tight r (foreigns [v] + H)) {addr index : Nat} {old : StoreVal}
    (hold : (w.table addr).elems[index]? = some old) :
    (w.mapElems addr (·.setIfInBounds index v)).Tight r (foreigns [old] + H) := by
  refine h.of_le rfl (le_of_eq ?_)
  rw [← add_assoc, ← add_assoc]
  exact congrArg (· + H) (slots_mapElems_set hold v).symm

theorem putElem (h : w.Tight r H) {addr index : Nat} (hindex : index < w.tableSize addr)
    (v : StoreVal) : (w.putElem addr index v).Tight r H := by
  have hold : (w.table addr).elems[index]? = some (w.table addr).elems[index] :=
    Array.getElem?_eq_getElem hindex
  have hset := (h.holdVal v).setElem
    ((congrArg (·.elems[index]?) (table_holdVal addr v w)).trans hold)
  unfold World.putElem
  rw [hold]
  exact hset.unholdVal

theorem putElems (h : w.Tight r H) {addr index : Nat}
    (hindex : index + vs.length ≤ w.tableSize addr) : (w.putElems addr index vs).Tight r H := by
  induction vs generalizing index w with
  | nil => exact h
  | cons v vs ih =>
      rw [List.length_cons] at hindex
      refine ih (h.putElem (by omega) v) ?_
      rw [tableSize_putElem]
      omega

theorem putElemsBack (h : w.Tight r H) {addr index : Nat}
    (hindex : index + vs.length ≤ w.tableSize addr) :
    (w.putElemsBack addr index vs).Tight r H := by
  induction vs generalizing index with
  | nil => exact h
  | cons v vs ih =>
      rw [List.length_cons] at hindex
      have hrest : (w.putElemsBack addr (index + 1) vs).Tight r H := ih (by omega)
      refine hrest.putElem ?_ v
      rw [tableSize_putElemsBack]
      omega

theorem copyElems (h : w.Tight r H) {addr index : Nat}
    (hindex : index + vs.length ≤ w.tableSize addr) (source : Nat) :
    (w.copyElems addr source index vs).Tight r H := by
  unfold World.copyElems
  split
  · exact h.putElems hindex
  · exact h.putElemsBack hindex

/-- A table that does not grow is not to be offered the reference. -/
theorem growElems (h : w.Tight r H) (addr delta : Nat)
    (hv : w.Vain addr delta → ¬w.store.Refers v r) : (w.growElems addr delta v).2.Tight r H := by
  have hvain (hvain : w.Vain addr delta) : (w.holdVal v).Tight r H := by
    refine (h.holdVal v).forget fun hrefers => hv hvain ?_
    obtain ⟨b, x, hb, hx, hr⟩ := hrefers
    unfold World.holdVal boxOf at hx
    rw [hb, Option.elim_some, World.hold, store_updateBox, Array.getElem?_modify, if_pos rfl] at hx
    obtain ⟨y, hy, rfl⟩ := Option.map_eq_some_iff.mp hx
    exact ⟨b, y, hb, hy, hr⟩
  simp only [World.growElems]
  split
  · rename_i hzero
    exact hvain (.inl hzero)
  · rename_i hzero
    split
    · rename_i hroom
      have hnot : ¬w.Vain addr delta := not_or.mpr ⟨hzero, Nat.not_lt.mpr hroom⟩
      obtain ⟨t, ht⟩ := exists_table hnot
      refine (h.holdAll (Array.replicate delta v).toList).of_le rfl (le_of_eq ?_)
      have hheld : (w.holdAll (Array.replicate delta v).toList).store.tables[addr]? = some t := by
        rw [← ht]
        exact congrArg (·.tables[addr]?) (objects_holdAll _ w)
      rw [slots_mapElems_append hheld, add_assoc]
    · rename_i hroom
      exact hvain (.inr (Nat.not_le.mp hroom))

/-! ## What the embedder does -/

theorem newGlobal {type : GlobalType} {init : HostVal} {addr : Nat} (h : w.Tight r H)
    (hnew : w.newGlobal type init = .ok (addr, w')) : w'.Tight r H := by
  simp only [World.newGlobal] at hnew
  split at hnew <;> cases hnew
  refine (h.accept init).of_le rfl (le_of_eq ?_)
  exact Eq.symm ((congrArg (· + H) (Store.slots_pushGlobal _ _)).trans (by ac_rfl))

theorem setGlobal {addr : Nat} {v : HostVal} (h : w.Tight r H)
    (hset : w.setGlobal addr v = .ok w') : w'.Tight r H := by
  simp only [World.setGlobal] at hset
  split at hset
  · cases hset
  · rename_i hmutable
    have haddr : addr < (w.accept v).2.store.globals.size := by
      have hglobals : (w.accept v).2.store.globals = w.store.globals :=
        congrArg (·.globals) (objects_accept v w)
      rw [hglobals]
      refine Nat.lt_of_not_le fun hle => hmutable ?_
      rw [globalType, Array.getElem?_eq_none hle]
      rfl
    split at hset <;> cases hset
    exact ((h.accept v).putGlobal haddr _).unholdVal

theorem newTable {type : TableType} {init : HostVal} {addr : Nat} (h : w.Tight r H)
    (hnew : w.newTable type init = .ok (addr, w')) : w'.Tight r H := by
  simp only [World.newTable] at hnew
  split at hnew
  · cases hnew
  · split at hnew <;> cases hnew
    exact ((h.accept init).pushTable _ _ _).unholdVal

theorem getTable (h : w.Tight r H) (addr index : Nat) : (w.getTable addr index).2.Tight r H := by
  unfold World.getTable
  split
  · exact h.reveal _
  · exact h

/-- The box of an element that the embedder replaces is not given up. -/
theorem setTable {addr index : Nat} {v : HostVal} (h : w.Tight r H)
    (hset : w.setTable addr index v = .ok w')
    (hold : v.type = (w.table addr).element →
      ∀ old, (w.table addr).elems[index]? = some old → ¬w.store.Refers old r) :
    w'.Tight r H := by
  simp only [World.setTable] at hset
  split at hset
  · cases hset
  · rename_i hsize
    have hthere : (w.table addr).elems[index]? = some (w.table addr).elems[index] :=
      Array.getElem?_eq_getElem (Nat.lt_of_not_le hsize)
    generalize (w.table addr).elems[index] = old at hthere
    have hsame : (w.accept v).2.store.slots = w.store.slots :=
      (congrArg Store.slots (objects_accept v w) :)
    have htable : ((w.accept v).2.table addr).elems[index]? = some old := by
      rw [table_of_objects (objects_accept v w)]
      exact hthere
    have hsize' := (Array.getElem?_eq_some_iff.mp htable).1
    have hput : (((w.accept v).2.mapElems addr (·.setIfInBounds index (w.accept v).1)).table
        addr).elems[index]? = some (w.accept v).1 := by
      rw [elems_mapElems _ (lt_size_of_elem hsize'), Array.getElem?_setIfInBounds_self_of_lt hsize']
    have hslots := slots_mapElems_set htable (w.accept v).1
    split at hset <;> cases hset
    rename_i hkind
    intro b x hx hr
    rcases boxes_accept hx with hx | ⟨hb, hone⟩
    · have hother : (foreigns [old]).count b = 0 := by
        refine Multiset.count_eq_zero.mpr fun hb => hold (not_not.mp hkind) old hthere ?_
        obtain ⟨u, hu, hb⟩ := mem_foreigns.mp hb
        rw [List.mem_singleton.mp hu] at hb
        exact ⟨b, x, hb, hx, hr⟩
      have hcount := congrArg (Multiset.count b) hslots
      have hle := h b x hx hr
      simp only [Multiset.count_add, hother, hsame] at hcount hle ⊢
      omega
    · have hmem := mem_tableSlots hput hb
      rw [hone]
      exact Multiset.one_le_count_iff_mem.mpr (by simp [Store.slots, hmem])

/-- A table that does not grow is not to be offered the reference. -/
theorem growTable {addr delta : Nat} {v : HostVal} (h : w.Tight r H)
    (hv : v.type = (w.table addr).element → w.Vain addr delta → v.foreign? ≠ some r) :
    (w.growTable addr delta v).2.Tight r H := by
  simp only [World.growTable]
  split
  · exact h
  · rename_i hkind
    have htable := table_of_objects (objects_accept v w) addr
    have hgrown := (h.accept v).growElems addr delta fun hvain hrefers => by
      unfold Vain at hvain
      rw [htable] at hvain
      exact hv (not_not.mp hkind) hvain (foreign_of_refers_accept hrefers)
    split <;> exact hgrown.unholdVal

theorem growMemory {addr delta old : Nat} (h : w.Tight r H)
    (hgrow : w.growMemory addr delta = .ok (old, w')) : w'.Tight r H := by
  simp only [World.growMemory, growPages] at hgrow
  split at hgrow <;> cases hgrow
  rename_i hgrown
  split at hgrown <;> cases hgrown
  exact h.of_le rfl le_rfl

theorem writeMemory {addr offset : Nat} {bytes : List UInt8} (h : w.Tight r H)
    (hwrite : w.writeMemory addr offset bytes = some w') : w'.Tight r H := by
  simp only [World.writeMemory] at hwrite
  split at hwrite <;> cases hwrite
  exact h.of_le rfl le_rfl

theorem addFuel {n : Nat} (h : w.Tight r H) (hadd : w.addFuel n = .ok w') : w'.Tight r H := by
  obtain ⟨-, rfl⟩ := addFuel_eq_ok hadd
  exact h.of_le rfl le_rfl

/-! ## Instances -/

theorem pushGlobals (h : w.Tight r H) (funcs : Array FuncAddr) (globals : Array Nat)
    (gs : List Wasm.Global) : (w.pushGlobals funcs globals gs).2.Tight r H := by
  induction gs generalizing globals w with
  | nil => exact h
  | cons g gs ih =>
      refine ih ?_ _
      refine (h.holdVal (w.constant funcs globals g.init)).of_le rfl (le_of_eq ?_)
      exact Eq.symm ((congrArg (· + H) (Store.slots_pushGlobal _ _)).trans (by ac_rfl))

theorem pushTables (h : w.Tight r H) (slot : Option Nat) (tables : Array Nat)
    (ts : List TableType) : (w.pushTables slot tables ts).2.Tight r H := by
  induction ts generalizing tables w with
  | nil => exact h
  | cons t ts ih => exact ih (h.pushTable t _ _) _

theorem pushMemories (h : w.Tight r H) (slot : Option Nat) (memories : Array Nat)
    (ts : List MemoryType) : (w.pushMemories slot memories ts).2.Tight r H := by
  induction ts generalizing memories w with
  | nil => exact h
  | cons t ts ih =>
      have hpushed (pages limit : Nat) : (w.pushMemory pages limit).2.Tight r H :=
        h.of_le rfl le_rfl
      exact ih (hpushed _ _) _

theorem allocate (h : w.Tight r H) (m : CompiledModule) (imports : List Item) :
    (w.allocate m imports).2.Tight r H := by
  have hfuncs (fs : Array Func) : (w.mapStore fun s => { s with funcs := fs }).Tight r H :=
    h.of_le rfl le_rfl
  unfold World.allocate
  exact Tight.of_le ((((hfuncs _).pushGlobals _ _ _).pushTables _ _ _).pushMemories _ _ _) rfl
    le_rfl

theorem fillTables (h : w.Tight r H) (i : Instance) (es : List Wasm.Elem) :
    (w.fillTables i es).2.Tight r H := by
  induction es generalizing w with
  | nil => exact h
  | cons e es ih =>
      unfold World.fillTables
      split
      · exact ih h
      · split
        · exact ih (h.putElems ‹_›)
        · exact h

theorem fillMemories (h : w.Tight r H) (i : Instance) (ds : List Wasm.Data) :
    (w.fillMemories i ds).2.Tight r H := by
  induction ds generalizing w with
  | nil => exact h
  | cons d ds ih =>
      unfold World.fillMemories
      split
      · exact ih h
      · split
        · exact ih (h.of_le rfl le_rfl)
        · exact h

theorem fill (h : w.Tight r H) (addr : InstanceAddr) : (w.fill addr).2.Tight r H := by
  unfold World.fill
  split
  · exact h
  · rename_i i _
    split
    · exact h
    · have htables := h.fillTables i i.module.module.elems
      split
      · rename_i hfilled
        rw [hfilled] at htables
        exact htables.fillMemories i _
      · exact htables

theorem instantiate (h : w.Tight r H) (m : CompiledModule) (imports : List Item) :
    (w.instantiate m imports).2.Tight r H := by
  have hmade := (h.allocate m imports).fill (w.allocate m imports).1
  unfold World.instantiate
  split
  · exact h
  · dsimp only
    split <;> rename_i hfilled <;> rw [hfilled] at hmade <;> exact hmade

end Tight

/-! ## Collections -/

/-- After a collection with no code at work nothing counts as seen by code. -/
theorem box_collect (w : World) (b : BoxId) : (w.collect []).store.boxes[b]? =
    (w.store.boxes[b]?).map fun x => { x with exposed := false } := by
  have hfold (bs : List BoxId) (w : World) : (bs.foldl (fun w b =>
      if ([] : List BoxId).contains b then w
      else w.updateBox ({ · with exposed := false }) b) w).store.boxes[b]? =
      (w.store.boxes[b]?).map fun x => if b ∈ bs then { x with exposed := false } else x := by
    induction bs generalizing w with
    | nil => simp
    | cons c bs ih =>
        rw [List.foldl_cons, ih]
        simp only [List.contains_nil, Bool.false_eq_true, if_false, store_updateBox,
          Array.getElem?_modify, List.mem_cons]
        by_cases hc : c = b
        · subst hc
          cases w.store.boxes[c]? <;> simp
        · simp [hc, Ne.symm hc]
  rw [collect, hfold]
  cases hx : w.store.boxes[b]? with
  | none => rfl
  | some x => simp [(Array.getElem?_eq_some_iff.mp hx).1]

@[simp] theorem slots_collect (live : List BoxId) (w : World) :
    (w.collect live).store.slots = w.store.slots :=
  (congrArg Store.slots (objects_collect live w) :)

/-- What globals and elements of tables do not hold is given up by a collection. -/
theorem Tight.not_boxed (h : w.Tight r 0)
    (globals : ∀ g ∈ w.store.globals, ¬w.store.Refers g.value r)
    (tables : ∀ t ∈ w.store.tables, ∀ v ∈ t.elems, ¬w.store.Refers v r) :
    r ∉ (w.collect []).store.boxed := by
  intro hboxed
  obtain ⟨x, hx, hr⟩ := exists_of_mem_sum_map hboxed
  obtain ⟨b, hb⟩ := List.mem_iff_getElem?.mp hx
  rw [Array.getElem?_toList, box_collect] at hb
  obtain ⟨y, hy, rfl⟩ := Option.map_eq_some_iff.mp hb
  split at hr
  · rename_i hlive
    obtain rfl := Multiset.mem_singleton.mp hr
    simp only [Box.isLive, Bool.or_false, bne_iff_ne, ne_eq] at hlive
    have hheld := h b y hy rfl
    have hslot : b ∈ w.store.slots := by
      rw [add_zero] at hheld
      exact Multiset.count_pos.mp (by omega)
    rcases Multiset.mem_add.mp hslot with hglobal | htable
    · obtain ⟨v, hv, hb⟩ := mem_foreigns.mp hglobal
      obtain ⟨g, hg, rfl⟩ := List.mem_map.mp hv
      exact globals g (Array.mem_toList_iff.mp hg) ⟨b, y, hb, hy, rfl⟩
    · obtain ⟨t, ht, hb⟩ := exists_of_mem_sum_map htable
      obtain ⟨v, hv, hb⟩ := mem_foreigns.mp hb
      exact tables t (Array.mem_toList_iff.mp ht) v (Array.mem_toList_iff.mp hv) ⟨b, y, hb, hy, rfl⟩
  · cases hr

end World

end WasmHost

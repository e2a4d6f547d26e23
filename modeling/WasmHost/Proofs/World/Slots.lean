import Mathlib.Data.Multiset.OrderedMonoid
import WasmHost.Proofs.World.Holdings
import WasmHost.Proofs.World.Objects

/-!
# Values in globals and tables

A global or an element of a table holds the box of its value. Values are put there by the embedder,
by code and by new instances; what is put is kept by something at that moment, and what it replaces
is given up once.
-/

namespace WasmHost

open Val

namespace Store

theorem slots_pushGlobal (g : Global) (s : Store) :
    ({ s with globals := s.globals.push g } : Store).slots = foreigns [g.value] + s.slots := by
  simp only [slots, globalSlots, tableSlots, Array.toList_push, List.map_append, List.map_cons,
    List.map_nil, foreigns_append]
  ac_rfl

theorem slots_pushTable (t : Table) (s : Store) :
    ({ s with tables := s.tables.push t } : Store).slots = foreigns t.elems.toList + s.slots := by
  simp only [slots, globalSlots, tableSlots, Array.toList_push, List.map_append, List.map_cons,
    List.map_nil, List.sum_append, List.sum_cons, List.sum_nil, add_zero]
  ac_rfl

/-- The value that is put into a global takes the place of the old one. -/
theorem slots_setGlobal {addr : Nat} {g : Global} {s : Store} (hg : s.globals[addr]? = some g)
    (v : StoreVal) :
    ({ s with globals := s.globals.modify addr ({ · with value := v }) } : Store).slots +
        foreigns [g.value] =
      s.slots + foreigns [v] := by
  have hsum := sum_map_modify (fun g : Global => foreigns [g.value]) ({ · with value := v })
    (by simpa using hg : s.globals.toList[addr]? = some g)
  simp only [slots, globalSlots, tableSlots, Array.toList_modify, foreigns_eq_sum (List.map _ _),
    List.map_map, Function.comp_def]
  rw [add_right_comm, hsum, add_right_comm]

/-- Nothing is put into a global that is not there. -/
theorem slots_setGlobal_le (addr : Nat) (v : StoreVal) (s : Store) :
    ({ s with globals := s.globals.modify addr ({ · with value := v }) } : Store).slots +
        foreigns [(s.globals[addr]?.map (·.value)).getD default] ≤
      s.slots + foreigns [v] := by
  cases hg : s.globals[addr]? with
  | none =>
      rw [modify_of_none hg]
      exact add_le_add_right (Multiset.zero_le _) _
  | some g =>
      rw [Option.map_some, Option.getD_some]
      exact le_of_eq (slots_setGlobal hg v)

/-- The elements of a table take the place of the old ones. -/
theorem slots_modifyTable {addr : Nat} {t : Table} {s : Store} (ht : s.tables[addr]? = some t)
    (f : Array StoreVal → Array StoreVal) :
    ({ s with
      tables := s.tables.modify addr fun t => { t with elems := f t.elems } } : Store).slots +
        foreigns t.elems.toList =
      s.slots + foreigns (f t.elems).toList := by
  have hsum := sum_map_modify (fun t : Table => foreigns t.elems.toList)
    (fun t => { t with elems := f t.elems }) (by simpa using ht : s.tables.toList[addr]? = some t)
  simp only [slots, globalSlots, tableSlots, Array.toList_modify, add_assoc, hsum]

end Store

namespace World

variable {h₀ : RefHeap} {O : Multiset RefId} {H H' : Multiset BoxId} {S : Set BoxId} {w : World}

theorem mem_globalSlots {addr : Nat} {b : BoxId} (hb : (w.globalValue addr).foreign? = some b) :
    b ∈ w.store.globalSlots := by
  unfold globalValue at hb
  cases hg : w.store.globals[addr]? with
  | none =>
      rw [hg] at hb
      cases hb
  | some g =>
      rw [hg] at hb
      refine mem_foreigns.mpr ⟨g.value, List.mem_map_of_mem ?_, hb⟩
      exact List.mem_of_getElem? (by simpa using hg)

theorem mem_tableSlots {addr index : Nat} {v : StoreVal} {b : BoxId}
    (hv : (w.table addr).elems[index]? = some v) (hb : v.foreign? = some b) :
    b ∈ w.store.tableSlots := by
  unfold table at hv
  cases ht : w.store.tables[addr]? with
  | none => simp [ht] at hv
  | some t =>
      simp only [ht, Option.getD_some] at hv
      have hmem : b ∈ foreigns t.elems.toList :=
        mem_foreigns.mpr ⟨v, List.mem_of_getElem? (by simpa using hv), hb⟩
      exact mem_sum_map (List.mem_of_getElem? (by simpa using ht)) hmem

/-- What a global holds is kept. -/
theorem kept_of_global {addr : Nat} (b : BoxId) (hb : b ∈ foreigns [w.globalValue addr]) :
    w.Kept H S b := by
  obtain ⟨v, hv, hb⟩ := mem_foreigns.mp hb
  rw [List.mem_singleton.mp hv] at hb
  exact .inl (by simp [Store.slots, mem_globalSlots hb])

/-- What an element of a table holds is kept. -/
theorem kept_of_elem {addr index : Nat} {v : StoreVal}
    (hv : (w.table addr).elems[index]? = some v) (b : BoxId) (hb : b ∈ foreigns [v]) :
    w.Kept H S b := by
  obtain ⟨u, hu, hb⟩ := mem_foreigns.mp hb
  rw [List.mem_singleton.mp hu] at hb
  exact .inl (by simp [Store.slots, mem_tableSlots hv hb])

theorem slots_mapElems_set {addr index : Nat} {w : World} {old : StoreVal}
    (hold : (w.table addr).elems[index]? = some old) (v : StoreVal) :
    (w.mapElems addr (·.setIfInBounds index v)).store.slots + foreigns [old] =
      w.store.slots + foreigns [v] := by
  simp only [mapElems, mapStore]
  unfold table at hold
  cases ht : w.store.tables[addr]? with
  | none => simp [ht] at hold
  | some t =>
      rw [ht, Option.getD_some] at hold
      have helems := Store.slots_modifyTable ht (·.setIfInBounds index v)
      have hsum := sum_map_modify (fun v : StoreVal => foreigns [v]) (fun _ => v)
        (by simpa using hold : t.elems.toList[index]? = some old)
      rw [← List.set_eq_modify, ← foreigns_eq_sum, ← foreigns_eq_sum,
        ← Array.toList_setIfInBounds] at hsum
      rw [← add_left_inj (foreigns t.elems.toList), add_right_comm, helems, add_assoc, hsum,
        add_assoc, add_comm (foreigns [v])]

theorem slots_mapElems_set_le (addr index : Nat) (v : StoreVal) (w : World) :
    (w.mapElems addr (·.setIfInBounds index v)).store.slots +
        foreigns [((w.table addr).elems[index]?).getD default] ≤
      w.store.slots + foreigns [v] := by
  cases hold : (w.table addr).elems[index]? with
  | some old => exact le_of_eq (slots_mapElems_set hold v)
  | none =>
      have hsame : (w.mapElems addr (·.setIfInBounds index v)).store.slots = w.store.slots := by
        simp only [mapElems, mapStore]
        unfold table at hold
        cases ht : w.store.tables[addr]? with
        | none => rw [modify_of_none ht]
        | some t =>
            rw [ht, Option.getD_some] at hold
            have helems := Store.slots_modifyTable ht (·.setIfInBounds index v)
            rwa [Array.setIfInBounds_eq_of_size_le (Array.getElem?_eq_none_iff.mp hold),
              add_left_inj] at helems
      rw [hsame]
      exact add_le_add_right (Multiset.zero_le _) _

theorem slots_mapElems_append {addr : Nat} {t : Table} {w : World}
    (ht : w.store.tables[addr]? = some t) (more : Array StoreVal) :
    (w.mapElems addr (· ++ more)).store.slots = w.store.slots + foreigns more.toList := by
  have helems := Store.slots_modifyTable ht (· ++ more)
  rw [Array.toList_append, foreigns_append, add_comm (foreigns t.elems.toList), ← add_assoc,
    add_left_inj] at helems
  exact helems

theorem slots_mapElems_append_le (addr : Nat) (more : Array StoreVal) (w : World) :
    (w.mapElems addr (· ++ more)).store.slots ≤ w.store.slots + foreigns more.toList := by
  cases ht : w.store.tables[addr]? with
  | none =>
      simp only [mapElems, mapStore]
      rw [modify_of_none ht]
      exact Multiset.le_add_right _ _
  | some t => exact le_of_eq (slots_mapElems_append ht more)

/-! ## Frames -/

theorem globalValue_holdVal (addr : Nat) (v : StoreVal) (w : World) :
    (w.holdVal v).globalValue addr = w.globalValue addr := by
  obtain ⟨boxes, h⟩ := store_holdVal v w
  simp only [globalValue, h]

theorem table_holdVal (addr : Nat) (v : StoreVal) (w : World) :
    (w.holdVal v).table addr = w.table addr := by
  obtain ⟨boxes, h⟩ := store_holdVal v w
  simp only [table, h]

theorem store_putElem (addr index : Nat) (v : StoreVal) (w : World) :
    ∃ boxes, (w.putElem addr index v).store =
      { (w.mapElems addr (·.setIfInBounds index v)).store with boxes } := by
  obtain ⟨boxes, hheld⟩ := store_holdVal v w
  obtain ⟨boxes', hput⟩ := store_unholdVal (((w.table addr).elems[index]?).getD default)
    ((w.holdVal v).mapElems addr (·.setIfInBounds index v))
  refine ⟨boxes', hput.trans ?_⟩
  simp only [mapElems, mapStore, hheld]

@[simp] theorem globalSlots_putElem (addr index : Nat) (v : StoreVal) (w : World) :
    (w.putElem addr index v).store.globalSlots = w.store.globalSlots := by
  obtain ⟨boxes, h⟩ := store_putElem addr index v w
  rw [h]
  rfl

/-- No other element changes. -/
theorem elem_putElem_of_ne {addr index src i : Nat} (h : src ≠ addr ∨ i ≠ index) (v : StoreVal)
    (w : World) :
    ((w.putElem addr index v).table src).elems[i]? = (w.table src).elems[i]? := by
  obtain ⟨boxes, hstore⟩ := store_putElem addr index v w
  simp only [table, hstore, mapElems, mapStore, Array.getElem?_modify]
  by_cases haddr : addr = src
  · subst haddr
    cases w.store.tables[addr]? with
    | none => simp
    | some t => simp [Ne.symm (h.resolve_left (· rfl))]
  · rw [if_neg haddr]

theorem elem_putElemsBack_of_lt {addr src index i : Nat} (h : i < index) (vs : List StoreVal)
    (w : World) :
    ((w.putElemsBack addr index vs).table src).elems[i]? = (w.table src).elems[i]? := by
  induction vs generalizing index with
  | nil => rfl
  | cons v vs ih =>
      exact (elem_putElem_of_ne (.inr (Nat.ne_of_lt h)) v _).trans (ih (Nat.lt_succ_of_lt h))

/-! ## Operations on globals and tables -/

namespace Sound

variable {v : StoreVal}

theorem putGlobal (h : w.Sound h₀ O H S) (addr : Nat) (hv : ∀ b ∈ foreigns [v], w.Kept H S b) :
    (w.putGlobal addr v).Sound h₀ O H S := by
  have hset := Store.slots_setGlobal_le addr v (w.holdVal v).store
  have hold := globalValue_holdVal addr v w
  unfold globalValue at hold
  rw [hold, slots_holdVal] at hset
  refine unholdVal ((h.holdVal hv).of_le rfl rfl ?_)
  rw [slots_holdVal, ← add_assoc, ← add_assoc]
  exact add_le_add_left hset H

theorem holdReplicate (h : w.Sound h₀ O H S) (n : Nat) (hv : ∀ b ∈ foreigns [v], w.Kept H S b) :
    (w.holdAll (Array.replicate n v).toList).Sound h₀ O
      (foreigns (Array.replicate n v).toList + H) S := by
  refine h.holdAll fun b hb => ?_
  obtain ⟨u, hu, hb⟩ := mem_foreigns.mp hb
  rw [Array.toList_replicate] at hu
  exact hv b (mem_foreigns.mpr ⟨v, List.mem_singleton_self v, List.eq_of_mem_replicate hu ▸ hb⟩)

theorem pushTable (h : w.Sound h₀ O H S) (type : TableType) (limit : Nat)
    (hv : ∀ b ∈ foreigns [v], w.Kept H S b) :
    (w.pushTable type limit v).2.Sound h₀ O H S := by
  refine (h.holdReplicate type.limits.min hv).of_le rfl rfl ?_
  exact le_of_eq ((congrArg (· + H) (Store.slots_pushTable _ _)).trans (by ac_rfl))

theorem setElem (h : w.Sound h₀ O (foreigns [v] + H) S) (addr index : Nat) :
    (w.mapElems addr (·.setIfInBounds index v)).Sound h₀ O
      (foreigns [((w.table addr).elems[index]?).getD default] + H) S := by
  refine h.of_le rfl rfl ?_
  rw [← add_assoc, ← add_assoc]
  exact add_le_add_left (slots_mapElems_set_le addr index v w) H

theorem putElem (h : w.Sound h₀ O H S) (addr index : Nat)
    (hv : ∀ b ∈ foreigns [v], w.Kept H S b) : (w.putElem addr index v).Sound h₀ O H S := by
  have hset := (h.holdVal hv).setElem addr index
  rw [table_holdVal] at hset
  exact hset.unholdVal

theorem putElems {vs : List StoreVal} (h : w.Sound h₀ O H S) (addr index : Nat)
    (hvs : ∀ b ∈ foreigns vs, b ∈ w.store.globalSlots + H ∨ b ∈ S) :
    (w.putElems addr index vs).Sound h₀ O H S := by
  induction vs generalizing index w with
  | nil => exact h
  | cons v vs ih =>
      rw [foreigns_cons] at hvs
      have hput := h.putElem addr index (v := v) fun b hb => by
        refine (hvs b (Multiset.mem_add.mpr (.inl hb))).imp (fun hb => ?_) id
        simp only [Store.slots, Multiset.mem_add] at hb ⊢
        tauto
      exact ih hput (index + 1) fun b hb => by simpa using hvs b (Multiset.mem_add.mpr (.inr hb))

theorem putElemsForward {vs : List StoreVal} (h : w.Sound h₀ O H S) {addr src source index : Nat}
    (hle : index ≤ source) (hvs : ∀ k v, vs[k]? = some v →
      (w.table src).elems[source + k]? = some v) : (w.putElems addr index vs).Sound h₀ O H S := by
  induction vs generalizing index source w with
  | nil => exact h
  | cons v vs ih =>
      refine ih (h.putElem addr index (kept_of_elem (hvs 0 v rfl))) (Nat.succ_le_succ hle)
        fun k u hu => ?_
      rw [elem_putElem_of_ne (.inr (by omega)), ← hvs (k + 1) u hu, Nat.succ_add_eq_add_succ]

theorem putElemsBack {vs : List StoreVal} (h : w.Sound h₀ O H S) {addr src source index : Nat}
    (hlt : source < index) (hvs : ∀ k v, vs[k]? = some v →
      (w.table src).elems[source + k]? = some v) :
    (w.putElemsBack addr index vs).Sound h₀ O H S := by
  induction vs generalizing index source with
  | nil => exact h
  | cons v vs ih =>
      have hrest := ih (Nat.succ_lt_succ hlt) fun k u hu => by
        rw [← hvs (k + 1) u hu, Nat.succ_add_eq_add_succ]
      have hsource :
          ((w.putElemsBack addr (index + 1) vs).table src).elems[source]? = some v := by
        rw [elem_putElemsBack_of_lt (Nat.lt_succ_of_lt hlt)]
        exact hvs 0 v rfl
      exact hrest.putElem addr index (kept_of_elem hsource)

/-- Values that are copied are still in their old place when they are put in the new one. -/
theorem copyElems (h : w.Sound h₀ O H S) (addr src source index n : Nat) :
    (w.copyElems addr source index
      (((w.table src).elems.toList.drop source).take n)).Sound h₀ O H S := by
  have hvs : ∀ k v, (((w.table src).elems.toList.drop source).take n)[k]? = some v →
      (w.table src).elems[source + k]? = some v := by
    intro k v hk
    rw [List.getElem?_take] at hk
    split at hk
    · simpa using hk
    · cases hk
  unfold World.copyElems
  split
  · exact h.putElemsForward ‹_› hvs
  · exact h.putElemsBack (Nat.lt_of_not_le ‹_›) hvs

theorem growElems (h : w.Sound h₀ O H S) (addr delta : Nat)
    (hv : ∀ b ∈ foreigns [v], w.Kept H S b) : (w.growElems addr delta v).2.Sound h₀ O H S := by
  have hheld : (w.holdVal v).Sound h₀ O H S := (h.holdVal hv).weaken (Multiset.le_add_left _ _)
  simp only [World.growElems]
  split
  · exact hheld
  · split
    · refine (h.holdReplicate delta hv).of_le rfl rfl ?_
      rw [← add_assoc]
      exact add_le_add_left (slots_mapElems_append_le addr _ _) H
    · exact hheld

end Sound

/-! ## What the embedder does -/

namespace Sound

variable {w' : World} {v : HostVal}

theorem newGlobal {type : GlobalType} {addr : Nat} (h : w.Sound h₀ O H S)
    (hv : ∀ r ∈ foreigns [v], r ∈ O) (hnew : w.newGlobal type v = .ok (addr, w')) :
    w'.Sound h₀ O H S := by
  simp only [World.newGlobal] at hnew
  split at hnew <;> cases hnew
  refine (h.accept hv).of_le rfl rfl (le_of_eq ?_)
  exact (congrArg (· + H) (Store.slots_pushGlobal _ _)).trans (by ac_rfl)

theorem setGlobal {addr : Nat} (h : w.Sound h₀ O H S) (hv : ∀ r ∈ foreigns [v], r ∈ O)
    (hset : w.setGlobal addr v = .ok w') : w'.Sound h₀ O H S := by
  simp only [World.setGlobal] at hset
  split at hset
  · cases hset
  · split at hset <;> cases hset
    exact ((h.accept hv).putGlobal addr kept_of_held).unholdVal

theorem newTable {type : TableType} {addr : Nat} (h : w.Sound h₀ O H S)
    (hv : ∀ r ∈ foreigns [v], r ∈ O) (hnew : w.newTable type v = .ok (addr, w')) :
    w'.Sound h₀ O H S := by
  simp only [World.newTable] at hnew
  split at hnew
  · cases hnew
  · split at hnew <;> cases hnew
    exact ((h.accept hv).pushTable _ _ kept_of_held).unholdVal

theorem getTable (h : w.Sound h₀ O H S) (addr index : Nat) :
    (w.getTable addr index).2.Sound h₀
      (foreigns ((w.getTable addr index).1.toList) + O) H S := by
  unfold World.getTable
  split
  · exact h.reveal (kept_of_elem ‹_›)
  · simpa using h

theorem setTable {addr index : Nat} (h : w.Sound h₀ O H S) (hv : ∀ r ∈ foreigns [v], r ∈ O)
    (hset : w.setTable addr index v = .ok w') : w'.Sound h₀ O H S := by
  simp only [World.setTable] at hset
  split at hset
  · cases hset
  · split at hset <;> cases hset
    exact ((h.accept hv).setElem addr index).weaken (Multiset.le_add_left _ _)

theorem growTable (h : w.Sound h₀ O H S) (addr delta : Nat) (hv : ∀ r ∈ foreigns [v], r ∈ O) :
    (w.growTable addr delta v).2.Sound h₀ O H S := by
  simp only [World.growTable]
  split
  · exact h
  · have haccepted := h.accept hv
    have hgrown := (haccepted.growElems addr delta kept_of_held).unholdVal
    split <;> exact hgrown

theorem growMemory {addr delta old : Nat} (h : w.Sound h₀ O H S)
    (hgrow : w.growMemory addr delta = .ok (old, w')) : w'.Sound h₀ O H S := by
  simp only [World.growMemory, growPages] at hgrow
  split at hgrow <;> cases hgrow
  rename_i hgrown
  split at hgrown <;> cases hgrown
  exact h.of_le rfl rfl le_rfl

theorem writeMemory {addr offset : Nat} {bytes : List UInt8} (h : w.Sound h₀ O H S)
    (hwrite : w.writeMemory addr offset bytes = some w') : w'.Sound h₀ O H S := by
  simp only [World.writeMemory] at hwrite
  split at hwrite <;> cases hwrite
  exact h.of_le rfl rfl le_rfl

theorem addFuel {n : Nat} (h : w.Sound h₀ O H S) (hadd : w.addFuel n = .ok w') :
    w'.Sound h₀ O H S := by
  obtain ⟨-, rfl⟩ := addFuel_eq_ok hadd
  exact h.of_le rfl rfl le_rfl

end Sound

/-! ## Instances -/

theorem foreigns_apply {op : Wasm.NumOp} {stack stack' : List StoreVal}
    (h : op.apply stack = .ok stack') {b : BoxId} (hb : b ∈ foreigns stack') :
    b ∈ foreigns stack := by
  have hbits {e : Except TrapCode Nat} {t : ValType} {rest : List StoreVal}
      (h : (e.map fun n => Val.ofBits t n :: rest) = .ok stack') : b ∈ foreigns rest := by
    cases e with
    | error c => cases h
    | ok n =>
        cases h
        rwa [foreigns_cons, foreigns_of_none (foreign?_ofBits t n), zero_add] at hb
  unfold Wasm.NumOp.apply at h
  dsimp only at h
  split at h
  · exact foreigns_mono (by simp) (hbits h)
  · exact foreigns_mono (by simp) (hbits h)
  · cases h
    exact hb

/-- The values of constant expressions are those of globals. -/
theorem foreigns_constantStack {funcs : Array FuncAddr} {globals : Array Nat} {e : List Wasm.Op}
    {stack : List StoreVal} (hstack : ∀ b ∈ foreigns stack, b ∈ w.store.globalSlots) :
    ∀ b ∈ foreigns (w.constantStack funcs globals stack e), b ∈ w.store.globalSlots := by
  induction e generalizing stack with
  | nil => exact hstack
  | cons op e ih =>
      have hplain {v : StoreVal} (hv : v.foreign? = none) :
          ∀ b ∈ foreigns (v :: stack), b ∈ w.store.globalSlots := by
        rwa [foreigns_cons, foreigns_of_none hv, zero_add]
      refine ih ?_
      cases op with
      | i32Const | i64Const | f32Const | f64Const | refFunc => exact hplain rfl
      | refNull t => exact hplain (foreign?_default t)
      | globalGet i =>
          intro b hb
          rw [foreigns_cons, Multiset.mem_add] at hb
          refine hb.elim (fun hb => ?_) (hstack b)
          obtain ⟨v, hv, hb⟩ := mem_foreigns.mp hb
          rw [List.mem_singleton.mp hv] at hb
          exact mem_globalSlots hb
      | numeric op =>
          dsimp only
          cases happly : op.apply stack with
          | error c => exact hstack
          | ok stack' => exact fun b hb => hstack b (foreigns_apply happly hb)
      | _ => exact hstack

theorem foreigns_constant (w : World) (funcs : Array FuncAddr) (globals : Array Nat)
    (e : List Wasm.Op) : ∀ b ∈ foreigns [w.constant funcs globals e], b ∈ w.store.globalSlots := by
  intro b hb
  have hstack : ∀ b ∈ foreigns (w.constantStack funcs globals [] e), b ∈ w.store.globalSlots :=
    foreigns_constantStack (by simp)
  replace hstack := hstack b
  unfold constant at hb
  cases hs : w.constantStack funcs globals [] e with
  | nil =>
      have hzero : (Inhabited.default : StoreVal).foreign? = none := rfl
      rw [hs, List.headD_nil, foreigns_of_none hzero] at hb
      cases hb
  | cons v vs =>
      rw [hs] at hb hstack
      rw [foreigns_cons] at hstack
      exact hstack (Multiset.mem_add.mpr (.inl hb))

theorem foreigns_elemValues (w : World) (i : Instance) (items : Wasm.ElemItems) :
    ∀ b ∈ foreigns (w.elemValues i items), b ∈ w.store.globalSlots := by
  intro b hb
  obtain ⟨v, hv, hb⟩ := mem_foreigns.mp hb
  cases items with
  | funcs fs =>
      obtain ⟨f, -, rfl⟩ := List.mem_map.mp hv
      cases hb
  | exprs t es =>
      obtain ⟨e, -, rfl⟩ := List.mem_map.mp hv
      exact foreigns_constant w i.funcs i.globals e b
        (mem_foreigns.mpr ⟨_, List.mem_singleton_self _, hb⟩)

namespace Sound

theorem pushGlobals (h : w.Sound h₀ O H S) (funcs : Array FuncAddr) (globals : Array Nat)
    (gs : List Wasm.Global) : (w.pushGlobals funcs globals gs).2.Sound h₀ O H S := by
  induction gs generalizing globals w with
  | nil => exact h
  | cons g gs ih =>
      have hheld := h.holdVal (v := w.constant funcs globals g.init) fun b hb =>
        .inl (by simp [Store.slots, foreigns_constant w funcs globals g.init b hb])
      have hpushed : ((w.holdVal (w.constant funcs globals g.init)).mapStore fun s => { s with
          globals := s.globals.push ⟨g.type, w.constant funcs globals g.init⟩ }).Sound
            h₀ O H S := by
        refine hheld.of_le rfl rfl (le_of_eq ?_)
        exact (congrArg (· + H) (Store.slots_pushGlobal _ _)).trans (by ac_rfl)
      exact ih hpushed _

theorem pushTables (h : w.Sound h₀ O H S) (slot : Option Nat) (tables : Array Nat)
    (ts : List TableType) : (w.pushTables slot tables ts).2.Sound h₀ O H S := by
  induction ts generalizing tables w with
  | nil => exact h
  | cons t ts ih =>
      refine ih (h.pushTable t _ fun b hb => ?_) _
      rw [foreigns_of_none (foreign?_default _)] at hb
      cases hb

theorem pushMemories (h : w.Sound h₀ O H S) (slot : Option Nat) (memories : Array Nat)
    (ts : List MemoryType) : (w.pushMemories slot memories ts).2.Sound h₀ O H S := by
  induction ts generalizing memories w with
  | nil => exact h
  | cons t ts ih =>
      have hpushed (pages limit : Nat) : (w.pushMemory pages limit).2.Sound h₀ O H S :=
        h.of_le rfl rfl le_rfl
      exact ih (hpushed _ _) _

theorem allocate (h : w.Sound h₀ O H S) (m : CompiledModule) (imports : List Item) :
    (w.allocate m imports).2.Sound h₀ O H S := by
  have hfuncs (fs : Array Func) : (w.mapStore fun s => { s with funcs := fs }).Sound h₀ O H S :=
    h.of_le rfl rfl le_rfl
  unfold World.allocate
  exact Sound.of_le ((((hfuncs _).pushGlobals _ _ _).pushTables _ _ _).pushMemories _ _ _)
    rfl rfl le_rfl

theorem fillTables (h : w.Sound h₀ O H S) (i : Instance) (es : List Wasm.Elem) :
    (w.fillTables i es).2.Sound h₀ O H S := by
  induction es generalizing w with
  | nil => exact h
  | cons e es ih =>
      unfold World.fillTables
      split
      · exact ih h
      · rename_i table place values hactive
        split
        · refine ih (h.putElems table place fun b hb => .inl (Multiset.mem_add.mpr (.inl ?_)))
          simp only [activeElem?] at hactive
          split at hactive <;> cases hactive
          exact foreigns_elemValues w i _ b hb
        · exact h

theorem fillMemories (h : w.Sound h₀ O H S) (i : Instance) (ds : List Wasm.Data) :
    (w.fillMemories i ds).2.Sound h₀ O H S := by
  induction ds generalizing w with
  | nil => exact h
  | cons d ds ih =>
      unfold World.fillMemories
      split
      · exact ih h
      · split
        · exact ih (h.of_le rfl rfl le_rfl)
        · exact h

theorem fill (h : w.Sound h₀ O H S) (addr : InstanceAddr) : (w.fill addr).2.Sound h₀ O H S := by
  unfold World.fill
  split
  · exact h
  · rename_i i _
    split
    · exact h
    · have htables := h.fillTables i i.module.module.elems
      split
      · rename_i w' hfilled
        rw [hfilled] at htables
        exact htables.fillMemories i _
      · exact htables

theorem instantiate (h : w.Sound h₀ O H S) (m : CompiledModule) (imports : List Item) :
    (w.instantiate m imports).2.Sound h₀ O H S := by
  have hmade := (h.allocate m imports).fill (w.allocate m imports).1
  unfold World.instantiate
  split
  · exact h
  · dsimp only
    split <;> rename_i hfilled <;> rw [hfilled] at hmade <;> exact hmade

end Sound

end World

end WasmHost

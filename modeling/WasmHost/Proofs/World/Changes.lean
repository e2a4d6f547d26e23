import WasmHost.Machine.Code
import WasmHost.Proofs.World.Untouched

/-!
# What is done to a world

All operations on a world come down to a few changes: a box changes, but not its reference; an
object is written to, or is new; or something changes that is no part of an object. `World.Change`
has a case for each of them, and tells which objects are written to. Whatever runs on a world leads
to it by `World.Changes`, so a relation that has room for each change has room for all that runs.
-/

namespace WasmHost

/-- A global, a table or a memory of a store, by its number. -/
inductive Object where
  | global (addr : Nat)
  | table (addr : Nat)
  | memory (addr : Nat)
deriving DecidableEq

/-- The object of a kind with a number. -/
def Object.of? : ItemKind → Nat → Option Object
  | .func, _ => none
  | .global, a => some (.global a)
  | .table, a => some (.table a)
  | .memory, a => some (.memory a)

namespace World

/-- One change to a world, which writes to no object outside a set. -/
inductive Change (T : Object → Prop) (w : World) : World → Prop
  | box {f : Box → Box} (ref : ∀ x, (f x).ref = x.ref) (b : BoxId) : Change T w (w.updateBox f b)
  | putIn (r : RefId) : Change T w (w.putIn r).2
  /-- Fuel, the deadline, and what stores share. -/
  | aside {w' : World} (objects : w'.objects = w.objects) (boxes : w'.store.boxes = w.store.boxes)
      (wasi : w'.store.wasi = w.store.wasi) : Change T w w'
  /-- A function of the system interface works on a guest that has the context of the store. -/
  | guest (f : Wasi.Func) (args : List Nat) {g : Wasi.Guest} (context : g.context = w.store.wasi) :
      Change T w (w.mapStore ({ · with wasi := (f.run args g).2.context }))
  | global {addr : Nat} (free : T (.global addr)) (v : StoreVal) :
      Change T w (w.mapStore fun s =>
        { s with globals := s.globals.modify addr ({ · with value := v }) })
  | elems {addr : Nat} {f : Array StoreVal → Array StoreVal} (free : T (.table addr))
      (grows : ∀ vs, vs.size ≤ (f vs).size) : Change T w (w.mapElems addr f)
  | memory {addr : Nat} {f : Memory → Memory} (free : T (.memory addr))
      (evolves : (w.memory addr).Evolves (f (w.memory addr))) : Change T w (w.mapMemory addr f)
  | segment (owner : InstanceAddr) {f : Instance → Instance}
      (becomes : ∀ i : Instance, i.Becomes (f i)) : Change T w (dropSegment owner f w)
  | newFunc (f : Func) : Change T w (w.mapStore fun s => { s with funcs := s.funcs.push f })
  | newGlobal (g : Global) : Change T w (w.mapStore fun s => { s with globals := s.globals.push g })
  | newTable (t : Table) : Change T w (w.mapStore fun s => { s with tables := s.tables.push t })
  | allocate (m : CompiledModule) (imports : List Item) : Change T w (w.allocate m imports).2

/-- Any number of changes that write to no object outside a set. -/
abbrev Changes (T : Object → Prop) : World → World → Prop := Relation.ReflTransGen (Change T)

/-- Any number of changes. -/
abbrev Alters : World → World → Prop := Changes fun _ => True

variable {T : Object → Prop} {w w' : World} {addr : Nat}

theorem changes_foldl {α : Type} {f : World → α → World} (h : ∀ (w : World) a, w.Changes T (f w a))
    (as : List α) (w : World) : w.Changes T (as.foldl f w) := by
  induction as generalizing w with
  | nil => exact .refl
  | cons a as ih => exact (h w a).trans (ih _)

/-! ## Boxes, and values at the border -/

theorem changes_aside (objects : w'.objects = w.objects) (boxes : w'.store.boxes = w.store.boxes)
    (wasi : w'.store.wasi = w.store.wasi) : w.Changes T w' := .single (.aside objects boxes wasi)

theorem changes_box {f : Box → Box} (ref : ∀ x, (f x).ref = x.ref) (v : StoreVal) (w : World) :
    w.Changes T ((boxOf v).elim w (w.updateBox f ·)) := by
  cases boxOf v with
  | none => exact .refl
  | some b => exact .single (.box ref b)

theorem changes_holdVal (v : StoreVal) (w : World) : w.Changes T (w.holdVal v) :=
  changes_box (by intro; rfl) v w

theorem changes_unholdVal (v : StoreVal) (w : World) : w.Changes T (w.unholdVal v) :=
  changes_box (by intro; rfl) v w

theorem changes_exposeVal (v : StoreVal) (w : World) : w.Changes T (w.exposeVal v) :=
  changes_box (by intro; rfl) v w

theorem changes_holdAll (vs : List StoreVal) (w : World) : w.Changes T (w.holdAll vs) :=
  changes_foldl (fun w v => changes_holdVal v w) vs w

theorem changes_unholdAll (vs : List StoreVal) (w : World) : w.Changes T (w.unholdAll vs) :=
  changes_foldl (fun w v => changes_unholdVal v w) vs w

theorem changes_exposeAll (vs : List StoreVal) (w : World) : w.Changes T (w.exposeAll vs) :=
  changes_foldl (fun w v => changes_exposeVal v w) vs w

theorem changes_collect (live : List BoxId) (w : World) : w.Changes T (w.collect live) := by
  refine changes_foldl (fun w b => ?_) _ w
  split
  · exact .refl
  · exact .single (.box (by intro; rfl) b)

theorem changes_accept (v : HostVal) (w : World) : w.Changes T (w.accept v).2 := by
  unfold accept
  split
  · exact .single (.putIn _)
  all_goals exact .refl

theorem changes_acceptAll (vs : List HostVal) (w : World) : w.Changes T (w.acceptAll vs).2 := by
  induction vs generalizing w with
  | nil => exact .refl
  | cons v vs ih => exact (changes_accept v w).trans (ih _)

theorem changes_reveal (v : StoreVal) (w : World) : w.Changes T (w.reveal v).2 := by
  simp only [reveal]
  cases (w.view v).foreign? <;> exact changes_aside rfl rfl rfl

theorem changes_revealAll (vs : List StoreVal) (w : World) : w.Changes T (w.revealAll vs).2 := by
  induction vs generalizing w with
  | nil => exact .refl
  | cons v vs ih => exact (changes_reveal v w).trans (ih _)

theorem changes_discard (v : HostVal) (w : World) : w.Changes T (w.discard v) := by
  unfold discard
  cases v.foreign? <;> exact changes_aside rfl rfl rfl

theorem changes_discardAll (vs : List HostVal) (w : World) : w.Changes T (w.discardAll vs) :=
  changes_foldl (fun w v => changes_discard v w) vs w

/-- Values that are passed by an embedder are taken into the store. -/
theorem changes_taken (args : List HostVal) (w : World) :
    w.Changes T ((w.acceptAll args).2.exposeAll (w.acceptAll args).1) :=
  (changes_acceptAll args w).trans (changes_exposeAll _ _)

/-! ## Globals, tables and memories -/

theorem changes_putGlobal (free : T (.global addr)) (v : StoreVal) (w : World) :
    w.Changes T (w.putGlobal addr v) :=
  ((changes_holdVal v w).tail (.global free v)).trans (changes_unholdVal (w.globalValue addr) _)

theorem changes_pushTable (type : TableType) (limit : Nat) (v : StoreVal) (w : World) :
    w.Changes T (w.pushTable type limit v).2 :=
  (changes_holdAll (Array.replicate type.limits.min v).toList w).tail (.newTable _)

theorem changes_putElem (free : T (.table addr)) (index : Nat) (v : StoreVal) (w : World) :
    w.Changes T (w.putElem addr index v) :=
  ((changes_holdVal v w).tail (.elems free (by simp))).trans (changes_unholdVal _ _)

theorem changes_putElems (free : T (.table addr)) (index : Nat) (vs : List StoreVal) (w : World) :
    w.Changes T (w.putElems addr index vs) := by
  induction vs generalizing index w with
  | nil => exact .refl
  | cons v vs ih => exact (changes_putElem free index v w).trans (ih _ _)

theorem changes_putElemsBack (free : T (.table addr)) (index : Nat) (vs : List StoreVal)
    (w : World) : w.Changes T (w.putElemsBack addr index vs) := by
  induction vs generalizing index w with
  | nil => exact .refl
  | cons v vs ih => exact (ih (index + 1) w).trans (changes_putElem free index v _)

theorem changes_copyElems (free : T (.table addr)) (source index : Nat) (vs : List StoreVal)
    (w : World) : w.Changes T (w.copyElems addr source index vs) := by
  unfold copyElems
  split
  · exact changes_putElems free index vs w
  · exact changes_putElemsBack free index vs w

theorem changes_growElems (free : T (.table addr)) (delta : Nat) (v : StoreVal) (w : World) :
    w.Changes T (w.growElems addr delta v).2 := by
  simp only [growElems]
  split
  · exact changes_holdVal v w
  · split
    · exact (changes_holdAll (Array.replicate delta v).toList w).tail
        (.elems (f := (· ++ Array.replicate delta v)) free (by simp))
    · exact changes_holdVal v w

theorem changes_putBytes (free : T (.memory addr)) {offset : Nat} {bytes : List UInt8}
    (fits : (w.memory addr).fits offset bytes.length) :
    w.Changes T (w.mapMemory addr (·.put offset bytes)) :=
  .single (.memory free (.single (.put fits)))

theorem changes_growPages (free : T (.memory addr)) {delta old : Nat}
    (h : w.growPages addr delta = some (old, w')) : w.Changes T w' := by
  simp only [growPages] at h
  split at h <;> cases h
  exact .single (.memory free (.single (.grow ‹_›)))

/-! ## What an embedder does -/

theorem changes_newFunc (type : FuncType) (body : FuncBody) (w : World) :
    w.Changes T (w.newFunc type body).2 := .single (.newFunc _)

theorem changes_pushHostFunc (type : FuncType) (ops : List HostOp) (id : ClosureId) (w : World) :
    w.Changes T (w.pushHostFunc type ops id).2 := by
  have hnoted : w.Changes T (w.mapStore fun s => { s with closures := id :: s.closures }) :=
    changes_aside rfl rfl rfl
  exact hnoted.trans (changes_newFunc type (.host ops) _)

theorem changes_newHostFunc (type : FuncType) (ops : List HostOp) (w : World) :
    w.Changes T (w.newHostFunc type ops).2 := by
  have hnew : w.Changes T { w with shared := (w.shared.newClosure ops).2 } :=
    changes_aside rfl rfl rfl
  exact hnew.trans (changes_pushHostFunc type ops _ _)

theorem changes_shareHostFunc (type : FuncType) (ops : List HostOp) (id : ClosureId) (w : World) :
    w.Changes T (w.shareHostFunc type ops id).2 := by
  have hused : w.Changes T (w.mapShared (·.useClosure id)) := changes_aside rfl rfl rfl
  exact hused.trans (changes_pushHostFunc type ops id _)

theorem changes_newGlobal {type : GlobalType} {init : HostVal}
    (h : w.newGlobal type init = .ok (addr, w')) : w.Changes T w' := by
  simp only [World.newGlobal] at h
  split at h <;> cases h
  exact (changes_accept init w).tail (.newGlobal _)

theorem changes_setGlobal (free : T (.global addr)) {v : HostVal}
    (h : w.setGlobal addr v = .ok w') : w.Changes T w' := by
  simp only [setGlobal] at h
  split at h
  · cases h
  · split at h <;> cases h
    exact ((changes_accept v w).trans (changes_putGlobal free _ _)).trans (changes_unholdVal _ _)

theorem changes_newTable {type : TableType} {init : HostVal}
    (h : w.newTable type init = .ok (addr, w')) : w.Changes T w' := by
  simp only [World.newTable] at h
  split at h
  · cases h
  · split at h <;> cases h
    exact ((changes_accept init w).trans (changes_pushTable _ _ _ _)).trans
      (changes_unholdVal _ _)

theorem changes_getTable (addr index : Nat) (w : World) :
    w.Changes T (w.getTable addr index).2 := by
  unfold getTable
  split
  · exact changes_reveal _ w
  · exact .refl

theorem changes_setTable (free : T (.table addr)) {index : Nat} {v : HostVal}
    (h : w.setTable addr index v = .ok w') : w.Changes T w' := by
  simp only [setTable] at h
  split at h
  · cases h
  · split at h <;> cases h
    exact (changes_accept v w).tail (.elems free (by simp))

theorem changes_growTable (free : T (.table addr)) (delta : Nat) (v : HostVal) (w : World) :
    w.Changes T (w.growTable addr delta v).2 := by
  have hgrown := ((changes_accept v w).trans
    (changes_growElems free delta (w.accept v).1 _)).trans (changes_unholdVal (w.accept v).1 _)
  simp only [growTable]
  split
  · exact .refl
  · split <;> exact hgrown

theorem changes_growMemory (free : T (.memory addr)) {delta old : Nat}
    (h : w.growMemory addr delta = .ok (old, w')) : w.Changes T w' := by
  simp only [growMemory] at h
  split at h <;> cases h
  exact changes_growPages free ‹_›

theorem changes_writeMemory (free : T (.memory addr)) {offset : Nat} {bytes : List UInt8}
    (h : w.writeMemory addr offset bytes = some w') : w.Changes T w' := by
  simp only [writeMemory] at h
  split at h <;> cases h
  exact changes_putBytes free ‹_›

theorem changes_addFuel {n : Nat} (h : w.addFuel n = .ok w') : w.Changes T w' := by
  simp only [addFuel] at h
  split at h <;> cases h
  exact changes_aside rfl rfl rfl

end World

/-! ## Instances -/

/-- The table that an active segment of elements goes into. -/
def Wasm.Elem.table? (e : Elem) : Option Nat :=
  match e.mode with
  | .active table _ => some (table.getD 0)
  | .passive | .declared => none

/-- The tables and memories that the active segments of a module go into. -/
def Wasm.Module.filled (m : Module) : List (ItemKind × Nat) :=
  (m.elems.filterMap fun e => e.table?.map fun k => (.table, k)) ++
    m.datas.filterMap fun d => d.place.map fun p => (.memory, p.1)

namespace World

variable {T : Object → Prop} {w w' : World} {i : Instance} {addr : InstanceAddr}

theorem changes_fillTables {es : List Wasm.Elem}
    (free : ∀ e ∈ es, ∀ k ∈ e.table?, T (.table (i.tables.getD k 0))) (w : World) :
    w.Changes T (w.fillTables i es).2 := by
  induction es generalizing w with
  | nil => exact .refl
  | cons e es ih =>
      obtain ⟨he, hes⟩ := List.forall_mem_cons.mp free
      unfold fillTables
      split
      · exact ih hes w
      · rename_i table place values hactive
        split
        · have htable : T (.table table) := by
            unfold activeElem? at hactive
            cases hmode : e.mode <;> rw [hmode] at hactive <;> cases hactive
            exact he _ (by rw [Wasm.Elem.table?, hmode]; rfl)
          exact (changes_putElems htable place values w).trans (ih hes _)
        · exact .refl

theorem changes_fillMemories {ds : List Wasm.Data}
    (free : ∀ d ∈ ds, ∀ p ∈ d.place, T (.memory (i.memories.getD p.1 0))) (w : World) :
    w.Changes T (w.fillMemories i ds).2 := by
  induction ds generalizing w with
  | nil => exact .refl
  | cons d ds ih =>
      obtain ⟨hd, hds⟩ := List.forall_mem_cons.mp free
      unfold fillMemories
      split
      · exact ih hds w
      · rename_i memory place bytes hactive
        split
        · obtain ⟨p, hp, heq⟩ := Option.map_eq_some_iff.mp hactive
          cases heq
          exact (changes_putBytes (hd p hp) ‹_›).trans (ih hds _)
        · exact .refl

/-- Segments go into the objects that the indices of the instance stand for. -/
theorem changes_fill (free : ∀ i, w.store.instances[addr]? = some i →
      ∀ x ∈ i.module.module.filled, ∀ o ∈ Object.of? x.1 ((i.addrs x.1).getD x.2 0), T o) :
    w.Changes T (w.fill addr).2 := by
  unfold fill
  split
  · exact .refl
  · rename_i i hi
    have htables : ∀ e ∈ i.module.module.elems, ∀ k ∈ e.table?, T (.table (i.tables.getD k 0)) := by
      intro e he k hk
      refine free i hi (.table, k) (List.mem_append_left _ ?_) _ rfl
      exact List.mem_filterMap.mpr ⟨e, he, by rw [hk]; rfl⟩
    have hmemories : ∀ d ∈ i.module.module.datas, ∀ p ∈ d.place,
        T (.memory (i.memories.getD p.1 0)) := by
      intro d hd p hp
      refine free i hi (.memory, p.1) (List.mem_append_right _ ?_) _ rfl
      exact List.mem_filterMap.mpr ⟨d, hd, by rw [hp]; rfl⟩
    split
    · exact .refl
    · have hfilled := changes_fillTables htables w
      split
      · rename_i w' h
        rw [h] at hfilled
        exact hfilled.trans (changes_fillMemories hmemories w')
      · exact hfilled

/-! ## What changes keep -/

theorem Change.extends_ (h : Change T w w') : w.Extends w' := by
  cases h with
  | box ref b => exact .of_objects (objects_updateBox _ b w)
  | putIn | guest => exact .of_objects rfl
  | aside objects => exact .of_objects objects
  | global free v => exact extends_modifyGlobal w _ fun _ => rfl
  | elems free grows => exact extends_mapElems w _ grows
  | memory free evolves => exact extends_mapMemory w _ evolves.becomes
  | segment owner becomes =>
      exact { Extends.refl w with instances := .modify Instance.Becomes.refl fun i _ => becomes i }
  | newFunc f => exact { Extends.refl w with funcs := .push Eq.refl _ _ }
  | newGlobal g => exact extends_pushGlobal w g
  | newTable t => exact { Extends.refl w with tables := .push Table.Becomes.refl _ _ }
  | allocate m imports => exact w.extends_allocate m imports

/-- A store only grows. -/
theorem Alters.extends_ (h : w.Alters w') : w.Extends w' := by
  induction h with
  | refl => exact .refl w
  | tail _ step ih => exact ih.trans step.extends_

theorem Change.keeps (h : Change T w w') : w.Keeps w' := by
  cases h with
  | box ref b => exact keeps_updateBox ref b w
  | putIn r => exact keeps_accept (.externref (some r)) w
  | aside _ boxes => exact .of_boxes boxes
  | allocate m imports => exact (w.keeps_allocate m imports).1
  | _ => exact .of_boxes rfl

/-- Boxes keep their references. -/
theorem Alters.keeps (h : w.Alters w') : w.Keeps w' := by
  induction h with
  | refl => exact .refl w
  | tail _ step ih => exact ih.trans step.keeps

/-- The store has only grown, and its boxes keep what is in them. -/
structure Retains (w w' : World) : Prop where
  extends_ : w.Extends w'
  keeps : w.Keeps w'

theorem Retains.refl (w : World) : w.Retains w := ⟨.refl w, .refl w⟩

theorem Retains.trans {w'' : World} (h : w.Retains w') (h' : w'.Retains w'') : w.Retains w'' :=
  ⟨h.extends_.trans h'.extends_, h.keeps.trans h'.keeps⟩

theorem Retains.of_objects (h : w'.objects = w.objects) (hkeeps : w.Keeps w') : w.Retains w' :=
  ⟨.of_objects h, hkeeps⟩

theorem Alters.retains (h : w.Alters w') : w.Retains w' := ⟨h.extends_, h.keeps⟩

/-! ## New instances -/

theorem extends_fill (addr : InstanceAddr) (w : World) : w.Extends (w.fill addr).2 :=
  Alters.extends_ (changes_fill fun _ _ _ _ _ _ => trivial)

/-- An attempt to make an instance writes only to the objects that its segments go into. -/
theorem changes_instantiate {m : CompiledModule} {items : List Item}
    (free : ∀ i, (w.instantiate m items).2.store.instances[w.store.instances.size]? = some i →
      ∀ x ∈ i.module.module.filled, ∀ o ∈ Object.of? x.1 ((i.addrs x.1).getD x.2 0), T o) :
    w.Changes T (w.instantiate m items).2 := by
  have hallocated : w.Changes T (w.allocate m items).2 := .single (.allocate m items)
  have hnumber : (w.allocate m items).1 = w.store.instances.size := rfl
  unfold instantiate at free ⊢
  split
  · exact .refl
  · rename_i hpool
    simp only [hpool] at free
    have hgrown := extends_fill (w.allocate m items).1 (w.allocate m items).2
    have hfilled : (w.allocate m items).2.Changes T
        ((w.allocate m items).2.fill (w.allocate m items).1).2 := by
      refine changes_fill ?_
      intro i hi x hx o ho
      obtain ⟨i', hi', hbecomes⟩ := hgrown.instances _ i hi
      refine free i' ?_ x (by rw [hbecomes]; exact hx) o (by rw [hbecomes.addrs]; exact ho)
      rw [← hnumber, ← hi']
      split <;> rename_i h <;> rw [h]
    dsimp only
    split <;> rename_i h <;> rw [h] at hfilled <;> exact hallocated.trans hfilled

theorem alters_instantiate (m : CompiledModule) (items : List Item) (w : World) :
    w.Alters (w.instantiate m items).2 := changes_instantiate fun _ _ _ _ _ _ => trivial

end World

end WasmHost

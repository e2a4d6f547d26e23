import WasmHost.Proofs.World.TypedInstances

/-!
# The exports of an instance

An export of a linked instance stands for an object of the type that the module says, whether the
module defines it or imports it. So what is found by name has its type, and a start function takes
and gives nothing. Imported objects come first among those of their kind.
-/

namespace WasmHost

open World

/-- The item that an export of an instance stands for. -/
def Instance.exported (i : Instance) (e : Wasm.Export) : Item :=
  exportItem i.module.module i.funcs i.globals i.tables i.memories e

theorem Instance.addr?_exported {i : Instance} {e : Wasm.Export} {a : Nat}
    (ha : (i.addrs e.kind)[e.index]? = some a) : (i.exported e).addr? e.kind = some a := by
  cases hk : e.kind <;> rw [hk] at ha <;>
    simp [exported, exportItem, hk, Item.addr?, Item.func?, Item.global?, Item.table?,
      Item.memory?, Array.getD_eq_getD_getElem?] <;>
    exact (congrArg (Option.getD · 0) ha).trans rfl

variable {w w' : World} {i : Instance} {addr : InstanceAddr} {e : Wasm.Export}

namespace Instance.Linked

/-- An export is of the type that the module says. -/
theorem provides (h : i.Linked w) {t : ItemType}
    (ht : i.module.module.itemType? e.kind e.index = some t) : w.Provides t (i.exported e) := by
  obtain ⟨a, ha, hhas⟩ := h.items e.kind e.index t ht
  have hkind : t.kind = e.kind := by
    cases hk : e.kind <;> simp only [hk, Wasm.Module.itemType?, Option.map_eq_some_iff] at ht <;>
      obtain ⟨_, -, rfl⟩ := ht <;> rfl
  exact ⟨a, hkind ▸ Instance.addr?_exported ha, hhas⟩

/-- What is found by name is what an export with that name stands for. -/
theorem exists_export (h : i.Linked w) (hi : w.store.instances[addr]? = some i) {name : String}
    {item : Item} (hget : w.getExport addr name = some item) :
    ∃ e ∈ i.module.module.exports, e.name = name ∧ i.exported e = item := by
  have hmem := Instance.WellTyped.mem_exports_of_lookup hi hget
  rw [h.exports] at hmem
  obtain ⟨e, he, heq⟩ := List.mem_map.mp hmem
  exact ⟨e, he, congrArg Prod.fst heq, congrArg Prod.snd heq⟩

/-- An export is found by its name, unless it is a shared memory. -/
theorem getExport_eq (h : i.Linked w) (hi : w.store.instances[addr]? = some i)
    (he : e ∈ i.module.module.exports) (plain : (i.exported e).isSharedMemory = false) :
    w.getExport addr e.name = some (i.exported e) := by
  obtain ⟨f, valid⟩ := h.compiled.valid
  have hmem : (e.name, i.exported e) ∈ w.exportsOf addr := by
    simp only [exportsOf, hi, Option.map_some, Option.getD_some, h.exports]
    exact List.mem_filter.mpr ⟨List.mem_map.mpr ⟨e, he, rfl⟩, by simp [plain]⟩
  obtain ⟨item, hitem⟩ : ∃ item, w.getExport addr e.name = some item := by
    refine Option.isSome_iff_exists.mp ?_
    rw [getExport, List.lookup_isSome_iff]
    exact ⟨_, hmem, by simp⟩
  obtain ⟨e', he', hname, rfl⟩ := h.exists_export hi hitem
  obtain rfl : e' = e := List.inj_on_of_nodup_map valid.made.names he' he hname
  exact hitem

/-- A function that is found by the name of an export has the type that the module says. -/
theorem type_exported (h : i.Linked w) (hi : w.store.instances[addr]? = some i) {x : ExportType}
    {type : FuncType} (hx : x ∈ i.module.signature.exports) (htype : x.type = .func type)
    {func : FuncAddr} (hf : (w.getExport addr x.name).bind Item.func? = some func) :
    ∃ f, w.store.funcs[func]? = some f ∧ f.type = type := by
  obtain ⟨f, valid⟩ := h.compiled.valid
  obtain ⟨e, he, hxe⟩ := List.mem_filterMap.mp hx
  obtain ⟨t, ht, rfl⟩ := Option.map_eq_some_iff.mp hxe
  obtain rfl : t = .func type := htype
  obtain ⟨item, hitem, hfunc⟩ := Option.bind_eq_some_iff.mp hf
  obtain ⟨e', he', hname, rfl⟩ := h.exists_export hi hitem
  -- names of exports differ, so that only one export can have been found
  obtain rfl : e' = e := List.inj_on_of_nodup_map valid.made.names he' he hname
  obtain ⟨a, ha, hhas⟩ := h.provides ht
  obtain rfl : a = func := Option.some.inj (ha.symm.trans hfunc)
  exact hhas

/-- The functions among the exports of a module are found in its instances. -/
theorem exists_exported (h : i.Linked w) (hi : w.store.instances[addr]? = some i) {x : ExportType}
    {type : FuncType} (hx : x ∈ i.module.signature.exports) (htype : x.type = .func type) :
    ∃ func, (w.getExport addr x.name).bind Item.func? = some func := by
  obtain ⟨e, he, hxe⟩ := List.mem_filterMap.mp hx
  obtain ⟨t, ht, rfl⟩ := Option.map_eq_some_iff.mp hxe
  obtain rfl : t = .func type := htype
  obtain ⟨a, ha, -⟩ := h.provides ht
  have plain : (i.exported e).isSharedMemory = false := by
    cases hitem : i.exported e <;> rw [hitem] at ha <;> first | rfl | cases ha
  exact ⟨a, by rw [h.getExport_eq hi he plain]; exact ha⟩

/-- The start function of an instance takes and gives nothing. -/
theorem type_start (h : i.Linked w) (hi : w.store.instances[addr]? = some i) {func : FuncAddr}
    (hs : w.startFunc? addr = some func) :
    ∃ f, w.store.funcs[func]? = some f ∧ f.type = ⟨[], []⟩ := by
  obtain ⟨f, valid⟩ := h.compiled.valid
  simp only [startFunc?, hi, Option.bind_eq_bind, Option.bind_some, Option.bind_eq_some_iff] at hs
  obtain ⟨s, hs, hfunc⟩ := hs
  obtain ⟨a, ha, hhas⟩ := h.items .func s (.func ⟨[], []⟩) (by
    simp [Wasm.Module.itemType?, valid.made.start s hs])
  obtain rfl := Option.some.inj (ha.symm.trans hfunc)
  exact hhas

end Instance.Linked

/-! ## Indices -/

/-- The number of objects of a kind in a store. -/
def World.count (w : World) : ItemKind → Nat
  | .func => w.store.funcs.size
  | .global => w.store.globals.size
  | .table => w.store.tables.size
  | .memory => w.store.memories.size

/-- The number of objects of a kind that a module defines. -/
def CompiledModule.own (m : CompiledModule) : ItemKind → Nat
  | .func => m.codes.size
  | .global => m.module.globals.length
  | .table => m.module.tables.length
  | .memory => m.module.memories.length

/-- The first indices of an instance stand for the items that were supplied for its imports. -/
def Instance.Imports (i : Instance) (items : List Item) : Prop :=
  ∀ (kind : ItemKind) (k a : Nat), (items.filterMap (Item.addr? kind))[k]? = some a →
    (i.addrs kind)[k]? = some a

/-- The indices of an instance stand for the items that were supplied for its imports, then for
objects of its own, to which the store that it was made in gave the next numbers. -/
def Instance.Indexes (i : Instance) (w : World) (items : List Item) : Prop :=
  ∀ kind : ItemKind, i.addrs kind = (items.filterMap (Item.addr? kind)).toArray ++
    Array.range' (w.count kind) (i.module.own kind)

namespace Instance.Indexes

variable {items : List Item} {kind : ItemKind}

theorem imports (h : i.Indexes w items) : i.Imports items := by
  intro kind k a hk
  have hlt : k < (items.filterMap (Item.addr? kind)).toArray.size :=
    List.size_toArray ▸ (List.getElem?_eq_some_iff.mp hk).1
  rw [h kind, Array.getElem?_append_left hlt]
  exact List.getElem?_toArray.trans hk

theorem own {j : Nat} (h : i.Indexes w items) (hj : j < i.module.own kind) :
    (i.addrs kind)[(items.filterMap (Item.addr? kind)).length + j]? = some (w.count kind + j) := by
  rw [h kind, Array.getElem?_append_right (by simp)]
  simp [hj]

end Instance.Indexes

namespace World

variable {m : CompiledModule} {items : List Item}

theorem range'_append_push (xs : Array Nat) (n k : Nat) :
    xs.push n ++ Array.range' (n + 1) k = xs ++ Array.range' n (k + 1) := by
  rw [Array.range'_succ, Array.push_eq_append, Array.append_assoc]

theorem addrs_pushGlobals (funcs : Array FuncAddr) (globals : Array Nat) (gs : List Wasm.Global)
    (w : World) : (w.pushGlobals funcs globals gs).1 =
      globals ++ Array.range' w.store.globals.size gs.length := by
  induction gs generalizing globals w with
  | nil => simp [pushGlobals]
  | cons g gs ih =>
      have hheld (v : StoreVal) : (w.holdVal v).store.globals = w.store.globals :=
        (congrArg Store.globals (objects_holdVal v w) :)
      simp only [pushGlobals, ih, mapStore, hheld, Array.size_push, List.length_cons]
      exact range'_append_push _ _ _

theorem addrs_pushTables (slot : Option Nat) (tables : Array Nat) (ts : List TableType)
    (w : World) : (w.pushTables slot tables ts).1 =
      tables ++ Array.range' w.store.tables.size ts.length := by
  induction ts generalizing tables w with
  | nil => simp [pushTables]
  | cons t ts ih =>
      have hheld (vs : List StoreVal) : (w.holdAll vs).store.tables = w.store.tables :=
        (congrArg Store.tables (objects_holdAll vs w) :)
      simp only [pushTables, ih, pushTable, mapStore, hheld, Array.size_push, List.length_cons]
      exact range'_append_push _ _ _

theorem addrs_pushMemories (slot : Option Nat) (memories : Array Nat) (ts : List MemoryType)
    (w : World) : (w.pushMemories slot memories ts).1 =
      memories ++ Array.range' w.store.memories.size ts.length := by
  induction ts generalizing memories w with
  | nil => simp [pushMemories]
  | cons t ts ih =>
      simp only [pushMemories, ih, pushMemory, mapStore, Array.size_push, List.length_cons]
      exact range'_append_push _ _ _

/-- Globals are added beside the tables and memories. -/
theorem kept_pushGlobals (funcs : Array FuncAddr) (globals : Array Nat) (gs : List Wasm.Global)
    (w : World) : (w.pushGlobals funcs globals gs).2.store.tables = w.store.tables ∧
      (w.pushGlobals funcs globals gs).2.store.memories = w.store.memories := by
  induction gs generalizing globals w with
  | nil => exact ⟨rfl, rfl⟩
  | cons g gs ih =>
      obtain ⟨htables, hmemories⟩ := ih (globals.push w.store.globals.size) _
      have hobjects := objects_holdVal (w.constant funcs globals g.init) w
      exact ⟨htables.trans (congrArg Store.tables hobjects :),
        hmemories.trans (congrArg Store.memories hobjects :)⟩

/-- Tables are added beside the memories. -/
theorem kept_pushTables (slot : Option Nat) (tables : Array Nat) (ts : List TableType)
    (w : World) : (w.pushTables slot tables ts).2.store.memories = w.store.memories := by
  induction ts generalizing tables w with
  | nil => rfl
  | cons t ts ih =>
      refine (ih _ _).trans ?_
      exact (congrArg Store.memories (objects_holdAll _ w) :)

theorem exists_allocated (m : CompiledModule) (items : List Item) (w : World) :
    ∃ i, (w.allocate m items).2.store.instances[(w.allocate m items).1]? = some i ∧
      i.module = m ∧ i.Indexes w items := by
  let global := (w.withCode m).pushGlobals (w.funcsFor m items)
    (items.filterMap Item.global?).toArray m.module.globals
  let table := global.2.pushTables w.store.engine.options.pooledElements
    (items.filterMap Item.table?).toArray m.module.tables
  let memory := table.2.pushMemories w.store.engine.options.pooledPages
    (items.filterMap Item.memory?).toArray m.module.memories
  have hmade : w.allocate m items = (w.store.instances.size,
      memory.2.withInstance (w.instanceOf m items global.1 table.1 memory.1)) := rfl
  have hsize : memory.2.store.instances.size = w.store.instances.size :=
    congrArg Array.size ((furnished_pushGlobals _ _ _ _).trans
      ((furnished_pushTables _ _ _ _).trans (furnished_pushMemories _ _ _ _))).instances_eq
  refine ⟨w.instanceOf m items global.1 table.1 memory.1, ?_, rfl, fun kind => ?_⟩
  · rw [hmade, ← hsize]
    simp [withInstance, mapShared, mapStore]
  · cases kind with
    | func =>
        exact congrArg ((items.filterMap Item.func?).toArray ++ ·) Array.range'_eq_map_range.symm
    | global => exact addrs_pushGlobals _ _ _ _
    | table =>
        refine (addrs_pushTables _ _ _ _).trans ?_
        rw [(kept_pushGlobals _ _ _ _).1]
        rfl
    | memory =>
        refine (addrs_pushMemories _ _ _ _).trans ?_
        rw [kept_pushTables, (kept_pushGlobals _ _ _ _).2]
        rfl

/-- An instance that was made is the one that the store got for it, with its segments applied. -/
theorem instance_instantiated {i : Instance} (h : w.instantiate m items = (.ok addr, w'))
    (hi : (w.allocate m items).2.store.instances[(w.allocate m items).1]? = some i) :
    ∃ i', w'.store.instances[addr]? = some i' ∧ i.Becomes i' := by
  have hfilled := extends_fill (w.allocate m items).1 (w.allocate m items).2
  unfold instantiate at h
  split at h
  · cases h
  · dsimp only at h
    split at h <;> rename_i hr <;> cases h
    rw [hr] at hfilled
    exact hfilled.instances _ i hi

/-- An instance is there after it is made, with the indices that its imports and its module ask for.
-/
theorem exists_indexed (h : w.instantiate m items = (.ok addr, w')) :
    ∃ i, w'.store.instances[addr]? = some i ∧ i.module = m ∧ i.Indexes w items := by
  obtain ⟨i, hi, hmodule, hindexes⟩ := w.exists_allocated m items
  obtain ⟨i', hi', hbecomes⟩ := instance_instantiated h hi
  refine ⟨i', hi', ?_⟩
  rw [hbecomes]
  exact ⟨hmodule, hindexes⟩

theorem exists_instantiated (h : w.instantiate m items = (.ok addr, w')) :
    ∃ i, w'.store.instances[addr]? = some i ∧ i.module = m ∧ i.Imports items := by
  obtain ⟨i, hi, hmodule, hindexes⟩ := exists_indexed h
  exact ⟨i, hi, hmodule, hindexes.imports⟩

end World

end WasmHost

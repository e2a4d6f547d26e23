import WasmHost.Proofs.Wasm.Compiled
import WasmHost.Proofs.World.Changes

/-!
# The types of functions in an instance

An instance whose imports have the types that its module asks for has a function of the declared
type under each index, whether it was imported or is its own. So its start function takes and gives
nothing, and an exported function has the type that the module says.
-/

namespace WasmHost

open World

/-- An item is of the kind that is asked for; a function has the type that is asked for. -/
def World.Suits (w : World) : ItemType → Item → Prop
  | .func t, .func a => ∃ f, w.store.funcs[a]? = some f ∧ f.type = t
  | .global _, .global _ | .table _, .table .. | .memory _, .memory .. => True
  | _, _ => False

/-- Items suit the imports of a module, one by one. -/
def World.Supplies (w : World) (m : CompiledModule) (items : List Item) : Prop :=
  List.Forall₂ (fun i item => w.Suits i.type item) m.signature.imports items

/-- Each index of a function in an instance stands for a function of its type, and its exports are
those of its module. -/
structure Instance.WellTyped (w : World) (i : Instance) : Prop where
  made : i.module.WellMade
  size : i.funcs.size = i.module.module.funcTypeIndices.length
  types : ∀ (k : Nat) (a : FuncAddr), i.funcs[k]? = some a →
    ∃ f, w.store.funcs[a]? = some f ∧ i.module.module.funcType? k = some f.type
  exports : ∃ globals tables memories, i.exports = i.module.module.exports.map fun e =>
    (e.name, exportItem i.module.module i.funcs globals tables memories e)

variable {w w' : World} {m : CompiledModule} {items : List Item} {i i' : Instance}

theorem World.Suits.extends {t : ItemType} {item : Item} (h : w.Suits t item) (hw : w.Extends w') :
    w'.Suits t item := by
  cases t <;> cases item <;> try exact h
  obtain ⟨f, hf, rfl⟩ := h
  obtain ⟨f', hf', rfl⟩ := hw.funcs _ f hf
  exact ⟨f, hf', rfl⟩

theorem World.Supplies.extends (h : w.Supplies m items) (hw : w.Extends w') :
    w'.Supplies m items := h.imp fun _ _ hi => hi.extends hw

theorem Instance.WellTyped.extends (h : i.WellTyped w) (hw : w.Extends w') (hi : i.Becomes i') :
    i'.WellTyped w' := by
  rw [hi]
  refine ⟨h.made, h.size, fun k a ha => ?_, h.exports⟩
  obtain ⟨f, hf, htype⟩ := h.types k a ha
  obtain ⟨f', hf', rfl⟩ := hw.funcs a f hf
  exact ⟨f, hf', htype⟩

/-! ## Imported functions and own ones -/

theorem World.Supplies.imported (h : w.Supplies m items) (made : m.WellMade) :
    List.Forall₂ (fun t a => ∃ f, w.store.funcs[a]? = some f ∧ m.module.types[t]? = some f.type)
      (m.module.imports.filterMap Wasm.Import.func?) (items.filterMap Item.func?) := by
  have himports := made.imports
  unfold World.Supplies CompiledModule.signature Wasm.Module.signature at h
  dsimp only at h
  generalize m.module.imports = is at h himports ⊢
  induction is generalizing items with
  | nil =>
      cases h
      exact .nil
  | cons i is ih =>
      obtain ⟨hi, his⟩ := List.forall_mem_cons.mp himports
      obtain ⟨t, ht⟩ := Option.isSome_iff_exists.mp hi
      simp only [List.filterMap_cons, ht, Option.map_some] at h
      cases h with
      | @cons _ item _ items hsuits hrest =>
          have hrest := ih hrest his
          simp only [List.filterMap_cons, Wasm.Import.func?]
          cases hdesc : i.desc with
          | func index =>
              simp only [Wasm.Module.importType?, hdesc, Option.map_eq_some_iff] at ht
              obtain ⟨type, htype, rfl⟩ := ht
              cases item <;> try cases hsuits
              rename_i f hf
              obtain ⟨hf, rfl⟩ := hf
              exact .cons ⟨f, hf, htype⟩ hrest
          | table | memory | global =>
              simp only [Wasm.Module.importType?, hdesc, Option.some.injEq] at ht
              subst ht
              cases item <;> first | exact hrest | cases hsuits

/-- An index behind those of the imports stands for a function of the module. -/
theorem own_funcsFor (h : w.Supplies m items) (made : m.WellMade) {k : Nat} {a : FuncAddr}
    (ha : (w.funcsFor m items)[k]? = some a) (hk : m.module.importedFuncs ≤ k)
    (owner : InstanceAddr) :
    ∃ code, (w.store.funcs ++ m.newFuncs owner)[a]? = some ⟨code.type, .code owner code⟩ ∧
      m.module.funcType? k = some code.type := by
  have hlength := (h.imported made).length_eq
  have hcount := m.module.length_filterMap_func?
  obtain ⟨j, rfl⟩ := Nat.exists_eq_add_of_le hk
  rw [funcsFor, Array.getElem?_append_right (by simp; omega)] at ha
  have hj : m.module.importedFuncs + j - (items.filterMap Item.func?).toArray.size = j := by
    simp only [List.size_toArray]
    omega
  simp only [hj, Array.getElem?_map, Option.map_eq_some_iff] at ha
  obtain ⟨j', hj', rfl⟩ := ha
  obtain ⟨hlt, rfl⟩ : j < m.codes.size ∧ j = j' := by simpa using Array.getElem?_eq_some_iff.mp hj'
  refine ⟨m.codes[j], ?_, made.codes j _ (Array.getElem?_eq_getElem hlt)⟩
  rw [Array.getElem?_append_right (Nat.le_add_right _ _), Nat.add_sub_cancel_left]
  simp [CompiledModule.newFuncs, hlt]

/-- An index of an import stands for what was imported. -/
theorem imported_funcsFor (h : w.Supplies m items) (made : m.WellMade) {k : Nat} {a : FuncAddr}
    (ha : (w.funcsFor m items)[k]? = some a) (hk : k < m.module.importedFuncs) :
    (items.filterMap Item.func?)[k]? = some a ∧
      ∃ f, w.store.funcs[a]? = some f ∧ m.module.funcType? k = some f.type := by
  have himported := h.imported made
  have hcount := m.module.length_filterMap_func?
  have hk' : k < (m.module.imports.filterMap Wasm.Import.func?).length := by omega
  have hitems : k < (items.filterMap Item.func?).length := himported.length_eq ▸ hk'
  rw [funcsFor, Array.getElem?_append_left (by simpa using hitems), List.getElem?_toArray] at ha
  refine ⟨ha, ?_⟩
  obtain ⟨f, hf, htype⟩ := himported.get hk' hitems
  obtain ⟨-, rfl⟩ := List.getElem?_eq_some_iff.mp ha
  refine ⟨f, hf, ?_⟩
  rw [Wasm.Module.funcType?_imported _ hk, List.getElem?_eq_getElem hk']
  exact htype

/-- The functions of a new instance have their types. -/
theorem types_funcsFor (h : w.Supplies m items) (made : m.WellMade) {k : Nat} {a : FuncAddr}
    (ha : (w.funcsFor m items)[k]? = some a) (owner : InstanceAddr) :
    ∃ f, (w.store.funcs ++ m.newFuncs owner)[a]? = some f ∧
      m.module.funcType? k = some f.type := by
  rcases Nat.lt_or_ge k m.module.importedFuncs with hk | hk
  · obtain ⟨-, f, hf, htype⟩ := imported_funcsFor h made ha hk
    obtain ⟨hlt, -⟩ := Array.getElem?_eq_some_iff.mp hf
    exact ⟨f, (Array.getElem?_append_left hlt).trans hf, htype⟩
  · obtain ⟨code, hf, htype⟩ := own_funcsFor h made ha hk owner
    exact ⟨_, hf, htype⟩

theorem size_funcsFor (h : w.Supplies m items) (made : m.WellMade) :
    (w.funcsFor m items).size = m.module.funcTypeIndices.length := by
  have hlength := (h.imported made).length_eq
  rw [m.module.length_filterMap_func?] at hlength
  rw [m.module.length_funcTypeIndices, hlength, ← made.size]
  simp [funcsFor]

/-- A new instance whose imports suit it is well typed. -/
theorem wellTyped_allocate (h : w.Supplies m items) (made : m.WellMade) :
    ∃ i, (w.allocate m items).2.store.instances[(w.allocate m items).1]? = some i ∧
      i.module = m ∧ i.funcs = w.funcsFor m items ∧ i.WellTyped (w.allocate m items).2 := by
  obtain ⟨globals, tables, memories, hi⟩ := w.instance_allocate m items
  refine ⟨_, hi, rfl, rfl, made, size_funcsFor h made, fun k a ha => ?_, globals, tables, memories,
    rfl⟩
  rw [funcs_allocate]
  exact types_funcsFor h made ha _

theorem wellTyped_instantiate {addr : InstanceAddr} (h : w.Supplies m items) (made : m.WellMade)
    (hr : w.instantiate m items = (.ok addr, w')) :
    ∃ i, w'.store.instances[addr]? = some i ∧ i.module = m ∧ i.funcs = w.funcsFor m items ∧
      i.WellTyped w' := by
  obtain ⟨i, hi, rfl, hfuncs, htyped⟩ := wellTyped_allocate h made
  have hfilled := extends_fill (w.allocate i.module items).1 (w.allocate i.module items).2
  unfold instantiate at hr
  split at hr
  · cases hr
  · dsimp only at hr
    split at hr <;> rename_i hfill <;> cases hr
    rw [hfill] at hfilled
    obtain ⟨i', hi', hbecomes⟩ := hfilled.instances _ i hi
    refine ⟨i', hi', by rw [hbecomes], ?_, htyped.extends hfilled hbecomes⟩
    rw [hbecomes]
    exact hfuncs

/-- A new instance adds the functions of its module. -/
theorem funcs_instantiate {addr : InstanceAddr} (hr : w.instantiate m items = (.ok addr, w')) :
    w'.store.funcs = w.store.funcs ++ m.newFuncs addr := by
  unfold instantiate at hr
  split at hr
  · cases hr
  · have hfill := accounts_fill (w.allocate m items).1 (w.allocate m items).2
    dsimp only at hr
    split at hr <;> rename_i hfilled <;> cases hr
    rw [hfilled] at hfill
    exact (congrArg (·.funcs) hfill).trans (w.funcs_allocate m items)

/-! ## The functions that are called by name -/

namespace Instance.WellTyped

variable {addr : InstanceAddr}

/-- The start function of an instance takes and gives nothing. -/
theorem start (h : i.WellTyped w) (hi : w.store.instances[addr]? = some i) {func : FuncAddr}
    (hs : w.startFunc? addr = some func) :
    ∃ f, w.store.funcs[func]? = some f ∧ f.type = ⟨[], []⟩ := by
  simp only [startFunc?, hi, Option.bind_eq_bind, Option.bind_some, Option.bind_eq_some_iff] at hs
  obtain ⟨s, hs, hfunc⟩ := hs
  obtain ⟨f, hf, htype⟩ := h.types s func hfunc
  refine ⟨f, hf, ?_⟩
  rw [h.made.start s hs] at htype
  exact (Option.some.inj htype).symm

theorem mem_exports_of_lookup {name : String} {item : Item}
    (hi : w.store.instances[addr]? = some i) (hl : w.getExport addr name = some item) :
    (name, item) ∈ i.exports := by
  simp only [getExport, exportsOf, hi, Option.map_some, Option.getD_some] at hl
  obtain ⟨before, after, heq, -⟩ := List.lookup_eq_some_iff.mp hl
  have hmem : (name, item) ∈ i.exports.filter fun e => !e.2.isSharedMemory := by
    rw [heq]
    simp
  exact List.mem_of_mem_filter hmem

/-- A function that is found by the name of an export has the type that the module says. -/
theorem exported (h : i.WellTyped w) (hi : w.store.instances[addr]? = some i) {e : ExportType}
    {type : FuncType} (he : e ∈ i.module.signature.exports) (htype : e.type = .func type)
    {func : FuncAddr} (hf : (w.getExport addr e.name).bind Item.func? = some func) :
    ∃ f, w.store.funcs[func]? = some f ∧ f.type = type := by
  obtain ⟨x, hx, hxe⟩ := List.mem_filterMap.mp he
  obtain ⟨t, ht, rfl⟩ := Option.map_eq_some_iff.mp hxe
  obtain rfl : t = .func type := htype
  obtain ⟨item, hitem, hfunc⟩ := Option.bind_eq_some_iff.mp hf
  obtain ⟨globals, tables, memories, hexports⟩ := h.exports
  have hmem := mem_exports_of_lookup hi hitem
  rw [hexports] at hmem
  obtain ⟨y, hy, hye⟩ := List.mem_map.mp hmem
  -- names of exports differ, so that only one export can have been found
  obtain rfl : y = x := List.inj_on_of_nodup_map h.made.names hy hx (congrArg Prod.fst hye)
  obtain rfl := congrArg Prod.snd hye
  simp only [Wasm.Module.itemType?] at ht
  cases hkind : y.kind with
  | table | memory | global => simp [hkind] at ht
  | func =>
      simp only [hkind, Option.map_eq_some_iff, ItemType.func.injEq, exists_eq_right] at ht
      have hindex : y.index < i.funcs.size := by
        rw [h.size]
        simp only [Wasm.Module.funcType?, Option.bind_eq_bind, Option.bind_eq_some_iff] at ht
        obtain ⟨index, hindex, -⟩ := ht
        exact (List.getElem?_eq_some_iff.mp hindex).1
      simp only [exportItem, hkind, Item.func?, Option.some.injEq] at hfunc
      obtain ⟨f, hf, htype⟩ := h.types y.index func (by
        rw [← hfunc, Array.getD_eq_getD_getElem?, Array.getElem?_eq_getElem hindex]
        rfl)
      rw [ht] at htype
      exact ⟨f, hf, (Option.some.inj htype).symm⟩

end Instance.WellTyped

end WasmHost

import WasmHost.Proofs.World.Constants
import WasmHost.Proofs.World.Signatures

/-!
# Well typed instances

An instance of a compiled module whose imports are provided is linked: its own objects come behind
the imported ones, each of the type that the module declares. Its segments hold values of the kinds
of the tables that they are put into. So a store with a new instance is well typed again.
-/

namespace WasmHost

open World

variable {w w' : World} {m : CompiledModule} {items : List Item}

/-! ## Imported objects -/

theorem Item.addr?_eq_none {item : Item} {kind kind' : ItemKind} {a : Nat}
    (h : item.addr? kind = some a) (hne : kind' ≠ kind) : item.addr? kind' = none := by
  cases item <;> cases kind <;> cases kind' <;> first | exact absurd rfl hne | rfl | cases h

/-- The items of one kind are provided for the imports of that kind, in order. -/
theorem World.ProvidesAll.imported {α : Type} {pick : Wasm.ImportDesc → Option α}
    {type : α → ItemType} (h : w.ProvidesAll m items) (kind : ItemKind) (made : m.WellMade)
    (picks : ∀ d t, m.module.importType? d = some t →
      (∃ x, pick d = some x ∧ t = type x) ∨ pick d = none ∧ t.kind ≠ kind)
    (kinds : ∀ x, (type x).kind = kind) :
    List.Forall₂ (fun x a => w.Has (type x) a) (m.module.imports.filterMap fun i => pick i.desc)
      (items.filterMap (Item.addr? kind)) := by
  have himports := made.imports
  unfold World.ProvidesAll CompiledModule.signature Wasm.Module.signature at h
  dsimp only at h
  generalize m.module.imports = is at h himports ⊢
  induction is generalizing items with
  | nil =>
      cases h
      exact .nil
  | cons i is ih =>
      obtain ⟨hi, his⟩ := List.forall_mem_cons.mp himports
      obtain ⟨t, ht⟩ := Option.isSome_iff_exists.mp hi
      simp only [List.filterMap_cons, ht, Option.map_some] at h
      cases h with
      | cons hprovides hrest =>
          obtain ⟨a, ha, hhas⟩ := hprovides
          have hrest := ih hrest his
          rcases picks i.desc t ht with ⟨x, hx, rfl⟩ | ⟨hnone, hkind⟩
          · rw [kinds] at ha
            simp only [List.filterMap_cons, hx, ha]
            exact .cons hhas hrest
          · simp only [List.filterMap_cons, hnone, Item.addr?_eq_none ha (Ne.symm hkind)]
            exact hrest

theorem World.ProvidesAll.supplies (h : w.ProvidesAll m items) : w.Supplies m items := by
  refine h.imp fun i item hi => ?_
  obtain ⟨a, ha, hhas⟩ := hi
  cases htype : i.type <;> rw [htype] at ha hhas <;> cases item <;>
    first | trivial | (cases ha; exact hhas)

namespace Wasm.Module

/-- The global that an import asks for. -/
def globalImport? : ImportDesc → Option GlobalType
  | .global t => some t
  | .func _ | .table _ | .memory _ => none

/-- The table that an import asks for. -/
def tableImport? : ImportDesc → Option TableType
  | .table t => some t
  | .func _ | .global _ | .memory _ => none

/-- The memory that an import asks for. -/
def memoryImport? : ImportDesc → Option MemoryType
  | .memory t => some t
  | .func _ | .global _ | .table _ => none

theorem globalTypes_eq (m : Module) : m.globalTypes =
    (m.imports.filterMap fun i => globalImport? i.desc) ++ m.globals.map (·.type) := by
  rw [globalTypes]
  congr 2
  funext i
  cases i.desc <;> rfl

theorem tableTypes_eq (m : Module) : m.tableTypes =
    (m.imports.filterMap fun i => tableImport? i.desc) ++ m.tables := by
  rw [tableTypes]
  congr 2
  funext i
  cases i.desc <;> rfl

theorem memoryTypes_eq (m : Module) : m.memoryTypes =
    (m.imports.filterMap fun i => memoryImport? i.desc) ++ m.memories := by
  rw [memoryTypes]
  congr 2
  funext i
  cases i.desc <;> rfl

theorem length_globalImports (m : Module) :
    (m.imports.filterMap fun i => globalImport? i.desc).length = m.importedGlobals := by
  rw [List.length_filterMap_eq_countP, importedGlobals]
  congr 1
  funext i
  cases i.desc <;> rfl

end Wasm.Module

namespace World

theorem ProvidesAll.globals (h : w.ProvidesAll m items) (made : m.WellMade) :
    List.Forall₂ (fun t a => w.Has (.global t) a)
      (m.module.imports.filterMap fun i => Wasm.Module.globalImport? i.desc)
      (items.filterMap Item.global?) := by
  refine h.imported .global made (fun d t ht => ?_) fun _ => rfl
  cases d with
  | global => exact .inl ⟨_, rfl, (Option.some.inj ht).symm⟩
  | func =>
      obtain ⟨_, -, rfl⟩ := Option.map_eq_some_iff.mp ht
      exact .inr ⟨rfl, by simp [ItemType.kind]⟩
  | table | memory =>
      cases ht
      exact .inr ⟨rfl, by simp [ItemType.kind]⟩

theorem ProvidesAll.tables (h : w.ProvidesAll m items) (made : m.WellMade) :
    List.Forall₂ (fun t a => w.Has (.table t) a)
      (m.module.imports.filterMap fun i => Wasm.Module.tableImport? i.desc)
      (items.filterMap Item.table?) := by
  refine h.imported .table made (fun d t ht => ?_) fun _ => rfl
  cases d with
  | table => exact .inl ⟨_, rfl, (Option.some.inj ht).symm⟩
  | func =>
      obtain ⟨_, -, rfl⟩ := Option.map_eq_some_iff.mp ht
      exact .inr ⟨rfl, by simp [ItemType.kind]⟩
  | global | memory =>
      cases ht
      exact .inr ⟨rfl, by simp [ItemType.kind]⟩

theorem ProvidesAll.memories (h : w.ProvidesAll m items) (made : m.WellMade) :
    List.Forall₂ (fun t a => w.Has (.memory t) a)
      (m.module.imports.filterMap fun i => Wasm.Module.memoryImport? i.desc)
      (items.filterMap Item.memory?) := by
  refine h.imported .memory made (fun d t ht => ?_) fun _ => rfl
  cases d with
  | memory => exact .inl ⟨_, rfl, (Option.some.inj ht).symm⟩
  | func =>
      obtain ⟨_, -, rfl⟩ := Option.map_eq_some_iff.mp ht
      exact .inr ⟨rfl, by simp [ItemType.kind]⟩
  | global | table =>
      cases ht
      exact .inr ⟨rfl, by simp [ItemType.kind]⟩

/-! ## Own objects -/

/-- The objects behind some numbers are of given types, one by one. -/
def HasAll {α : Type} (w : World) (type : α → ItemType) (ts : List α) (addrs : Array Nat) : Prop :=
  List.Forall₂ (fun t a => w.Has (type t) a) ts addrs.toList

theorem HasAll.extends {α : Type} {type : α → ItemType} {ts : List α} {addrs : Array Nat}
    (h : w.HasAll type ts addrs) (hw : w.Extends w') : w'.HasAll type ts addrs :=
  h.imp fun _ _ ha => ha.extends hw

theorem HasAll.push {α : Type} {type : α → ItemType} {ts : List α} {addrs : Array Nat} {t : α}
    {a : Nat} (h : w.HasAll type ts addrs) (ha : w.Has (type t) a) :
    w.HasAll type (ts ++ [t]) (addrs.push a) := by
  unfold HasAll
  rw [Array.toList_push]
  exact List.rel_append h (.cons ha .nil)

theorem HasAll.get {α : Type} {type : α → ItemType} {ts : List α} {addrs : Array Nat} {k : Nat}
    {t : α} (h : w.HasAll type ts addrs) (ht : ts[k]? = some t) :
    ∃ a, addrs[k]? = some a ∧ w.Has (type t) a := by
  obtain ⟨hk, rfl⟩ := List.getElem?_eq_some_iff.mp ht
  have hk' : k < addrs.toList.length := h.length_eq ▸ hk
  exact ⟨addrs.toList[k], by rw [← Array.getElem?_toList, List.getElem?_eq_getElem hk'],
    List.Forall₂.get h hk hk'⟩

/-- New globals hold what their expressions give, and come behind those that are there. -/
theorem respects_pushGlobals {c : Wasm.Module} {f : Wasm.Features} (funcs : Array FuncAddr)
    {globals : Array Nat} {gs : List Wasm.Global} {ts : List GlobalType} (held : w.Valued)
    (there : w.HasAll .global ts globals)
    (known : ∀ (i : Nat) (t : GlobalType), i < c.importedGlobals → c.globalTypes[i]? = some t →
      ts[i]? = some t)
    (checked : ∀ g ∈ gs, c.checkConstant f g.type.content g.init) :
    w.Respects (w.pushGlobals funcs globals gs).2 ∧
      (w.pushGlobals funcs globals gs).2.HasAll .global (ts ++ gs.map (·.type))
        (w.pushGlobals funcs globals gs).1 := by
  induction gs generalizing globals ts w with
  | nil =>
      rw [List.map_nil, List.append_nil]
      exact ⟨.refl w, there⟩
  | cons g gs ih =>
      obtain ⟨hg, hgs⟩ := List.forall_mem_cons.mp checked
      -- an expression reads imported globals only, which stay at their indices
      have hknown : w.KnowsGlobals (c.context f) c.importedGlobals globals := by
        intro i t hi ht
        exact there.get (known i t hi (by simpa [Wasm.Module.context] using ht))
      have hholds : Global.Holds ⟨g.type, w.constant funcs globals g.init⟩ :=
        type_constant held hknown hg
      have hheld := Respects.of_objects (objects_holdVal (w.constant funcs globals g.init) w)
      have hpushed := hheld.trans (respects_pushGlobal hholds _)
      have hsize : (w.holdVal (w.constant funcs globals g.init)).store.globals = w.store.globals :=
        (congrArg Store.globals (objects_holdVal (w.constant funcs globals g.init) w) :)
      have hnew : World.Has (.mapStore (fun s => { s with
          globals := s.globals.push ⟨g.type, w.constant funcs globals g.init⟩ })
          (w.holdVal (w.constant funcs globals g.init))) (.global g.type) w.store.globals.size := by
        refine ⟨⟨g.type, w.constant funcs globals g.init⟩, ?_, rfl⟩
        simp only [mapStore, hsize]
        exact Array.getElem?_push_size
      obtain ⟨hrest, hall⟩ := ih (hpushed.valued held) ((there.extends hpushed.grown).push hnew)
        (fun i t hi ht => by
          have hold := known i t hi ht
          obtain ⟨hlt, -⟩ := List.getElem?_eq_some_iff.mp hold
          rw [List.getElem?_append_left hlt, hold]) hgs
      refine ⟨hpushed.trans hrest, ?_⟩
      rw [List.append_assoc] at hall
      exact hall

/-- New tables come behind those that are there. -/
theorem respects_pushTables (slot : Option Nat) {tables : Array Nat} (own : List TableType)
    {ts : List TableType} (there : w.HasAll .table ts tables) :
    w.Respects (w.pushTables slot tables own).2 ∧
      (w.pushTables slot tables own).2.HasAll .table (ts ++ own)
        (w.pushTables slot tables own).1 := by
  induction own generalizing tables ts w with
  | nil =>
      rw [List.append_nil]
      exact ⟨.refl w, there⟩
  | cons t own ih =>
      have hpushed := respects_pushTable (Val.type_default t.element)
        (min (t.limits.max.getD maxElements) (slot.getD maxElements)) w
      have hnew : (w.pushTable t (min (t.limits.max.getD maxElements) (slot.getD maxElements))
          (Val.default t.element)).2.Has (.table t) w.store.tables.size := by
        have hobjects :=
          objects_holdAll (Array.replicate t.limits.min (Val.default t.element)).toList w
        have htables : (w.holdAll (Array.replicate t.limits.min
            (Val.default t.element)).toList).store.tables = w.store.tables :=
          (congrArg Store.tables hobjects :)
        simp only [Has, pushTable, mapStore, htables, Array.getElem?_push_size]
        exact ⟨_, rfl, rfl⟩
      obtain ⟨hrest, hall⟩ := ih ((there.extends hpushed.grown).push hnew)
      refine ⟨hpushed.trans hrest, ?_⟩
      rw [List.append_assoc] at hall
      exact hall

/-- New memories come behind those that are there. -/
theorem respects_pushMemories (slot : Option Nat) {memories : Array Nat} (own : List MemoryType)
    {ts : List MemoryType} (there : w.HasAll .memory ts memories) :
    w.Respects (w.pushMemories slot memories own).2 ∧
      (w.pushMemories slot memories own).2.HasAll .memory (ts ++ own)
        (w.pushMemories slot memories own).1 := by
  induction own generalizing memories ts w with
  | nil =>
      rw [List.append_nil]
      exact ⟨.refl w, there⟩
  | cons t own ih =>
      have hpushed := respects_pushMemory t.limits.min
        (min (t.limits.max.getD Wasm.maxPages) (slot.getD Wasm.maxPages)) w
      have hnew : (w.pushMemory t.limits.min (min (t.limits.max.getD Wasm.maxPages)
          (slot.getD Wasm.maxPages))).2.Has (.memory t) w.store.memories.size := by
        simp [Has, pushMemory, mapStore]
      obtain ⟨hrest, hall⟩ := ih ((there.extends hpushed.grown).push hnew)
      refine ⟨hpushed.trans hrest, ?_⟩
      rw [List.append_assoc] at hall
      exact hall

end World

/-! ## Instances -/

namespace World

/-- An instance of which all objects are there is linked. -/
theorem linked_instanceOf {globals tables memories : Array Nat} (compiled : m.IsCompiled)
    (provided : w.ProvidesAll m items)
    (hfuncs : w'.store.funcs = w.store.funcs ++ m.newFuncs w.store.instances.size)
    (hglobals : w'.HasAll .global m.module.globalTypes globals)
    (htables : w'.HasAll .table m.module.tableTypes tables)
    (hmemories : w'.HasAll .memory m.module.memoryTypes memories) :
    (w.instanceOf m items globals tables memories).Linked w' := by
  obtain ⟨f, valid⟩ := compiled.valid
  refine ⟨compiled, fun kind k t ht => ?_, rfl⟩
  cases kind with
  | func =>
      obtain ⟨type, htype, rfl⟩ := Option.map_eq_some_iff.mp ht
      have htype : m.module.funcType? k = some type := htype
      have hk : k < (w.funcsFor m items).size := by
        rw [size_funcsFor provided.supplies valid.made]
        simp only [Wasm.Module.funcType?, Option.bind_eq_bind, Option.bind_eq_some_iff] at htype
        obtain ⟨index, hindex, -⟩ := htype
        exact (List.getElem?_eq_some_iff.mp hindex).1
      have ha := Array.getElem?_eq_getElem hk
      obtain ⟨g, hg, htype'⟩ := types_funcsFor provided.supplies valid.made ha
        w.store.instances.size
      rw [htype] at htype'
      rw [← hfuncs] at hg
      exact ⟨_, ha, g, hg, (Option.some.inj htype').symm⟩
  | global =>
      obtain ⟨type, htype, rfl⟩ := Option.map_eq_some_iff.mp ht
      exact hglobals.get htype
  | table =>
      obtain ⟨type, htype, rfl⟩ := Option.map_eq_some_iff.mp ht
      exact htables.get htype
  | memory =>
      obtain ⟨type, htype, rfl⟩ := Option.map_eq_some_iff.mp ht
      exact hmemories.get htype

/-- An instance is told apart from those before it by its number. -/
theorem Linked.instance_extends (h : w.Linked) (hw : w.Extends w') {a : InstanceAddr}
    {i : Instance} (ha : a < w.store.instances.size) (hi : w'.store.instances[a]? = some i) :
    i.Linked w' := by
  obtain ⟨i', hi', hbecomes⟩ := hw.instances a _ (Array.getElem?_eq_getElem ha)
  obtain rfl := Option.some.inj (hi.symm.trans hi')
  exact (h.instances _ (Array.getElem_mem ha)).extends hw hbecomes

/-- A store with the code of a module, and then with an instance of it, is well typed again. -/
theorem Typed.withInstance {v : World} {globals tables memories : Array Nat} (h : w.Typed)
    (compiled : m.IsCompiled) (provided : w.ProvidesAll m items)
    (hv : (w.withCode m).Respects v) (hglobals : v.HasAll .global m.module.globalTypes globals)
    (htables : v.HasAll .table m.module.tableTypes tables)
    (hmemories : v.HasAll .memory m.module.memoryTypes memories) :
    (v.withInstance (w.instanceOf m items globals tables memories)).Typed := by
  have hcode : w.Extends (w.withCode m) := extends_appendFuncs w _
  have hlast : v.Extends (v.withInstance (w.instanceOf m items globals tables memories)) :=
    (extends_pushInstance v (w.instanceOf m items globals tables memories)).then_objects rfl
  have hext := (hcode.trans hv.grown).trans hlast
  have hsize : v.store.instances.size = w.store.instances.size := hv.instances
  have hnew : (v.withInstance (w.instanceOf m items globals tables memories)).store.instances[
      w.store.instances.size]? = some (w.instanceOf m items globals tables memories) := by
    rw [← hsize]
    exact Array.getElem?_push_size
  have held := hv.valued ⟨h.globals, h.tables⟩
  refine ⟨⟨fun f hf => ?_, fun i hi => ?_⟩, held.globals, held.tables⟩
  · have hfuncs : v.store.funcs = w.store.funcs ++ m.newFuncs w.store.instances.size := hv.funcs
    have hf : f ∈ v.store.funcs := hf
    rw [hfuncs] at hf
    rcases Array.mem_append.mp hf with hf | hf
    · exact (h.funcs f hf).extends hext
    · obtain ⟨code, hcode, rfl⟩ := Array.mem_map.mp hf
      exact ⟨rfl, _, hnew, hcode⟩
  · -- it was there before, or is the new one
    obtain ⟨a, ha⟩ := Array.mem_iff_getElem?.mp hi
    rcases Nat.lt_or_ge a w.store.instances.size with hlt | hge
    · exact h.toLinked.instance_extends hext hlt ha
    · obtain ⟨hlt, -⟩ := Array.getElem?_eq_some_iff.mp ha
      have hlt : a < (v.store.instances.push
        (w.instanceOf m items globals tables memories)).size := hlt
      rw [Array.size_push, hsize] at hlt
      obtain rfl : a = w.store.instances.size := by omega
      obtain rfl := Option.some.inj (hnew.symm.trans ha)
      refine linked_instanceOf compiled provided ?_ (hglobals.extends hlast)
        (htables.extends hlast) (hmemories.extends hlast)
      exact hv.funcs

theorem Typed.allocate (h : w.Typed) (compiled : m.IsCompiled)
    (provided : w.ProvidesAll m items) : (w.allocate m items).2.Typed := by
  obtain ⟨f, valid⟩ := compiled.valid
  have hcode : w.Extends (w.withCode m) := extends_appendFuncs w _
  have hprovided := provided.extends hcode
  have held : (w.withCode m).Valued := ⟨h.globals, h.tables⟩
  have importedGlobals : HasAll _ .global _ (items.filterMap Item.global?).toArray :=
    hprovided.globals valid.made
  obtain ⟨hglobals, allGlobals⟩ := respects_pushGlobals (w.funcsFor m items) held importedGlobals
    (fun i t hi ht => by
      rw [Wasm.Module.globalTypes_eq, List.getElem?_append_left
        (by rw [Wasm.Module.length_globalImports]; exact hi)] at ht
      exact ht) (fun g hg => (valid.checks.globals g hg).2)
  rw [← Wasm.Module.globalTypes_eq] at allGlobals
  have importedTables : HasAll _ .table _ (items.filterMap Item.table?).toArray :=
    (hprovided.extends hglobals.grown).tables valid.made
  obtain ⟨htables, allTables⟩ := respects_pushTables w.store.engine.options.pooledElements
    m.module.tables importedTables
  rw [← Wasm.Module.tableTypes_eq] at allTables
  have importedMemories : HasAll _ .memory _ (items.filterMap Item.memory?).toArray :=
    (hprovided.extends (hglobals.trans htables).grown).memories valid.made
  obtain ⟨hmemories, allMemories⟩ := respects_pushMemories w.store.engine.options.pooledPages
    m.module.memories importedMemories
  rw [← Wasm.Module.memoryTypes_eq] at allMemories
  exact h.withInstance compiled provided ((hglobals.trans htables).trans hmemories)
    (allGlobals.extends (htables.trans hmemories).grown) (allTables.extends hmemories.grown)
    allMemories

end World

/-! ## Segments -/

variable {i : Instance} {f : Wasm.Features}

namespace Instance.Linked

theorem knowsGlobals (h : i.Linked w) :
    w.KnowsGlobals (i.module.module.context f) i.module.module.importedGlobals i.globals := by
  intro k t _ ht
  refine h.items .global k (.global t) ?_
  simp only [Wasm.Module.context, List.getElem?_toArray] at ht
  simp [Wasm.Module.itemType?, ht]

/-- The table of an index has elements of the kind that is declared. -/
theorem element_table (h : i.Linked w) {k : Nat} {t : TableType}
    (ht : i.module.module.tableTypes[k]? = some t) :
    (w.table (i.tables.getD k 0)).element = t.element := by
  obtain ⟨a, ha, x, hx, helement⟩ := h.items .table k (.table t) (by
    simp [Wasm.Module.itemType?, ht])
  have haddr : i.tables[k]? = some a := ha
  rw [Array.getD_eq_getD_getElem?, haddr, Option.getD_some, World.table, hx, Option.getD_some]
  exact helement

/-- The values of a segment are of its kind. -/
theorem types_elemValues (h : i.Linked w) (held : w.Valued) {e : Wasm.Elem}
    (he : i.module.module.checkElem f e) {t : ValType}
    (ht : t = match e.items with
      | .funcs _ => .funcref
      | .exprs t _ => t) : ∀ v ∈ w.elemValues i e.items, v.type = t := by
  intro v hv
  subst ht
  cases hitems : e.items with
  | funcs fs =>
      rw [hitems] at hv
      obtain ⟨k, -, rfl⟩ := List.mem_map.mp hv
      rfl
  | exprs t es =>
      rw [hitems] at hv
      obtain ⟨x, hx, rfl⟩ := List.mem_map.mp hv
      simp only [Wasm.Module.checkElem, hitems, Bool.and_eq_true, List.all_eq_true] at he
      exact type_constant held h.knowsGlobals (he.1.2 x hx)

/-- An active segment holds values of the kind of its table. -/
theorem types_activeElem (h : i.Linked w) (held : w.Valued) {e : Wasm.Elem}
    (he : i.module.module.checkElem f e) {table place : Nat} {values : List StoreVal}
    (hactive : w.activeElem? i e = some (table, place, values)) :
    ∀ v ∈ values, v.type = (w.table table).element := by
  have htypes := h.types_elemValues held he rfl
  unfold World.activeElem? at hactive
  split at hactive
  · rename_i index offset hmode
    cases hactive
    have hkind : (i.module.module.tableTypes[index.getD 0]?).any (·.element == match e.items with
        | .funcs _ => .funcref
        | .exprs t _ => t) := by
      unfold Wasm.Module.checkElem at he
      simp only [hmode, Bool.and_eq_true] at he
      cases hitems : e.items <;> simp only [hitems] at he <;> exact he.2.1
    obtain ⟨t, ht, helement⟩ := (Option.any_eq_true _ _).mp hkind
    intro v hv
    rw [h.element_table ht, htypes v hv]
    exact (beq_iff_eq.mp helement).symm
  · cases hactive
  · cases hactive

end Instance.Linked

namespace World

theorem respects_fillTables {es : List Wasm.Elem} (hi : i.Linked w) (held : w.Valued)
    (hes : ∀ e ∈ es, i.module.module.checkElem f e) : w.Respects (w.fillTables i es).2 := by
  induction es generalizing w with
  | nil => exact .refl w
  | cons e es ih =>
      obtain ⟨he, hes⟩ := List.forall_mem_cons.mp hes
      simp only [fillTables]
      split
      · exact ih hi held hes
      · rename_i table place values hactive
        split
        · have hput : w.Respects (w.putElems table place values) :=
            respects_putElems (hi.types_activeElem held he hactive)
          exact hput.trans (ih (hi.extends hput.grown (.refl i)) (hput.valued held) hes)
        · exact .refl w

theorem respects_fillMemories (i : Instance) (ds : List Wasm.Data) (w : World) :
    w.Respects (w.fillMemories i ds).2 := by
  induction ds generalizing w with
  | nil => exact .refl w
  | cons d ds ih =>
      simp only [fillMemories]
      split
      · exact ih w
      · split
        · exact (respects_putBytes _ _ _ w).trans (ih _)
        · exact .refl w

theorem respects_fill (h : w.Typed) (addr : InstanceAddr) : w.Respects (w.fill addr).2 := by
  unfold fill
  split
  · exact .refl w
  · rename_i i hi
    have linked := h.instances i (Array.mem_of_getElem? hi)
    obtain ⟨f, valid⟩ := linked.compiled.valid
    split
    · exact .refl w
    · have hfilled := respects_fillTables linked h.toValued
        valid.checks.elems
      split
      · rename_i w' hr
        rw [hr] at hfilled
        exact hfilled.trans (respects_fillMemories i _ w')
      · exact hfilled

/-- An attempt to make an instance leaves a store that is well typed. -/
theorem Typed.instantiate (h : w.Typed) (compiled : m.IsCompiled)
    (provided : w.ProvidesAll m items) : (w.instantiate m items).2.Typed := by
  have hallocated := h.allocate compiled provided
  have hfilled := (respects_fill hallocated (w.allocate m items).1).typed hallocated
  unfold World.instantiate
  split
  · exact h
  · dsimp only
    split <;> rename_i hr <;> rw [hr] at hfilled <;> exact hfilled

end World

end WasmHost

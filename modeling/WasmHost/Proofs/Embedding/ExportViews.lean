import WasmHost.Proofs.Embedding.Usage
import WasmHost.Proofs.Machine.Echoes

/-!
# Three views of the exports of an instance

An instance can be asked for its exports by name, by position, and for the list of their types. All
three show what the module says, apart from shared memories, and go on to do so for as long as the
store is in use.
-/

namespace WasmHost

open World

/-- Whether the type is that of a memory that is shared between threads. -/
def ItemType.isSharedMemory : ItemType → Bool
  | .memory t => t.shared
  | .func _ | .global _ | .table _ => false

/-- The exports of a module that its instances show: all but shared memories. -/
def CompiledModule.listed (m : CompiledModule) : List ExportType :=
  m.signature.exports.filter fun x => !x.type.isSharedMemory

/-- The views of the exports of an instance agree, and show the names and types in `xs`. -/
structure World.Lists (w : World) (addr : InstanceAddr) (xs : List ExportType) : Prop where
  types : w.exportTypes addr = xs
  present : ∀ k : Nat, ((w.exportsOf addr)[k]?).isSome ↔ k < xs.length
  /-- What is found at a position has the name, the kind and the type of that position, and is found
  by its name as well. -/
  nth : ∀ (k : Nat) (name : String) (item : Item), (w.exportsOf addr)[k]? = some (name, item) →
    ∃ t, xs[k]? = some ⟨name, t⟩ ∧ item.kindName = t.kind.name ∧ w.itemType? item = some t ∧
      w.getExport addr name = some item
  known : ∀ name, (w.getExport addr name).isSome ↔ name ∈ xs.map ExportType.name

variable {w w' : World} {m : CompiledModule} {items : List Item} {i : Instance}
  {addr : InstanceAddr} {e : Wasm.Export} {t : ItemType}

/-! ## Items and their types -/

theorem World.kindName_of_itemType? {item : Item} (h : w.itemType? item = some t) :
    item.kindName = t.kind.name := by
  cases item with
  | func a =>
      obtain ⟨f, -, rfl⟩ := Option.map_eq_some_iff.mp h
      rfl
  | global | table | memory =>
      cases h
      rfl
  | «instance» | module => cases h

theorem World.isSharedMemory_of_itemType? {item : Item} (h : w.itemType? item = some t) :
    item.isSharedMemory = t.isSharedMemory := by
  cases item with
  | func a =>
      obtain ⟨f, -, rfl⟩ := Option.map_eq_some_iff.mp h
      rfl
  | global | table | memory =>
      cases h
      rfl
  | «instance» | module => cases h

namespace Instance.Linked

/-- What an export stands for shows the type that the module says. -/
theorem itemType?_exported (h : i.Linked w)
    (ht : i.module.module.itemType? e.kind e.index = some t) :
    w.itemType? (i.exported e) = some t := by
  obtain ⟨a, ha, hhas⟩ := h.provides ht
  unfold exported exportItem at ha ⊢
  cases hk : e.kind <;> rw [hk] at ht ha <;>
    obtain ⟨type, htype, rfl⟩ := Option.map_eq_some_iff.mp ht <;> dsimp only at ha ⊢
  · obtain rfl := Option.some.inj ha
    obtain ⟨f, hf, rfl⟩ := hhas
    exact congrArg (Option.map _) hf
  · obtain rfl := Option.some.inj ha
    obtain ⟨g, hg, rfl⟩ := hhas
    simp only [itemType?, globalType, hg]
    rfl
  · rw [itemType?, List.getD_eq_getElem?_getD, htype, Option.getD_some]
  · rw [itemType?, List.getD_eq_getElem?_getD, htype, Option.getD_some]

/-- One by one, the exports that an instance shows are those that its module says. -/
theorem forall₂_exports (h : i.Linked w) (hi : w.store.instances[addr]? = some i) :
    List.Forall₂ (fun (x : ExportType) (p : String × Item) =>
      p.1 = x.name ∧ w.itemType? p.2 = some x.type) i.module.listed (w.exportsOf addr) := by
  obtain ⟨f, valid⟩ := h.compiled.valid
  have hknown := valid.checks.exports
  simp only [exportsOf, hi, Option.map_some, Option.getD_some, h.exports, CompiledModule.listed,
    CompiledModule.signature, Wasm.Module.signature]
  generalize i.module.module.exports = es at hknown
  induction es with
  | nil => exact .nil
  | cons e es ih =>
      obtain ⟨he, hes⟩ := List.forall_mem_cons.mp hknown
      obtain ⟨t, ht⟩ := Option.isSome_iff_exists.mp he
      have htype := h.itemType?_exported ht
      have hshared := isSharedMemory_of_itemType? htype
      have hrest := ih hes
      simp only [List.filterMap_cons, ht, Option.map_some, List.map_cons, List.filter_cons]
      have hshared :
          (exportItem i.module.module i.funcs i.globals i.tables i.memories e).isSharedMemory
            = t.isSharedMemory := hshared
      rw [hshared]
      split
      · exact .cons ⟨rfl, htype⟩ hrest
      · exact hrest

/-- What an instance shows is found by its name. -/
theorem getExport_of_mem (h : i.Linked w) (hi : w.store.instances[addr]? = some i) {name : String}
    {item : Item} (hmem : (name, item) ∈ w.exportsOf addr) :
    w.getExport addr name = some item := by
  simp only [exportsOf, hi, Option.map_some, Option.getD_some, h.exports] at hmem
  obtain ⟨hmem, plain⟩ := List.mem_filter.mp hmem
  obtain ⟨e, he, heq⟩ := List.mem_map.mp hmem
  cases heq
  exact h.getExport_eq hi he ((Bool.not_eq_true' _).mp plain)

/-- What is found by the name of an export is what the export stands for. -/
theorem eq_exported (h : i.Linked w) (hi : w.store.instances[addr]? = some i)
    (he : e ∈ i.module.module.exports) {item : Item} (hget : w.getExport addr e.name = some item) :
    item = i.exported e := by
  obtain ⟨f, valid⟩ := h.compiled.valid
  obtain ⟨e', he', hname, rfl⟩ := h.exists_export hi hget
  rw [List.inj_on_of_nodup_map valid.made.names he' he hname]

/-- The views of an instance agree on what its module says. -/
theorem lists (h : i.Linked w) (hi : w.store.instances[addr]? = some i) :
    w.Lists addr i.module.listed := by
  have hviews := h.forall₂_exports hi
  have hnames : (w.exportsOf addr).map Prod.fst = i.module.listed.map ExportType.name := by
    generalize i.module.listed = xs at hviews
    generalize w.exportsOf addr = ps at hviews
    induction hviews with
    | nil => rfl
    | cons hp _ ih => exact List.cons_eq_cons.mpr ⟨hp.1, ih⟩
  refine ⟨?_, fun k => ?_, fun k name item hk => ?_, fun name => ?_⟩
  · unfold exportTypes
    generalize i.module.listed = xs at hviews
    generalize w.exportsOf addr = ps at hviews
    induction hviews with
    | nil => rfl
    | @cons x p _ _ hp _ ih =>
        obtain ⟨name, item⟩ := p
        obtain ⟨rfl, htype⟩ := hp
        simp only [List.filterMap_cons, htype, Option.map_some, ih]
  · rw [Option.isSome_iff_ne_none, ne_eq, List.getElem?_eq_none_iff, not_le, hviews.length_eq]
  · obtain ⟨hlt, heq⟩ := List.getElem?_eq_some_iff.mp hk
    have hx : k < i.module.listed.length := hviews.length_eq ▸ hlt
    obtain ⟨hname, htype⟩ := hviews.get hx hlt
    rw [List.get_eq_getElem, List.get_eq_getElem, heq] at htype hname
    refine ⟨_, ?_, kindName_of_itemType? htype, htype, ?_⟩
    · obtain rfl : name = _ := hname
      exact List.getElem?_eq_getElem hx
    · exact h.getExport_of_mem hi (List.mem_of_getElem? hk)
  · rw [← hnames, getExport, List.lookup_isSome_iff]
    constructor
    · rintro ⟨p, hp, heq⟩
      exact List.mem_map.mpr ⟨p, hp, (beq_iff_eq.mp heq).symm⟩
    · intro hmem
      obtain ⟨p, hp, rfl⟩ := List.mem_map.mp hmem
      exact ⟨p, hp, beq_self_eq_true _⟩

end Instance.Linked

namespace Usage

variable {u v : Usage}

/-- Whatever a usage leads to is reached as well, and its store has only grown. -/
theorem Reachable.later (hu : u.Reachable) (h : Relation.ReflTransGen Step u v) :
    v.Reachable ∧ u.world.Extends v.world := by
  induction h with
  | refl => exact ⟨hu, .refl _⟩
  | tail _ step ih =>
      obtain ⟨hreached, hext⟩ := ih
      exact ⟨hreached.step step, hext.trans (hreached.typed.step step).2⟩

/-- The three views of the exports of an instance agree for as long as its store is in use. All show
the names and types that its module declares, an import's where an import is exported again, without
shared memories; what is found by name is what is found at its position. What is exported again is
what was supplied. None of this ever changes. -/
theorem export_views_agree (hu : u.Reachable) (later : Relation.ReflTransGen Step u v)
    (hi : u.world.store.instances[addr]? = some i) :
    v.world.Lists addr i.module.listed ∧
      v.world.exportsOf addr = u.world.exportsOf addr ∧
      (∀ name, v.world.getExport addr name = u.world.getExport addr name) ∧
      v.world.exportTypes addr = u.world.exportTypes addr ∧
      ∀ {before : World} {m : CompiledModule} {items : List Item},
        before.instantiate m items = (.ok addr, u.world) →
          i.module = m ∧ ∀ e ∈ m.module.exports, ∀ a item,
            (items.filterMap (Item.addr? e.kind))[e.index]? = some a →
              v.world.getExport addr e.name = some item → item.addr? e.kind = some a := by
  have hlinked : i.Linked u.world := hu.typed.world.instances i (Array.mem_of_getElem? hi)
  obtain ⟨hv, hext⟩ := hu.later later
  obtain ⟨i', hi', hbecomes⟩ := hext.instances addr i hi
  have hmodule : i'.module = i.module := by rw [hbecomes]
  have hshown := hext.exportsOf_eq hi
  have hget (name : String) : v.world.getExport addr name = u.world.getExport addr name := by
    rw [getExport, getExport, hshown]
  have hlists : v.world.Lists addr i.module.listed :=
    hmodule ▸ (hlinked.extends hext hbecomes).lists hi'
  refine ⟨hlists, hshown, hget, hlists.types.trans (hlinked.lists hi).types.symm, ?_⟩
  intro before m items made
  obtain ⟨j, hj, hmodule, himports⟩ := exists_instantiated made
  obtain rfl := Option.some.inj (hi.symm.trans hj)
  obtain rfl := hmodule
  refine ⟨rfl, fun e he a item ha hitem => ?_⟩
  rw [hlinked.eq_exported hi he ((hget e.name).symm.trans hitem)]
  exact Instance.addr?_exported (himports e.kind e.index a ha)

/-! ## A table that is exported again -/

/-- The binary of a module that exports the table again that it imports. -/
def forwarderBinary : Wasm.Bytes :=
  [0x00, 0x61, 0x73, 0x6d, 0x01, 0x00, 0x00, 0x00, 0x02, 0x09, 0x01, 0x00, 0x01, 0x74, 0x01, 0x70,
    0x01, 0x01, 0x0a, 0x07, 0x05, 0x01, 0x01, 0x74, 0x01, 0x00]

/-- The type that the module asks for. -/
def wideTable : TableType := ⟨.funcref, ⟨1, some 10⟩⟩

/-- The type of the table that is supplied. -/
def narrowTable : TableType := ⟨.funcref, ⟨1, some 5⟩⟩

/-- The module. -/
def forwarder : CompiledModule :=
  { compatibility := ({} : EngineOptions).compatibility, binary := forwarderBinary
    module := { imports := [⟨"", "t", .table wideTable⟩], exports := [⟨"t", .table, 0⟩] }
    codes := #[] }

theorem isCompiled_forwarder : forwarder.IsCompiled := ⟨{}, forwarderBinary, by decide +kernel⟩

/-- A store with a table. -/
def lending : Usage :=
  { world := ((StoreCall.newTable narrowTable (.funcref none)).run []
      (World.create (.default 0) { files := ⟨[], #[]⟩ })).2 }

/-- The store with an instance that exports the table again. -/
def forwarding : Usage :=
  { world := (lending.world.instantiate forwarder [.table 0 narrowTable]).2 }

theorem instantiate_forwarder :
    lending.world.instantiate forwarder [.table 0 narrowTable] = (.ok 0, forwarding.world) := rfl

theorem reachable_forwarding : forwarding.Reachable := by
  have free {w : World} : ({ world := w } : Usage).IsFree := fun _ ht => by cases ht
  refine .step (.step (.start (.default 0) { files := ⟨[], #[]⟩ })
    (.store (c := .newTable narrowTable (.funcref none)) [] free trivial))
    (.store (c := .instantiate forwarder [.table 0 narrowTable]) [] free ?_)
  refine ⟨isCompiled_forwarder, ?_, rfl, rfl⟩
  simp only [List.forall_mem_singleton]
  exact ⟨_, rfl, rfl⟩

/-- The table grows; the instance shows what it showed before. -/
theorem forwarded_table_stays : ∃ v : Usage, Relation.ReflTransGen Step forwarding v ∧
    v.world.tableSize 0 = 3 ∧ v.world.Lists 0 forwarder.listed ∧
    v.world.exportTypes 0 = [⟨"t", .table wideTable⟩] ∧
    v.world.getExport 0 "t" = some (.table 0 wideTable) ∧
    (Item.table 0 wideTable).addr? .table = some 0 := by
  have hgrown : Step forwarding
      { forwarding with
        world := ((StoreCall.growTable 0 2 (.funcref none)).run [] forwarding.world).2 } :=
    .store (c := .growTable 0 2 (.funcref none)) [] (fun _ ht => by cases ht) trivial
  have hi : forwarding.world.store.instances[0]? = some _ := rfl
  obtain ⟨lists, -, found, types, supplied⟩ :=
    export_views_agree reachable_forwarding (.single hgrown) hi
  obtain ⟨-, hsupplied⟩ := supplied instantiate_forwarder
  have hfound := (found "t").trans rfl
  exact ⟨_, .single hgrown, rfl, lists, types.trans rfl, hfound,
    hsupplied ⟨"t", .table, 0⟩ List.mem_cons_self 0 _ rfl hfound⟩

/-- A table that is exported again shows the type that the module asks for, not its own. -/
theorem forwarded_table_is_wide : forwarding.Reachable ∧
    lending.world.instantiate forwarder [.table 0 narrowTable] = (.ok 0, forwarding.world) ∧
    forwarding.world.itemType? (.table 0 narrowTable) = some (.table narrowTable) ∧
    forwarding.world.exportTypes 0 = [⟨"t", .table wideTable⟩] ∧
    ItemType.table wideTable ≠ .table narrowTable :=
  ⟨reachable_forwarding, instantiate_forwarder, rfl, rfl, by decide⟩

end Usage

end WasmHost

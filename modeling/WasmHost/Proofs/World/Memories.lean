import Mathlib.Data.List.Basic
import WasmHost.Proofs.World.Exports
import WasmHost.Proofs.World.RoundTrips

/-!
# How memories come to be what they are

A memory begins with as many pages as its type declares, all zero. From then on it grows where there
is room, and bytes are written within it; nothing else ever happens to it. `Memory.Evolves` says so
of one memory, and `World.Evolves` of the memories of two worlds: those of the first one evolve, and
all that are new are declared by the module of a new instance.
-/

namespace WasmHost

/-- The most pages that a type allows. -/
def MemoryType.bound (t : MemoryType) : Nat := t.limits.max.getD Wasm.maxPages

/-- The memories that a valid module declares are ones that there can be. -/
theorem Wasm.Module.Valid.bound_memories {m : Module} {f : Features} (h : m.Valid f) :
    ∀ t ∈ m.memories, t.limits.min ≤ t.bound ∧ t.bound ≤ maxPages := by
  intro t ht
  have hchecked := h.memories t ht
  simp only [Features.checkMemoryType, Limits.inOrder, Bool.and_eq_true, decide_eq_true_eq]
    at hchecked
  obtain ⟨⟨⟨horder, hmin⟩, hmax⟩, -⟩ := hchecked
  unfold MemoryType.bound
  cases hm : t.limits.max with
  | none => exact ⟨hmin, Nat.le_refl _⟩
  | some n =>
      rw [hm] at horder hmax
      exact ⟨of_decide_eq_true horder, of_decide_eq_true hmax⟩

namespace Memory

/-- A new memory of a type; a slot of a pool limits it further. -/
def fresh (slot : Option Nat) (t : MemoryType) : Memory :=
  { pages := t.limits.min, limit := min t.bound (slot.getD Wasm.maxPages) }

/-- Nothing was written past the end. -/
def IsBlankBehind (m : Memory) : Prop := ∀ i, m.size ≤ i → m.byte i = 0

variable {m m' : Memory} {slot : Option Nat} {t : MemoryType}

theorem byte_put_of_le {bytes : List UInt8} {addr i : Nat} (h : addr + bytes.length ≤ i)
    (m : Memory) : (m.put addr bytes).byte i = m.byte i := by
  induction bytes generalizing addr m with
  | nil => rfl
  | cons b bytes ih =>
      rw [List.length_cons] at h
      rw [put, ih (by omega)]
      have hne : addr ≠ i := by omega
      simp [byte, Std.HashMap.getD_insert, hne]

namespace Step

theorem pages_le (h : m.Step m') : m'.pages ≤ max m.pages m.limit := by
  cases h with
  | grow room =>
      have hroom := of_decide_eq_true room
      exact Nat.le_trans hroom (Nat.le_max_right _ _)
  | put fits =>
      rw [pages_put]
      exact Nat.le_max_left _ _

theorem isBlankBehind (h : m.Step m') (hm : m.IsBlankBehind) : m'.IsBlankBehind := by
  intro i hi
  cases h with
  | @grow delta room =>
      apply hm
      have hsize : m.size ≤ (m.grow delta).size :=
        Nat.mul_le_mul_right pageSize (Nat.le_add_right m.pages delta)
      exact Nat.le_trans hsize hi
  | put fits =>
      rw [size, pages_put] at hi
      have hfits := of_decide_eq_true fits
      rw [byte_put_of_le (Nat.le_trans hfits hi)]
      exact hm i hi

end Step

namespace Evolves

theorem pages_le (h : m.Evolves m') : m'.pages ≤ max m.pages m.limit := by
  induction h with
  | refl => exact Nat.le_max_left _ _
  | tail before step ih =>
      have hstep := step.pages_le
      rw [(Evolves.becomes before).limit] at hstep
      omega

theorem isBlankBehind (h : m.Evolves m') (hm : m.IsBlankBehind) : m'.IsBlankBehind := by
  induction h with
  | refl => exact hm
  | tail _ step ih => exact step.isBlankBehind ih

end Evolves

theorem isBlankBehind_fresh (slot : Option Nat) (t : MemoryType) :
    (fresh slot t).IsBlankBehind := by
  intro i _
  simp [byte, fresh]

theorem limit_fresh_le (slot : Option Nat) (t : MemoryType) : (fresh slot t).limit ≤ t.bound :=
  Nat.min_le_left _ _

end Memory

/-- The memories that the module of an instance declares itself, with their types; they come behind
those that it imports. -/
def Instance.ownMemories (i : Instance) : List (Nat × MemoryType) :=
  (i.memories.toList.drop (i.memories.size - i.module.module.memories.length)).zip
    i.module.module.memories

theorem Instance.Becomes.ownMemories {i i' : Instance} (h : i.Becomes i') :
    i'.ownMemories = i.ownMemories := by
  unfold Instance.ownMemories
  rw [h]

namespace World

/-- The memory with a number has evolved from a new one of a type. -/
def Stems (w : World) (addr : Nat) (t : MemoryType) : Prop :=
  ∃ m slot, w.store.memories[addr]? = some m ∧
    (slot = none ∨ slot = w.store.engine.options.pooledPages) ∧
      (Memory.fresh slot t).Evolves m

/-- The memories of the first world have evolved, and new instances have brought new ones. -/
structure Evolves (w w' : World) : Prop where
  grown : w.Extends w'
  kept : Extended Memory.Evolves w.store.memories w'.store.memories
  own : ∀ j i, w.store.instances.size ≤ j → w'.store.instances[j]? = some i →
    ∀ p ∈ i.ownMemories, w'.Stems p.1 p.2
  new : ∀ a, w.store.memories.size ≤ a → a < w'.store.memories.size →
    ∃ i ∈ w'.store.instances, ∃ t, (a, t) ∈ i.ownMemories

variable {w w' w'' : World} {addr : Nat} {t : MemoryType}

theorem Stems.of_kept (h : w.Stems addr t) (hw : w.Extends w')
    (kept : Extended Memory.Evolves w.store.memories w'.store.memories) : w'.Stems addr t := by
  obtain ⟨m, slot, hm, hslot, hevolves⟩ := h
  obtain ⟨m', hm', hlater⟩ := kept addr m hm
  rw [← hw.engine] at hslot
  exact ⟨m', slot, hm', hslot, hevolves.trans hlater⟩

namespace Evolves

theorem stems (h : w.Evolves w') (hs : w.Stems addr t) : w'.Stems addr t :=
  hs.of_kept h.grown h.kept

theorem trans (h : w.Evolves w') (h' : w'.Evolves w'') : w.Evolves w'' where
  grown := h.grown.trans h'.grown
  kept := h.kept.trans .trans h'.kept
  own j i hj hi p hp := by
    rcases Nat.lt_or_ge j w'.store.instances.size with hlt | hge
    · obtain ⟨i', hi', hbecomes⟩ := h'.grown.instances j _ (Array.getElem?_eq_getElem hlt)
      obtain rfl := Option.some.inj (hi.symm.trans hi')
      rw [hbecomes.ownMemories] at hp
      exact h'.stems (h.own j _ hj (Array.getElem?_eq_getElem hlt) p hp)
    · exact h'.own j i hge hi p hp
  new a ha hlt := by
    rcases Nat.lt_or_ge a w'.store.memories.size with hold | hnew
    · obtain ⟨i, hi, t, ht⟩ := h.new a ha hold
      obtain ⟨j, hj, rfl⟩ := Array.mem_iff_getElem.mp hi
      obtain ⟨i', hi', hbecomes⟩ := h'.grown.instances j _ (Array.getElem?_eq_getElem hj)
      exact ⟨i', Array.mem_of_getElem? hi', t, hbecomes.ownMemories ▸ ht⟩
    · exact h'.new a hnew hlt

end Evolves

/-! ## What leaves memories alone -/

/-- The memories, and how many instances there are. -/
def stock (w : World) : Array Memory × Nat := (w.store.memories, w.store.instances.size)

theorem stock_of_objects (h : w'.objects = w.objects) : w'.stock = w.stock :=
  (congrArg (fun s : Store => (s.memories, s.instances.size)) h :)

/-- Where the stock stays, nothing has evolved. -/
theorem Evolves.of_stock (h : w.Extends w') (hs : w'.stock = w.stock) : w.Evolves w' := by
  obtain ⟨hmemories, hinstances⟩ := Prod.mk.inj hs
  refine ⟨h, ?_, fun j i hj hi => ?_, fun a ha hlt => ?_⟩
  · rw [hmemories]
    exact .refl (fun _ => .refl) _
  · have hlt := (Array.getElem?_eq_some_iff.mp hi).1
    omega
  · rw [hmemories] at hlt
    omega

theorem Evolves.of_objects (h : w'.objects = w.objects) : w.Evolves w' :=
  .of_stock (.of_objects h) (stock_of_objects h)

theorem Evolves.refl (w : World) : w.Evolves w := .of_objects rfl

theorem Evolves.then_objects (h : w.Evolves w') (ho : w''.objects = w'.objects) : w.Evolves w'' :=
  h.trans (.of_objects ho)

/-! ## New instances -/

theorem store_pushMemories (slot : Option Nat) (memories : Array Nat) (ts : List MemoryType)
    (w : World) : (w.pushMemories slot memories ts).2.store =
      { w.store with memories := w.store.memories ++ (ts.map (Memory.fresh slot)).toArray } := by
  induction ts generalizing memories w with
  | nil => simp [pushMemories]
  | cons t ts ih =>
      have hrest := ih (memories.push w.store.memories.size)
        (w.pushMemory t.limits.min (min t.bound (slot.getD Wasm.maxPages))).2
      refine hrest.trans ?_
      simp [pushMemory, mapStore, Memory.fresh]

/-- What an instance adds: the memories that its module declares. -/
theorem stock_allocate (m : CompiledModule) (items : List Item) (w : World) :
    (w.allocate m items).2.stock =
      (w.store.memories ++
          (m.module.memories.map (Memory.fresh w.store.engine.options.pooledPages)).toArray,
        w.store.instances.size + 1) := by
  have hglobals := (kept_pushGlobals (w.funcsFor m items)
    (items.filterMap Item.global?).toArray m.module.globals (w.withCode m)).2
  have htables := kept_pushTables w.store.engine.options.pooledElements
    (items.filterMap Item.table?).toArray m.module.tables ((w.withCode m).pushGlobals
      (w.funcsFor m items) (items.filterMap Item.global?).toArray m.module.globals).2
  have hinstances := ((furnished_pushGlobals (w.withCode m) (w.funcsFor m items)
    (items.filterMap Item.global?).toArray m.module.globals).trans
      (furnished_pushTables _ w.store.engine.options.pooledElements
        (items.filterMap Item.table?).toArray m.module.tables)).instances_eq
  have hmemories := store_pushMemories w.store.engine.options.pooledPages
    (items.filterMap Item.memory?).toArray m.module.memories
      (((w.withCode m).pushGlobals (w.funcsFor m items)
        (items.filterMap Item.global?).toArray m.module.globals).2.pushTables
          w.store.engine.options.pooledElements
            (items.filterMap Item.table?).toArray m.module.tables).2
  have hkept := htables.trans hglobals
  refine Prod.ext ?_ ?_
  · refine (congrArg Store.memories hmemories).trans ?_
    dsimp only
    rw [hkept]
    rfl
  · refine (Array.size_push _).trans (congrArg (· + 1) ?_)
    refine (congrArg (fun s : Store => s.instances.size) hmemories).trans ?_
    dsimp only
    rw [hinstances]
    rfl

theorem mem_ownMemories_of_indexes {i : Instance} {items : List Item} (h : i.Indexes w items)
    {p : Nat × MemoryType} :
    p ∈ i.ownMemories ↔ ∃ k, i.module.module.memories[k]? = some p.2 ∧
      p.1 = w.store.memories.size + k := by
  have hdrop : i.memories.toList.drop (i.memories.size - i.module.module.memories.length) =
      List.range' w.store.memories.size i.module.module.memories.length := by
    have hmemories : i.memories = _ := h .memory
    rw [hmemories]
    simp [CompiledModule.own, World.count]
  obtain ⟨a, t⟩ := p
  rw [Instance.ownMemories, hdrop, List.mem_iff_getElem?]
  refine exists_congr fun k => ?_
  rw [List.getElem?_zip_eq_some]
  constructor
  · rintro ⟨hk, ht⟩
    obtain ⟨hlt, rfl⟩ := List.getElem?_eq_some_iff.mp hk
    exact ⟨ht, by simp⟩
  · rintro ⟨ht, rfl⟩
    have hlt := (List.getElem?_eq_some_iff.mp ht).1
    exact ⟨by simp [hlt], ht⟩

theorem evolves_allocate (m : CompiledModule) (items : List Item) (w : World) :
    w.Evolves (w.allocate m items).2 := by
  have hgrown := w.extends_allocate m items
  obtain ⟨hmemories, hinstances⟩ := Prod.mk.inj (stock_allocate m items w)
  obtain ⟨i, hi, rfl, hindexes⟩ := w.exists_allocated m items
  have haddr : (w.allocate i.module items).1 = w.store.instances.size := rfl
  rw [haddr] at hi
  refine ⟨hgrown, ?_, fun j i' hj hi' p hp => ?_, fun a ha hlt => ?_⟩
  · rw [hmemories]
    exact .append (fun _ => .refl) _ _
  · -- only one instance is new
    have hlt := (Array.getElem?_eq_some_iff.mp hi').1
    obtain rfl : j = w.store.instances.size := by omega
    obtain rfl := Option.some.inj (hi.symm.trans hi')
    obtain ⟨k, ht, hk⟩ := (mem_ownMemories_of_indexes hindexes).mp hp
    refine ⟨.fresh w.store.engine.options.pooledPages p.2, _, ?_, .inr ?_, .refl⟩
    · rw [hk, hmemories, Array.getElem?_append_right (Nat.le_add_right _ _)]
      simp [ht]
    · rw [hgrown.engine]
  · rw [hmemories] at hlt
    simp only [Array.size_append, List.size_toArray, List.length_map] at hlt
    have hk : a - w.store.memories.size < i.module.module.memories.length := by omega
    refine ⟨i, Array.mem_of_getElem? hi, _, (mem_ownMemories_of_indexes hindexes).mpr
      ⟨_, List.getElem?_eq_getElem hk, ?_⟩⟩
    omega

/-! ## All other changes -/

theorem evolves_mapMemory {f : Memory → Memory}
    (hf : (w.memory addr).Evolves (f (w.memory addr))) : w.Evolves (w.mapMemory addr f) := by
  refine ⟨extends_mapMemory w addr hf.becomes, ?_, fun j i hj hi => ?_, fun a ha hlt => ?_⟩
  · refine .modify (fun _ => .refl) fun m hm => ?_
    simpa [memory, hm] using hf
  · have hlt := (Array.getElem?_eq_some_iff.mp hi).1
    simp only [mapMemory, mapStore] at hlt
    omega
  · simp only [mapMemory, mapStore, Array.size_modify] at hlt
    omega

theorem Change.evolves {T : Object → Prop} (h : Change T w w') : w.Evolves w' := by
  have later := h.extends_
  cases h with
  | box ref b => exact .of_objects (objects_updateBox _ b w)
  | putIn | guest => exact .of_objects rfl
  | aside objects => exact .of_objects objects
  | memory _ evolves => exact evolves_mapMemory evolves
  | segment => exact .of_stock later (by simp [stock, dropSegment, mapStore])
  | allocate m imports => exact evolves_allocate m imports w
  | global | elems | newFunc | newGlobal | newTable => exact .of_stock later rfl

/-- The memories of a world evolve under all that is done to it. -/
theorem Alters.evolves (h : w.Alters w') : w.Evolves w' := by
  induction h with
  | refl => exact .refl w
  | tail _ step ih => exact ih.trans step.evolves

end World

end WasmHost

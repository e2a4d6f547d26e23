import WasmHost.Proofs.World.Changes

/-!
# Objects that are left alone

`World.ChangesOnly` says of two worlds that the objects outside a set are the same in both, to the
last byte. So it is after any changes that write to no other objects.
-/

namespace WasmHost

/-- All that an object holds. -/
inductive Object.State where
  | global (global : Global)
  | table (table : Table)
  | memory (memory : Memory)

/-- The object that an item is. -/
def Item.object? : Item → Option Object
  | .global a => some (.global a)
  | .table a _ => some (.table a)
  | .memory a _ => some (.memory a)
  | .func _ | .instance _ | .module _ => none

/-- What an object of a store holds. -/
def World.state? (w : World) : Object → Option Object.State
  | .global a => (w.store.globals[a]?).map .global
  | .table a => (w.store.tables[a]?).map .table
  | .memory a => (w.store.memories[a]?).map .memory

/-! ## Arrays that are changed at some places -/

/-- Outside some places the second array has all that the first one has. -/
def Spared {α : Type} (T : Nat → Prop) (xs ys : Array α) : Prop :=
  ∀ (i : Nat) (x : α), ¬T i → xs[i]? = some x → ys[i]? = some x

namespace Spared

variable {α : Type} {T : Nat → Prop} {xs ys zs : Array α}

theorem refl (T : Nat → Prop) (xs : Array α) : Spared T xs xs := fun _ _ _ h => h

theorem trans (h : Spared T xs ys) (h' : Spared T ys zs) : Spared T xs zs :=
  fun i x hi hx => h' i x hi (h i x hi hx)

theorem of_extended (h : Extended Eq xs ys) : Spared T xs ys := by
  intro i x _ hx
  obtain ⟨y, hy, rfl⟩ := h i x hx
  exact hy

theorem modify {a : Nat} (ha : T a) (f : α → α) : Spared T xs (xs.modify a f) := by
  intro i x hi hx
  have hne : a ≠ i := fun h => hi (h ▸ ha)
  rw [Array.getElem?_modify, if_neg hne]
  exact hx

end Spared

namespace World

/-- Objects outside the set are the same in both worlds. -/
structure ChangesOnly (T : Object → Prop) (w w' : World) : Prop where
  globals : Spared (fun a => T (.global a)) w.store.globals w'.store.globals
  tables : Spared (fun a => T (.table a)) w.store.tables w'.store.tables
  memories : Spared (fun a => T (.memory a)) w.store.memories w'.store.memories

namespace ChangesOnly

variable {T : Object → Prop} {w w' w'' : World}

theorem refl (T : Object → Prop) (w : World) : w.ChangesOnly T w :=
  ⟨.refl _ _, .refl _ _, .refl _ _⟩

theorem trans (h : w.ChangesOnly T w') (h' : w'.ChangesOnly T w'') : w.ChangesOnly T w'' :=
  ⟨h.globals.trans h'.globals, h.tables.trans h'.tables, h.memories.trans h'.memories⟩

theorem of_untouched (h : w.Untouched w') : w.ChangesOnly T w' :=
  ⟨.of_extended h.globals, .of_extended h.tables, .of_extended h.memories⟩

theorem of_objects (h : w'.objects = w.objects) : w.ChangesOnly T w' := by
  simp only [objects, Store.objects, Store.mk.injEq, and_true] at h
  obtain ⟨-, -, -, hglobals, htables, hmemories, -⟩ := h
  refine ⟨?_, ?_, ?_⟩
  · rw [hglobals]; exact .refl _ _
  · rw [htables]; exact .refl _ _
  · rw [hmemories]; exact .refl _ _

/-- What only touches boxes and the like can stand before or behind. -/
theorem then_objects (h : w.ChangesOnly T w') (ho : w''.objects = w'.objects) :
    w.ChangesOnly T w'' := h.trans (of_objects ho)

/-- An object that is not in the set holds what it held. -/
theorem state? (h : w.ChangesOnly T w') {o : Object} {s : Object.State} (ho : ¬T o)
    (hs : w.state? o = some s) : w'.state? o = some s := by
  cases o with
  | global a =>
      obtain ⟨g, hg, rfl⟩ := Option.map_eq_some_iff.mp hs
      exact congrArg (Option.map _) (h.globals a g ho hg)
  | table a =>
      obtain ⟨t, ht, rfl⟩ := Option.map_eq_some_iff.mp hs
      exact congrArg (Option.map _) (h.tables a t ho ht)
  | memory a =>
      obtain ⟨m, hm, rfl⟩ := Option.map_eq_some_iff.mp hs
      exact congrArg (Option.map _) (h.memories a m ho hm)

end ChangesOnly

variable {T : Object → Prop} {w w' : World}

theorem Change.only (h : Change T w w') : w.ChangesOnly T w' := by
  cases h with
  | box ref b => exact .of_objects (objects_updateBox _ b w)
  | putIn | guest => exact .of_objects rfl
  | aside objects => exact .of_objects objects
  | global free v => exact { ChangesOnly.refl T w with globals := .modify free _ }
  | elems free => exact { ChangesOnly.refl T w with tables := .modify free _ }
  | memory free => exact { ChangesOnly.refl T w with memories := .modify free _ }
  | segment | newFunc => exact { ChangesOnly.refl T w with }
  | newGlobal => exact { ChangesOnly.refl T w with globals := .of_extended (.push Eq.refl _ _) }
  | newTable => exact { ChangesOnly.refl T w with tables := .of_extended (.push Eq.refl _ _) }
  | allocate m imports => exact .of_untouched (w.untouched_allocate m imports)

/-- Changes that write to no object outside a set leave all others as they are. -/
theorem Changes.only (h : w.Changes T w') : w.ChangesOnly T w' := by
  induction h with
  | refl => exact .refl T w
  | tail _ step ih => exact ih.trans step.only

theorem changesOnly_newMemory {type : MemoryType} {addr : Nat}
    (h : w.newMemory type = some (addr, w')) : w.ChangesOnly T w' := by
  simp only [newMemory] at h
  split at h <;> cases h
  exact { ChangesOnly.refl T w with memories := .of_extended (.push Eq.refl _ _) }

end World

end WasmHost

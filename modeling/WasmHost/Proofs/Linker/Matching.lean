import WasmHost.Proofs.Linker.Instantiation
import WasmHost.Proofs.World.Signatures

/-!
# What matches an import

The checks of a list of imports go over it twice, once for the number and the kinds and once for the
types. Here what passes both is told item by item: `World.Matches` is the rule for one of them.
-/

namespace WasmHost

open World

/-- An item of the store that an embedder can hold. -/
def World.IsExtern (w : World) : Item → Prop
  | .func a => a < w.store.funcs.size
  | .global a => a < w.store.globals.size
  | .table a _ => a < w.store.tables.size
  | .memory a t => a < w.store.memories.size ∧ t.shared = false
  | .instance a => a < w.store.instances.size
  | .module _ => True

/-- A maximum that is asked for is one that the own maximum keeps. -/
def Limits.Within (own wanted : Limits) : Prop :=
  ∀ n, wanted.max = some n → ∃ k, own.max = some k ∧ k ≤ n

/-- An item is what an import asks for. The size of a table or memory is the one at the moment; an
instance, a module or an item of another kind never matches, and nothing matches a shared memory. -/
def World.Matches (w : World) : ItemType → Item → Prop
  | .func t, .func a => ∃ f, w.store.funcs[a]? = some f ∧ f.type = t
  | .global t, .global a =>
    (w.globalType a).content = t.content ∧ (w.globalType a).isMutable = t.isMutable
  | .table t, .table a own =>
    own.element = t.element ∧ t.limits.min ≤ w.tableSize a ∧ own.limits.Within t.limits
  | .memory t, .memory a own =>
    t.shared = false ∧ t.limits.min ≤ (w.memory a).pages ∧ own.limits.Within t.limits
  | _, _ => False

variable {w w' : World} {imports : List ImportType} {items : List Item} {types : List ItemType}

/-! ## Types that fit -/

theorem Limits.allows_iff {wanted provided : Limits} :
    wanted.allows provided ↔ wanted.min ≤ provided.min ∧ provided.Within wanted := by
  unfold Limits.allows Limits.Within
  rw [Bool.and_eq_true, decide_eq_true_iff]
  cases wanted.max <;> cases provided.max <;> simp

theorem World.fitTypes_ok_iff (hlength : imports.length = types.length) :
    fitTypes imports types = .ok () ↔
      List.Forall₂ (fun i t => i.type.fit t = .ok ()) imports types := by
  induction imports generalizing types with
  | nil =>
      obtain rfl := List.length_eq_zero_iff.mp hlength.symm
      exact ⟨fun _ => .nil, fun _ => rfl⟩
  | cons i is ih =>
      cases types with
      | nil => cases hlength
      | cons t ts =>
          rw [fitTypes_cons, List.forall₂_cons]
          split
          · rename_i hfit
            rw [ih (Nat.succ.inj hlength)]
            simp [hfit]
          · rename_i misfit hfit
            simp [hfit]

section Fit

variable {own : ItemType}

theorem ItemType.fit_func_iff {t : FuncType} :
    (ItemType.func t).fit own = .ok () ↔ own = .func t := by
  cases own with
  | func p =>
      simp only [fit, ItemType.func.injEq]
      split <;> simp_all [eq_comm]
  | global | table | memory => simp [fit]

theorem ItemType.fit_global_iff {t : GlobalType} : (ItemType.global t).fit own = .ok () ↔
    ∃ g, own = .global g ∧ g.content = t.content ∧ g.isMutable = t.isMutable := by
  cases own with
  | global g =>
      simp only [fit, ItemType.global.injEq, exists_eq_left']
      split
      · rename_i hne
        simp [Ne.symm hne]
      · rename_i hcontent
        rw [not_not] at hcontent
        split
        · rename_i hne
          simp [Ne.symm hne]
        · rename_i hmutable
          simp [hcontent, not_not.mp hmutable]
  | func | table | memory => simp [fit]

theorem ItemType.fit_table_iff {t : TableType} : (ItemType.table t).fit own = .ok () ↔
    ∃ p, own = .table p ∧ p.element = t.element ∧ t.limits.min ≤ p.limits.min ∧
      p.limits.Within t.limits := by
  cases own with
  | table p =>
      simp only [fit, ItemType.table.injEq, exists_eq_left', ← Limits.allows_iff]
      split
      · rename_i hne
        simp [Ne.symm hne]
      · rename_i helement
        rw [not_not] at helement
        split <;> rename_i hallows <;> simp [helement, hallows]
  | func | global | memory => simp [fit]

theorem ItemType.fit_memory_iff {t : MemoryType} : (ItemType.memory t).fit own = .ok () ↔
    ∃ p, own = .memory p ∧ p.shared = t.shared ∧ t.limits.min ≤ p.limits.min ∧
      p.limits.Within t.limits := by
  cases own with
  | memory p =>
      simp only [fit, ItemType.memory.injEq, exists_eq_left', ← Limits.allows_iff]
      split
      · rename_i hne
        simp [Ne.symm hne]
      · rename_i hshared
        rw [not_not] at hshared
        split <;> rename_i hallows <;> simp [hshared, hallows]
  | func | global | table => simp [fit]

end Fit

/-! ## Items that match -/

theorem World.isSome_currentType?_of_kindName {item : Item} {k : ItemKind} (h : w.IsExtern item)
    (hk : item.kindName = k.name) : ∃ t, w.currentType? item = some t := by
  cases item with
  | func a =>
      have ha : a < w.store.funcs.size := h
      exact ⟨.func w.store.funcs[a].type, by simp [currentType?, itemType?, ha]⟩
  | global | table | memory => exact ⟨_, rfl⟩
  | «instance» | module => cases k <;> simp [Item.kindName, ItemKind.name] at hk

/-- The rule for one item is what its type at the moment is checked for. -/
theorem World.matches_iff {t : ItemType} {item : Item} (h : w.IsExtern item) :
    w.Matches t item ↔ ∃ own, w.currentType? item = some own ∧ t.fit own = .ok () := by
  cases t with
  | func t =>
      cases item <;> simp [Matches, currentType?, itemType?, ItemType.fit_func_iff]
  | global t =>
      cases item <;> simp [Matches, currentType?, itemType?, ItemType.fit_global_iff]
  | table t =>
      cases item <;> simp [Matches, currentType?, itemType?, ItemType.fit_table_iff, Limits.Within]
  | memory t =>
      cases item with
      | memory a own =>
          have hshared : own.shared = false := h.2
          simp [Matches, currentType?, ItemType.fit_memory_iff, Limits.Within, hshared,
            @eq_comm Bool false]
      | _ => simp [Matches, currentType?, itemType?, ItemType.fit_memory_iff]

theorem World.kinds_of_positionalError? (h : positionalError? imports items = none) :
    List.Forall₂ (fun i item => item.kindName = i.type.kind.name) imports items := by
  unfold positionalError? at h
  split at h
  · cases h
  · rename_i hlength
    rw [not_not] at hlength
    rw [List.findSome?_eq_none_iff] at h
    rw [List.forall₂_iff_zip]
    refine ⟨hlength, fun hmem => ?_⟩
    have hkind := h _ hmem
    simpa using hkind

/-- Items that have the kinds of the imports have types at the moment. -/
theorem World.currentTypes_of_kinds (externs : ∀ i ∈ items, w.IsExtern i)
    (h : List.Forall₂ (fun i item => item.kindName = i.type.kind.name) imports items) :
    ∃ types : List ItemType, items.map w.currentType? = types.map some := by
  induction h with
  | nil => exact ⟨[], rfl⟩
  | @cons i item imports items hkind _ ih =>
      obtain ⟨hitem, hitems⟩ := List.forall_mem_cons.mp externs
      obtain ⟨types, htypes⟩ := ih hitems
      obtain ⟨t, ht⟩ := isSome_currentType?_of_kindName hitem hkind
      exact ⟨t :: types, by simp [ht, htypes]⟩

theorem World.kindName_of_matches {t : ItemType} {item : Item} (h : w.Matches t item) :
    item.kindName = t.kind.name := by
  cases t <;> cases item <;> first | rfl | exact h.elim

theorem World.forall₂_matches_iff (externs : ∀ i ∈ items, w.IsExtern i)
    (htypes : items.map w.currentType? = types.map some) :
    List.Forall₂ (fun i t => i.type.fit t = .ok ()) imports types ↔
      List.Forall₂ (fun i item => w.Matches i.type item) imports items := by
  induction items generalizing imports types with
  | nil =>
      obtain rfl : types = [] := List.map_eq_nil_iff.mp htypes.symm
      rw [List.forall₂_nil_right_iff, List.forall₂_nil_right_iff]
  | cons item items ih =>
      obtain ⟨hitem, hitems⟩ := List.forall_mem_cons.mp externs
      cases types with
      | nil => cases htypes
      | cons t types =>
          obtain ⟨ht, htypes⟩ := List.cons_eq_cons.mp htypes
          cases imports with
          | nil => simp
          | cons i imports =>
              rw [List.forall₂_cons, List.forall₂_cons, ih hitems htypes, matches_iff hitem]
              simp [ht]

/-- Both checks of a list of imports pass exactly if the items match them one by one. -/
theorem World.checks_pass_iff (externs : ∀ i ∈ items, w.IsExtern i) :
    (positionalError? imports items = none ∧ w.fit imports items = .ok ()) ↔
      List.Forall₂ (fun i item => w.Matches i.type item) imports items := by
  have hchecked {types : List ItemType} (hlength : imports.length = items.length)
      (htypes : items.map w.currentType? = types.map some) : w.fit imports items = .ok () ↔
        List.Forall₂ (fun i item => w.Matches i.type item) imports items := by
    have hcount := congrArg List.length htypes
    simp only [List.length_map] at hcount
    rw [fit_eq_fitTypes imports htypes, fitTypes_ok_iff (hlength.trans hcount),
      forall₂_matches_iff externs htypes]
  constructor
  · rintro ⟨hposition, hfit⟩
    have hkinds := kinds_of_positionalError? hposition
    obtain ⟨types, htypes⟩ := currentTypes_of_kinds externs hkinds
    exact (hchecked hkinds.length_eq htypes).mp hfit
  · intro h
    have hkinds := h.imp fun _ _ hmatch => kindName_of_matches hmatch
    obtain ⟨types, htypes⟩ := currentTypes_of_kinds externs hkinds
    have hfit := (hchecked h.length_eq htypes).mpr h
    refine ⟨positionalError?_of_fitTypes h.length_eq htypes ?_, hfit⟩
    rw [← fit_eq_fitTypes imports htypes]
    exact hfit

theorem World.Matches.suits {t : ItemType} {item : Item} (h : w.Matches t item) :
    w.Suits t item := by
  cases t <;> cases item <;> first | exact h | trivial

/-- Two lists differ in length, or fail to be related at some place. -/
theorem not_forall₂_iff {α β : Type} {R : α → β → Prop} {as : List α} {bs : List β} :
    ¬List.Forall₂ R as bs ↔ bs.length ≠ as.length ∨
      ∃ (k : Nat) (a : α) (b : β), as[k]? = some a ∧ bs[k]? = some b ∧ ¬R a b := by
  rw [List.forall₂_iff_get, not_and_or]
  constructor
  · rintro (hlength | h)
    · exact .inl (Ne.symm hlength)
    · refine .inr ?_
      by_contra hall
      refine h fun k hk hk' => ?_
      by_contra hne
      exact hall ⟨k, _, _, List.getElem?_eq_getElem hk, List.getElem?_eq_getElem hk', hne⟩
  · rintro (hlength | ⟨k, a, b, ha, hb, hne⟩)
    · exact .inl (Ne.symm hlength)
    · obtain ⟨hk, rfl⟩ := List.getElem?_eq_some_iff.mp ha
      obtain ⟨hk', rfl⟩ := List.getElem?_eq_some_iff.mp hb
      exact .inr fun h => hne (h k hk hk')

end WasmHost

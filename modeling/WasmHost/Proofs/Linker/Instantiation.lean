import WasmHost.Proofs.Session

/-!
# Imports by name and by position

A linker finds the imports of a module by their names; an embedder can also look each of them up
and hand the items over in the order of the imports. Both ways check the items, though not in the
same order, and then make the instance in the same store with the same items.
-/

namespace WasmHost

open World

variable {l : Linker} {w w' : World} {d : Definition} {ds : List Definition}

/-- Whether a name stands for a memory that is shared between threads. -/
def Definition.isSharedMemory : Definition → Bool
  | .item i _ => i.isSharedMemory
  | .host .. | .wasi _ => false

/-- The linker has something for an import, and an embedder can get hold of it. -/
def Linker.Provides (l : Linker) (i : ImportType) : Prop :=
  ∃ d, l.find? ⟨i.module, i.name⟩ = some d ∧ d.isSharedMemory = false

/-- Looks the imports of a module up one behind the other. -/
def Linker.getAll (l : Linker) : List ImportType → World → Option (List Item) × World
  | [], w => (some [], w)
  | i :: is, w =>
    let (item, w) := l.get? ⟨i.module, i.name⟩ w
    let (items, w) := l.getAll is w
    (item.bind fun item => items.map (item :: ·), w)

/-- Two attempts to make an instance come to the same: they end in the same way and leave the same
world behind, or both are refused because of the imports. -/
inductive World.SameOutcome : Option (Except Failure InstanceAddr × World) →
    Option (Except Failure InstanceAddr × World) → Prop
  | same (o : Option (Except Failure InstanceAddr × World)) : SameOutcome o o
  | refused (e e' : String) (w w' : World) :
      SameOutcome (some (.error (.error (.link e)), w)) (some (.error (.error (.link e')), w'))

/-! ## The items of definitions have their types -/

/-- Functions were added to a store, and nothing else has changed that an import can ask for. -/
structure World.AddsFuncs (w w' : World) : Prop where
  funcs : Extended Eq w.store.funcs w'.store.funcs
  globals : w'.store.globals = w.store.globals
  tables : w'.store.tables = w.store.tables
  memories : w'.store.memories = w.store.memories

namespace World.AddsFuncs

variable {w'' : World}

theorem refl (w : World) : w.AddsFuncs w := ⟨.refl Eq.refl _, rfl, rfl, rfl⟩

theorem trans (h : w.AddsFuncs w') (h' : w'.AddsFuncs w'') : w.AddsFuncs w'' where
  funcs := h.funcs.trans Eq.trans h'.funcs
  globals := h'.globals.trans h.globals
  tables := h'.tables.trans h.tables
  memories := h'.memories.trans h.memories

theorem currentType? (h : w.AddsFuncs w') {i : Item} {t : ItemType}
    (hi : w.currentType? i = some t) : w'.currentType? i = some t := by
  rw [← hi]
  cases i with
  | func a =>
      obtain ⟨f, hf, -⟩ := Option.map_eq_some_iff.mp hi
      obtain ⟨f', hf', rfl⟩ := h.funcs a f hf
      simp only [World.currentType?, itemType?, hf, hf']
  | global a => simp only [World.currentType?, itemType?, globalType, h.globals]
  | table a t => simp only [World.currentType?, tableSize, table, h.tables]
  | memory a t => simp only [World.currentType?, memory, h.memories]
  | «instance» a => rfl
  | module m => rfl

end World.AddsFuncs

namespace Definition

theorem addsFuncs_toItem (d : Definition) (w : World) : w.AddsFuncs (d.toItem w).2 := by
  cases d with
  | item i t => exact .refl w
  | host type ops id => exact ⟨.push Eq.refl _ _, rfl, rfl, rfl⟩
  | wasi f => exact ⟨.push Eq.refl _ _, rfl, rfl, rfl⟩

theorem addsFuncs_toItems (ds : List Definition) (w : World) : w.AddsFuncs (toItems ds w).2 := by
  induction ds generalizing w with
  | nil => exact .refl w
  | cons d ds ih => exact (d.addsFuncs_toItem w).trans (ih _)

theorem currentType?_toItem (hd : d.InStore w) :
    (d.toItem w).2.currentType? (d.toItem w).1 = some (d.currentType w) := by
  cases d with
  | item i t =>
      obtain ⟨t', ht'⟩ := Option.isSome_iff_exists.mp hd
      simp only [toItem, currentType, ht', Option.getD_some]
  | host type ops id =>
      simp [toItem, shareHostFunc, pushHostFunc, newFunc, mapStore, mapShared, World.currentType?,
        itemType?, currentType, Definition.type]
  | wasi f =>
      simp [toItem, newFunc, mapStore, World.currentType?, itemType?, currentType, Definition.type]

/-- Functions that are added do not change the type of what is there. -/
theorem currentType_of_addsFuncs (hd : d.InStore w) (h : w.AddsFuncs w') :
    d.currentType w' = d.currentType w := by
  cases d with
  | item i t =>
      obtain ⟨t', ht'⟩ := Option.isSome_iff_exists.mp hd
      simp only [currentType, ht', h.currentType? ht']
  | host | wasi => rfl

theorem currentTypes_toItems (hds : ∀ d ∈ ds, d.InStore w) :
    (toItems ds w).1.map (toItems ds w).2.currentType? =
      ds.map fun d => some (d.currentType w) := by
  induction ds generalizing w with
  | nil => rfl
  | cons d ds ih =>
      have hd := hds d List.mem_cons_self
      have hadds := d.addsFuncs_toItem w
      have hrest : ∀ e ∈ ds, e.InStore (d.toItem w).2 :=
        fun e he => (hds e (List.mem_cons_of_mem d he)).extends
          (World.Alters.extends_ (d.changes_toItem w))
      have hsame : (ds.map fun e => some (e.currentType (d.toItem w).2)) =
          ds.map fun e => some (e.currentType w) :=
        List.map_congr_left fun e he => by
          rw [currentType_of_addsFuncs (hds e (List.mem_cons_of_mem d he)) hadds]
      rw [List.map_cons, ← hsame, ← ih hrest]
      -- the items that follow only add functions, so the first one keeps its type
      have hfirst := (addsFuncs_toItems ds (d.toItem w).2).currentType? (currentType?_toItem hd)
      rw [← hfirst]
      rfl

end Definition

/-! ## The two checks agree -/

theorem World.kindName_of_currentType? {i : Item} {t : ItemType} (h : w.currentType? i = some t) :
    i.kindName = t.kind.name := by
  cases i with
  | func a =>
      obtain ⟨f, -, rfl⟩ := Option.map_eq_some_iff.mp h
      rfl
  | global | table | memory => cases h; rfl
  | «instance» | module => cases h

theorem ItemType.kind_of_fit {wanted provided : ItemType} (h : wanted.fit provided = .ok ()) :
    wanted.kind = provided.kind := by
  cases wanted <;> cases provided <;> first | rfl | cases h

theorem World.fitTypes_cons (i : ImportType) (is : List ImportType) (t : ItemType)
    (ts : List ItemType) :
    fitTypes (i :: is) (t :: ts) = (match i.type.fit t with
      | .ok () => fitTypes is ts
      | .error misfit => .error (incompatible i misfit)) := by
  change ((i.type.fit t).mapError (incompatible i) >>= fun _ => fitTypes is ts) = _
  cases i.type.fit t <;> rfl

/-- Items that fit have the right kinds. -/
theorem World.positionalError?_of_fitTypes {imports : List ImportType} {items : List Item}
    {types : List ItemType} (hlength : imports.length = items.length)
    (htypes : items.map w.currentType? = types.map some)
    (hfit : fitTypes imports types = .ok ()) : positionalError? imports items = none := by
  rw [positionalError?, if_neg (by simpa using hlength)]
  induction imports generalizing items types with
  | nil => rfl
  | cons i is ih =>
      cases items with
      | nil => cases hlength
      | cons item items =>
          cases types with
          | nil => cases htypes
          | cons t ts =>
              obtain ⟨ht, hts⟩ := List.cons_eq_cons.mp htypes
              rw [fitTypes_cons] at hfit
              split at hfit
              · rename_i hi
                have hkind : item.kindName = i.type.kind.name := by
                  rw [kindName_of_currentType? ht, ItemType.kind_of_fit hi]
                rw [List.zip_cons_cons, List.findSome?_cons]
                simp only [hkind, if_true]
                exact ih (by simpa using hlength) hts hfit
              · cases hfit

theorem World.fit_eq_fitTypes {items : List Item} {types : List ItemType}
    (imports : List ImportType) (htypes : items.map w.currentType? = types.map some) :
    w.fit imports items = fitTypes imports types := by
  have hmap : (items.map fun i => (w.currentType? i).getD default) = types := by
    have := congrArg (List.map fun t => t.getD default) htypes
    simpa [Function.comp_def] using this
  rw [fit, hmap]

namespace Linker

/-! ## Finding the imports -/

theorem get?_of_find? {n : LinkName} (h : l.find? n = some d) (hd : d.isSharedMemory = false)
    (w : World) : l.get? n w = (some (d.toItem w).1, (d.toItem w).2) := by
  have hitem : (d.toItem w).1.isSharedMemory = false := by
    cases d with
    | item i t => exact hd
    | host | wasi => rfl
  simp only [get?, h, hitem, Bool.false_eq_true, if_false]

theorem findAll_cons (l : Linker) (i : ImportType) (is : List ImportType) :
    l.findAll (i :: is) = (match l.find? ⟨i.module, i.name⟩ with
      | some d => (l.findAll is).map (d :: ·)
      | none => .error s!"unknown import: `{i.module}::{i.name}` has not been defined") := by
  simp only [findAll, List.mapM_cons]
  cases l.find? ⟨i.module, i.name⟩ with
  | none => rfl
  | some d => rfl

/-- Imports that are all there are found, and looked up one by one they are the same items. -/
theorem findAll_of_provides {imports : List ImportType} (h : ∀ i ∈ imports, l.Provides i) :
    ∃ ds, l.findAll imports = .ok ds ∧ imports.length = ds.length ∧
      (∀ d ∈ ds, ∃ n, l.find? n = some d) ∧
      ∀ w, l.getAll imports w =
        (some (Definition.toItems ds w).1, (Definition.toItems ds w).2) := by
  induction imports with
  | nil => exact ⟨[], rfl, rfl, by simp, fun w => rfl⟩
  | cons i is ih =>
      obtain ⟨d, hd, hshared⟩ := h i List.mem_cons_self
      obtain ⟨ds, hds, hlength, hfound, hall⟩ := ih fun j hj => h j (List.mem_cons_of_mem i hj)
      refine ⟨d :: ds, ?_, by simp [hlength], ?_, fun w => ?_⟩
      · simp only [findAll_cons, hd, hds, Except.map]
      · intro e he
        rcases List.mem_cons.mp he with rfl | he
        · exact ⟨_, hd⟩
        · exact hfound e he
      · simp only [getAll, get?_of_find? hd hshared w, hall]
        rfl

theorem findAll_of_missing {before : List ImportType} {i : ImportType} (after : List ImportType)
    (hbefore : ∀ j ∈ before, (l.find? ⟨j.module, j.name⟩).isSome)
    (hi : l.find? ⟨i.module, i.name⟩ = none) :
    l.findAll (before ++ i :: after) =
      .error s!"unknown import: `{i.module}::{i.name}` has not been defined" := by
  induction before with
  | nil => rw [List.nil_append, findAll_cons, hi]
  | cons j js ih =>
      obtain ⟨d, hd⟩ := Option.isSome_iff_exists.mp (hbefore j List.mem_cons_self)
      rw [List.cons_append, findAll_cons, hd, ih fun k hk => hbefore k (List.mem_cons_of_mem j hk)]
      rfl

theorem resolve_of_findAll {m : CompiledModule} (h : l.findAll m.signature.imports = .ok ds)
    (typeOf : Definition → ItemType) :
    l.resolve m typeOf = (fitTypes m.signature.imports (ds.map typeOf)).map fun _ => ds := by
  simp only [resolve, h]
  change (fitTypes m.signature.imports (ds.map typeOf) >>= fun _ => pure ds) = _
  cases fitTypes m.signature.imports (ds.map typeOf) <;> rfl

/-- What the linker finds by name makes the same instance when it is handed over in order. -/
theorem sameOutcome_of_findAll {m : CompiledModule} (hds : ∀ d ∈ ds, d.InStore w)
    (h : l.findAll m.signature.imports = .ok ds) (hlength : m.signature.imports.length = ds.length)
    (limit : Nat) : SameOutcome (l.instantiate limit m w)
      ((Definition.toItems ds w).2.instantiateWith limit m (Definition.toItems ds w).1) := by
  have htypes : (Definition.toItems ds w).1.map (Definition.toItems ds w).2.currentType? =
      (ds.map (·.currentType w)).map some := by
    rw [Definition.currentTypes_toItems hds, List.map_map]
    rfl
  have hitems : m.signature.imports.length = (Definition.toItems ds w).1.length := by
    have := congrArg List.length htypes
    simp only [List.length_map] at this
    rw [this, hlength]
  rw [instantiate, resolve_of_findAll h, instantiateWith]
  have hfit := World.fit_eq_fitTypes m.signature.imports htypes
  cases hf : fitTypes m.signature.imports (ds.map (·.currentType w)) with
  | ok u =>
      rw [hf] at hfit
      simp only [World.positionalError?_of_fitTypes hitems htypes hf, hfit, Except.map]
      exact .same _
  | error e =>
      rw [hf] at hfit
      simp only [Except.map]
      cases positionalError? m.signature.imports (Definition.toItems ds w).1 with
      | some e' => exact .refused e e' w _
      | none =>
          simp only [hfit]
          exact .refused e e w _

/-- Making an instance through a linker comes to the same as looking its imports up and handing them
over in order, whenever the linker has something for each of them. If it has nothing for one of
them, the first such import is named, whatever else is wrong, and nothing has happened. Either way
the session goes on with the linkers as they are. -/
theorem instantiate_refines_instantiateWith {s : Session} (reachable : s.Reachable)
    (known : l ∈ s.linkers) (m : CompiledModule) :
    ((∀ i ∈ m.signature.imports, l.Provides i) →
      ∃ items w, l.getAll m.signature.imports s.world = (some items, w) ∧
        ∀ limit, SameOutcome (l.instantiate limit m s.world) (w.instantiateWith limit m items)) ∧
    (∀ before i after, m.signature.imports = before ++ i :: after →
      (∀ j ∈ before, (l.find? ⟨j.module, j.name⟩).isSome) →
      l.find? ⟨i.module, i.name⟩ = none →
      ∀ limit, l.instantiate limit m s.world = some (.error (.error (.link
        s!"unknown import: `{i.module}::{i.name}` has not been defined")), s.world)) ∧
    ∀ limit r w, l.instantiate limit m s.world = some (r, w) →
      Session.Reachable ⟨w, s.linkers⟩ := by
  refine ⟨fun provides => ?_, fun before i after himports hbefore hi limit => ?_, ?_⟩
  · obtain ⟨ds, hds, hlength, hfound, hall⟩ := findAll_of_provides provides
    have hstore : ∀ d ∈ ds, d.InStore s.world := by
      intro d hd
      obtain ⟨n, hn⟩ := hfound d hd
      exact reachable.inStore l known n d hn
    exact ⟨_, _, hall s.world, sameOutcome_of_findAll hstore hds hlength⟩
  · have hmissing := findAll_of_missing after hbefore hi
    rw [← himports] at hmissing
    rw [instantiate, resolve, hmissing]
    rfl
  · intro limit r w h
    exact .step reachable (.instantiate known h)

/-- A module that imports functions without parameters and results from `env`. -/
def importing (names : List String) : CompiledModule :=
  .make {} [] { types := [⟨[], []⟩], imports := names.map fun n => ⟨"env", n, .func 0⟩ } []

theorem instantiate_refines_instantiateWith_of_host_function :
    ∃ (s : Session) (l : Linker), s.Reachable ∧ l ∈ s.linkers ∧
      (∃ items w, l.getAll (importing ["f"]).signature.imports s.world = (some items, w) ∧
        ∀ limit, SameOutcome (l.instantiate limit (importing ["f"]) s.world)
          (w.instantiateWith limit (importing ["f"]) items)) ∧
      ∀ limit, l.instantiate limit (importing ["f", "g"]) s.world =
        some (.error (.error (.link "unknown import: `env::g` has not been defined")), s.world) := by
  have opened := Session.Reachable.start (.default 0) { files := ⟨[], #[]⟩ }
  have defined := (opened.step (.newLinker _ _)).step
    (@Session.Step.linker _ _ [] [] _ _ (.defineFunc ⟨"env", "f"⟩ ⟨[], []⟩ []) _ rfl)
  have provided := (instantiate_refines_instantiateWith defined List.mem_cons_self
    (importing ["f"])).1
  have missing := (instantiate_refines_instantiateWith defined List.mem_cons_self
    (importing ["f", "g"])).2.1
  refine ⟨_, _, defined, List.mem_cons_self, provided ?_,
    missing [⟨"env", "f", .func ⟨[], []⟩⟩] ⟨"env", "g", .func ⟨[], []⟩⟩ [] rfl ?_ rfl⟩
  · intro i hi
    rw [List.mem_singleton.mp hi]
    exact ⟨_, rfl, rfl⟩
  · intro i hi
    rw [List.mem_singleton.mp hi]
    rfl

end Linker

end WasmHost

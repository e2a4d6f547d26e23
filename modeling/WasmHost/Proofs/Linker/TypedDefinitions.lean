import WasmHost.Proofs.Linker.Signatures
import WasmHost.Proofs.World.Exports

/-!
# Definitions in well typed stores

What a linker defines as an item of a store is there and of the type that the definition says. So
the items that it finds for the imports of a module have the types that the module asks for, and a
store stays well typed whatever is defined.
-/

namespace WasmHost

open World

/-- An item as an embedder can have it from a store: the object is there, and the elements of a
table are of the kind that the item says. -/
def World.IsGenuine (w : World) : Item → Prop
  | .func a => a < w.store.funcs.size
  | .global a => a < w.store.globals.size
  | .table a t => ∃ x, w.store.tables[a]? = some x ∧ x.element = t.element
  | .memory a _ => a < w.store.memories.size
  | .instance a => a < w.store.instances.size
  | .module _ => True

/-- A definition that is an item of a store is genuine, and of the type that is noted. -/
def Definition.Genuine (w : World) : Definition → Prop
  | .item i t => w.IsGenuine i ∧ w.Provides t i
  | .host .. | .wasi _ => True

/-- All definitions of a linker are genuine. -/
def Linker.Genuine (w : World) (l : Linker) : Prop := ∀ n d, l.find? n = some d → d.Genuine w

variable {w w' : World} {i : Item} {t own : ItemType}

/-! ## Genuine items -/

/-- What an export stands for is genuine. -/
theorem Instance.Linked.genuine {x : Instance} (h : x.Linked w) {e : Wasm.Export}
    (he : e ∈ x.module.module.exports) : w.IsGenuine (x.exported e) := by
  obtain ⟨f, valid⟩ := h.compiled.valid
  obtain ⟨t, ht⟩ := Option.isSome_iff_exists.mp (valid.checks.exports e he)
  obtain ⟨a, ha, hhas⟩ := h.items e.kind e.index t ht
  have haddr : (x.addrs e.kind).getD e.index 0 = a := by
    rw [Array.getD_eq_getD_getElem?, ha, Option.getD_some]
  cases hk : e.kind <;> simp only [hk, Wasm.Module.itemType?, Option.map_eq_some_iff] at ht <;>
    obtain ⟨own, hown, rfl⟩ := ht <;> rw [hk] at haddr <;>
    simp only [Instance.exported, exportItem, hk]
  case func =>
    obtain ⟨f, hf, -⟩ := hhas
    exact haddr ▸ (Array.getElem?_eq_some_iff.mp hf).1
  case global =>
    obtain ⟨g, hg, -⟩ := hhas
    exact haddr ▸ (Array.getElem?_eq_some_iff.mp hg).1
  case table =>
    rw [List.getD_eq_getElem?_getD, hown, Option.getD_some]
    exact haddr ▸ hhas
  case memory => exact haddr ▸ hhas

namespace World

theorem IsGenuine.extends (h : w.IsGenuine i) (hw : w.Extends w') : w'.IsGenuine i := by
  cases i with
  | func a =>
      obtain ⟨_, hf, -⟩ := hw.funcs a _ (Array.getElem?_eq_getElem h)
      exact (Array.getElem?_eq_some_iff.mp hf).1
  | global a =>
      obtain ⟨_, hg, -⟩ := hw.globals a _ (Array.getElem?_eq_getElem h)
      exact (Array.getElem?_eq_some_iff.mp hg).1
  | table a t =>
      obtain ⟨x, hx, helement⟩ := h
      obtain ⟨x', hx', hbecomes⟩ := hw.tables a x hx
      exact ⟨x', hx', hbecomes.element.trans helement⟩
  | memory a t =>
      obtain ⟨_, hm, -⟩ := hw.memories a _ (Array.getElem?_eq_getElem h)
      exact (Array.getElem?_eq_some_iff.mp hm).1
  | «instance» a =>
      obtain ⟨_, hi, -⟩ := hw.instances a _ (Array.getElem?_eq_getElem h)
      exact (Array.getElem?_eq_some_iff.mp hi).1
  | module m => trivial

theorem IsGenuine.provides (h : w.IsGenuine i) (ht : w.currentType? i = some t) :
    w.Provides t i := by
  cases i with
  | func a =>
      obtain ⟨f, hf, rfl⟩ := Option.map_eq_some_iff.mp ht
      exact ⟨a, rfl, f, hf, rfl⟩
  | global a =>
      cases ht
      refine ⟨a, rfl, w.store.globals[a], Array.getElem?_eq_getElem h, ?_⟩
      rw [globalType, Array.getElem?_eq_getElem h]
      rfl
  | table a t =>
      cases ht
      exact ⟨a, rfl, h⟩
  | memory a t =>
      cases ht
      exact ⟨a, rfl, h⟩
  | «instance» | module => cases ht

/-- What is of a type is of every type that it fits. -/
theorem Provides.of_fit (h : w.Provides own i) (hfit : t.fit own = .ok ()) : w.Provides t i := by
  obtain ⟨a, ha, hhas⟩ := h
  cases t with
  | func t =>
      obtain rfl := ItemType.fit_func_iff.mp hfit
      exact ⟨a, ha, hhas⟩
  | global t =>
      obtain ⟨⟨_, _⟩, rfl, rfl, rfl⟩ := ItemType.fit_global_iff.mp hfit
      exact ⟨a, ha, hhas⟩
  | table t =>
      obtain ⟨p, rfl, helement, -⟩ := ItemType.fit_table_iff.mp hfit
      obtain ⟨x, hx, hown⟩ := hhas
      exact ⟨a, ha, x, hx, hown.trans helement⟩
  | memory t =>
      obtain ⟨p, rfl, -⟩ := ItemType.fit_memory_iff.mp hfit
      exact ⟨a, ha, hhas⟩

/-- Items that pass the checks of the imports are provided for them. -/
theorem providesAll_of_checks {m : CompiledModule} {items : List Item}
    (genuine : ∀ i ∈ items, w.IsGenuine i)
    (kinds : positionalError? m.signature.imports items = none)
    (fits : w.fit m.signature.imports items = .ok ()) : w.ProvidesAll m items := by
  have hkinds := kinds_of_positionalError? kinds
  unfold fit at fits
  rw [fitTypes_ok_iff (by rw [List.length_map, hkinds.length_eq]), List.forall₂_map_right_iff]
    at fits
  clear kinds
  unfold ProvidesAll
  generalize m.signature.imports = imports at hkinds fits ⊢
  induction hkinds with
  | nil => exact .nil
  | @cons x item imports items hkind _ ih =>
      obtain ⟨hitem, hitems⟩ := List.forall_mem_cons.mp genuine
      cases fits with
      | cons hfit hfits =>
          refine .cons ?_ (ih hitems hfits)
          obtain ⟨own, hown⟩ : ∃ own, w.currentType? item = some own := by
            cases item with
            | func a =>
                refine ⟨.func w.store.funcs[a].type, ?_⟩
                simp [currentType?, itemType?, Array.getElem?_eq_getElem hitem]
            | global | table | memory => exact ⟨_, rfl⟩
            | «instance» | module =>
                cases hk : x.type.kind <;> simp [hk, Item.kindName, ItemKind.name] at hkind
          rw [hown, Option.getD_some] at hfit
          exact (hitem.provides hown).of_fit hfit

end World

/-! ## Genuine definitions -/

theorem Definition.Genuine.extends {d : Definition} (h : d.Genuine w) (hw : w.Extends w') :
    d.Genuine w' := by
  cases d with
  | item i t => exact ⟨h.1.extends hw, h.2.extends hw⟩
  | host | wasi => trivial

theorem Linker.Genuine.extends {l : Linker} (h : l.Genuine w) (hw : w.Extends w') : l.Genuine w' :=
  fun n d hd => (h n d hd).extends hw

theorem World.provides_newFunc (w : World) (type : FuncType) (body : FuncBody) :
    (w.newFunc type body).2.Provides (.func type) (.func (w.newFunc type body).1) :=
  ⟨_, rfl, ⟨type, body⟩, Array.getElem?_push_size, rfl⟩

theorem World.genuine_newFunc (w : World) (type : FuncType) (body : FuncBody) :
    (w.newFunc type body).2.IsGenuine (.func (w.newFunc type body).1) := by
  simp [IsGenuine, newFunc, mapStore]

namespace Definition

/-- The item of a definition has the type of the definition. -/
theorem typed_toItem {d : Definition} (hw : w.Typed) (h : d.Genuine w) :
    (d.toItem w).2.Typed ∧ w.Extends (d.toItem w).2 ∧
      (d.toItem w).2.IsGenuine (d.toItem w).1 ∧
        (d.toItem w).2.Provides d.type (d.toItem w).1 := by
  cases d with
  | item i t => exact ⟨hw, .refl w, h⟩
  | host type ops id =>
      exact ⟨hw.shareHostFunc type ops id, extends_shareHostFunc w type ops id,
        genuine_newFunc _ type _, provides_newFunc _ type _⟩
  | wasi g =>
      exact ⟨hw.newFunc rfl, extends_newFunc w _ _, genuine_newFunc w g.type _,
        provides_newFunc w g.type _⟩

/-- The items of definitions have the types of the definitions, one by one. -/
theorem typed_toItems {ds : List Definition} (hw : w.Typed) (h : ∀ d ∈ ds, d.Genuine w) :
    (toItems ds w).2.Typed ∧ w.Extends (toItems ds w).2 ∧
      List.Forall₂ (fun d i => (toItems ds w).2.Provides d.type i) ds (toItems ds w).1 := by
  induction ds generalizing w with
  | nil => exact ⟨hw, .refl w, .nil⟩
  | cons d ds ih =>
      obtain ⟨hd, hds⟩ := List.forall_mem_cons.mp h
      obtain ⟨htyped, hext, -, hprovides⟩ := typed_toItem hw hd
      obtain ⟨hrest, hgrown, hall⟩ := ih htyped fun e he => (hds e he).extends hext
      exact ⟨hrest, hext.trans hgrown, .cons (hprovides.extends hgrown) hall⟩

/-- The item of a definition has the type that the definition had before. -/
theorem provides_currentType {d : Definition} (h : d.Genuine w) (hw : w.Extends w') :
    (d.toItem w').2.Provides (d.currentType w) (d.toItem w').1 := by
  cases d with
  | item i t =>
      refine (World.Provides.extends ?_ hw : w'.Provides _ i)
      rw [currentType]
      cases ht : w.currentType? i with
      | some own => exact h.1.provides ht
      | none => exact h.2
  | host type ops id => exact provides_newFunc _ type _
  | wasi g => exact provides_newFunc w' g.type _

theorem provides_currentTypes {ds : List Definition} (h : ∀ d ∈ ds, d.Genuine w)
    (hw' : w'.Typed) (hw : w.Extends w') :
    List.Forall₂ (fun d i => (toItems ds w').2.Provides (d.currentType w) i) ds
      (toItems ds w').1 := by
  induction ds generalizing w' with
  | nil => exact .nil
  | cons d ds ih =>
      obtain ⟨hd, hds⟩ := List.forall_mem_cons.mp h
      obtain ⟨htyped, hext, -⟩ := typed_toItem hw' (hd.extends hw)
      have hgrown := (typed_toItems htyped fun e he => (hds e he).extends (hw.trans hext)).2.1
      exact .cons ((provides_currentType hd hw).extends hgrown) (ih hds htyped (hw.trans hext))

end Definition

namespace Linker

variable {l l' : Linker}

theorem genuine_of_resolve {m : CompiledModule} {type : Definition → ItemType}
    {ds : List Definition} (hl : l.Genuine w) (h : l.resolve m type = .ok ds) :
    ∀ d ∈ ds, d.Genuine w := by
  intro d hd
  obtain ⟨n, hn⟩ := exists_find?_of_resolve h d hd
  exact hl n d hn

/-- Items of the types that definitions were found with are provided for the imports. -/
theorem providesAll_of_types {m : CompiledModule} {type : Definition → ItemType}
    {ds : List Definition} {items : List Item} (h : l.resolve m type = .ok ds)
    (hitems : List.Forall₂ (fun d i => w.Provides (type d) i) ds items) : w.ProvidesAll m items := by
  obtain ⟨hfound, hfit⟩ := resolve_ok h
  rw [fitTypes_ok_iff (by rw [List.length_map, hfound.length_eq]), List.forall₂_map_right_iff]
    at hfit
  unfold World.ProvidesAll
  generalize m.signature.imports = imports at hfit ⊢
  clear h hfound
  induction hfit generalizing items with
  | nil =>
      cases hitems
      exact .nil
  | cons hfit _ ih =>
      cases hitems with
      | cons hitem hitems => exact .cons (hitem.of_fit hfit) (ih hitems)

/-- What is found for the imports of a command has the types that its module asks for. -/
theorem providesAll_of_resolve {m : CompiledModule} {ds : List Definition} (hw : w.Typed)
    (hl : l.Genuine w) (h : l.resolve m Definition.type = .ok ds) :
    (Definition.toItems ds w).2.ProvidesAll m (Definition.toItems ds w).1 :=
  providesAll_of_types h (Definition.typed_toItems hw (genuine_of_resolve hl h)).2.2

/-- What is found for the imports of a module has the types that it has now. -/
theorem providesAll_of_currentTypes {m : CompiledModule} {ds : List Definition} (hw : w.Typed)
    (hl : l.Genuine w) (h : l.resolve m (·.currentType w) = .ok ds) :
    (Definition.toItems ds w).2.ProvidesAll m (Definition.toItems ds w).1 :=
  providesAll_of_types h (Definition.provides_currentTypes (genuine_of_resolve hl h) hw (.refl w))

theorem Genuine.insert {n : LinkName} {d : Definition} (hl : l.Genuine w) (hd : d.Genuine w) :
    (l.insert n d).Genuine w := by
  intro k e he
  by_cases hk : k = n
  · rw [hk, find?_insert_self] at he
    cases he
    exact hd
  · rw [find?_insert_of_ne hk] at he
    exact hl k e he

theorem Genuine.taken {ds : List (LinkName × Definition)} (hl : l.Genuine w)
    (hds : ∀ e ∈ ds, e.2.Genuine w) : (l.insertAll (l.taken ds)).Genuine w := by
  intro n d hd
  rw [find?_insertAll] at hd
  rcases Option.or_eq_some_iff.mp hd with hnew | ⟨-, hold⟩
  · exact hds _ (mem_of_mem_taken (mem_of_latest? hnew))
  · exact hl n d hold

theorem genuine_exportDefinitions {module : String} {addr : InstanceAddr} (hw : w.Typed)
    {e : LinkName × Definition} (he : e ∈ exportDefinitions module addr w) : e.2.Genuine w := by
  obtain ⟨⟨name, item⟩, hmem, he⟩ := List.mem_filterMap.mp he
  obtain ⟨type, htype, rfl⟩ := Option.map_eq_some_iff.mp he
  cases hi : w.store.instances[addr]? with
  | none => simp [hi] at hmem
  | some i =>
      have linked := hw.instances i (Array.mem_of_getElem? hi)
      obtain ⟨f, valid⟩ := linked.compiled.valid
      simp only [hi, Option.map_some, Option.getD_some, linked.exports] at hmem
      obtain ⟨x, hx, heq⟩ := List.mem_map.mp hmem
      obtain rfl : i.exported x = item := congrArg Prod.snd heq
      have hgenuine := linked.genuine hx
      exact ⟨hgenuine, hgenuine.provides htype⟩

/-- The functions of a command are well typed, and their definitions genuine. -/
theorem typed_defineCommand {module : String} {m : CompiledModule} {es : List ExportType}
    (hw : w.Typed) (hl : l.Genuine w) (compiled : m.IsCompiled)
    (hes : ∀ e ∈ es, e ∈ m.signature.exports) :
    (defineCommand module m es l w).2.2.Typed ∧
      w.Extends (defineCommand module m es l w).2.2 ∧
        (defineCommand module m es l w).2.1.Genuine (defineCommand module m es l w).2.2 := by
  induction es generalizing l w with
  | nil => exact ⟨hw, .refl w, hl⟩
  | cons e es ih =>
      obtain ⟨he, hes⟩ := List.forall_mem_cons.mp hes
      simp only [defineCommand]
      cases htype : e.type with
      | func type =>
          cases hr : l.resolve m Definition.type with
          | error reason => exact ⟨hw, .refl w, hl⟩
          | ok ds =>
              obtain ⟨hv, hext, -⟩ := Definition.typed_toItems hw (genuine_of_resolve hl hr)
              have provided := providesAll_of_resolve hw hl hr
              dsimp only
              generalize (Definition.toItems ds w).2 = v at hv hext provided ⊢
              generalize (Definition.toItems ds w).1 = items at provided ⊢
              have hnew : (v.newFunc type (.command m items e.name)).2.Typed :=
                hv.newFunc ⟨compiled, provided, e, he, rfl, htype⟩
              have hgrown := hext.trans (extends_newFunc v type (.command m items e.name))
              have hdefined : Definition.Genuine (v.newFunc type (.command m items e.name)).2
                  (.item (.func (v.newFunc type (.command m items e.name)).1) (.func type)) :=
                ⟨genuine_newFunc v type _, provides_newFunc v type _⟩
              -- the name may be taken; the function stays in the store even so
              split
              · rename_i p shared hdefine
                obtain rfl : p = _ := (define_linker hdefine).2
                have hkept := (hl.extends hgrown).insert (n := ⟨module, e.name⟩) hdefined
                have hshared : ({ (v.newFunc type (.command m items e.name)).2 with shared } :
                    World).objects = (v.newFunc type (.command m items e.name)).2.objects := rfl
                obtain ⟨htyped, hrest, hgenuine⟩ :=
                  ih (hnew.of_objects hshared) (hkept.extends (.of_objects hshared)) hes
                exact ⟨htyped, (hgrown.trans (.of_objects hshared)).trans hrest, hgenuine⟩
              · exact ⟨hnew, hgrown, hl.extends hgrown⟩
      | global | table | memory =>
          dsimp only
          split
          · exact ih hw hl hes
          · exact ⟨hw, .refl w, hl⟩

end Linker

namespace LinkerCall

/-- The item that an operation defines is genuine. -/
def Genuine (w : World) : LinkerCall → Prop
  | define _ item => w.IsGenuine item
  | _ => True

theorem genuine_settle {l : Linker} {n : LinkName} {d : Definition} {s : Shared} (hw : w.Typed)
    (hl : l.Genuine w) (hd : d.Genuine w) :
    (settle l w ((l.define n d s).mapError .link)).2.2.Typed ∧
      w.Extends (settle l w ((l.define n d s).mapError .link)).2.2 ∧
        (settle l w ((l.define n d s).mapError .link)).2.1.Genuine
          (settle l w ((l.define n d s).mapError .link)).2.2 := by
  cases h : l.define n d s with
  | ok p =>
      obtain ⟨l', s'⟩ := p
      obtain rfl : l' = _ := (Linker.define_linker h).2
      have hobjects : ({ w with shared := s' } : World).objects = w.objects := rfl
      exact ⟨hw.of_objects hobjects, .of_objects hobjects,
        (hl.insert hd).extends (.of_objects hobjects)⟩
  | error e => exact ⟨hw, .refl w, hl⟩

/-- Operations on a linker that run no code keep its definitions genuine, and the store well typed.
-/
theorem typed_run {c : LinkerCall} {l l' : Linker} {r : Except Failure Unit} (hw : w.Typed)
    (hl : l.Genuine w) (plain : c.IsPlain) (genuine : c.Genuine w)
    (h : c.run l w = some (r, l', w')) : w'.Typed ∧ w.Extends w' ∧ l'.Genuine w' := by
  have hshared (s : Shared) : ({ w with shared := s } : World).objects = w.objects := rfl
  cases c with
  | allowShadowing allow =>
      cases h
      exact ⟨hw, .refl w, hl⟩
  | define n item =>
      simp only [run, Option.some.injEq] at h
      unfold Linker.defineItem at h
      split at h
      · rename_i type htype
        have hsettled := genuine_settle (n := n) (d := .item item type) (s := w.shared) hw hl
          ⟨genuine, World.IsGenuine.provides genuine htype⟩
        rwa [h] at hsettled
      · cases h
        exact ⟨hw, .refl w, hl⟩
  | defineFunc n type ops =>
      simp only [run, Linker.defineFunc, Option.some.injEq] at h
      have hsettled := genuine_settle (n := n)
        (d := .host type ops (w.shared.newClosure ops).1) (s := (w.shared.newClosure ops).2) hw hl
        trivial
      rwa [h] at hsettled
  | defineInstance module addr =>
      simp only [run, Option.some.injEq, Prod.mk.injEq] at h
      obtain ⟨-, rfl, rfl⟩ := h
      refine ⟨hw.of_objects (hshared _), .of_objects (hshared _), ?_⟩
      rw [Linker.defineInstance_linker]
      exact (hl.taken fun e he => Linker.genuine_exportDefinitions hw he).extends
        (.of_objects (hshared _))
  | defineWasi =>
      simp only [run, Option.some.injEq, Prod.mk.injEq] at h
      obtain ⟨-, rfl, rfl⟩ := h
      refine ⟨hw.of_objects (hshared _), .of_objects (hshared _), ?_⟩
      rw [Linker.defineWasi_linker]
      refine (hl.taken fun e he => ?_).extends (.of_objects (hshared _))
      obtain ⟨g, -, rfl⟩ := List.mem_map.mp he
      trivial
  | defineModule limit module m =>
      obtain ⟨hrole, compiled⟩ := plain
      simp only [run, Linker.defineModule, hrole] at h
      cases h
      exact Linker.typed_defineCommand hw hl compiled fun e he => he

end LinkerCall

end WasmHost

import WasmHost.Proofs.Linker.Matching
import WasmHost.Proofs.Machine.Accounts
import WasmHost.Proofs.Machine.Escapes

/-!
# The functions that linkers make

A linker adds functions of the system interface and functions of commands to a store. The first have
the types that the interface lists; a command has the imports that its module asks for, and each of
its functions the type of an export of the module. No operation of a session breaks that.
-/

namespace WasmHost

open World

/-- A function of the system interface is as it is listed. A function of a command goes to an export
of its type, and the items for the imports of the module suit it. -/
def Func.Signed (w : World) (f : Func) : Prop :=
  match f.body with
  | .wasi g => f.type = g.type ∧ g ∈ Wasi.functions
  | .command m items entry =>
    w.Supplies m items ∧ ∃ e ∈ m.signature.exports, e.name = entry ∧ e.type = .func f.type
  | .code .. | .host _ | .idle => True

/-- The functions of a store are in order. -/
def World.Signed (w : World) : Prop := ∀ f ∈ w.store.funcs, f.Signed w

/-- A store has changed, and the functions that were added to it are in order. -/
structure World.Signs (w w' : World) : Prop where
  grown : w.Extends w'
  added : ∀ f ∈ w'.store.funcs, f ∈ w.store.funcs ∨ f.Signed w'

variable {w w' w'' : World}

theorem Func.Signed.extends {f : Func} (h : f.Signed w) (hw : w.Extends w') : f.Signed w' := by
  unfold Func.Signed at h ⊢
  split
  · rename_i g hbody
    rwa [hbody] at h
  · rename_i m items entry hbody
    rw [hbody] at h
    exact ⟨h.1.extends hw, h.2⟩
  · trivial
  · trivial
  · trivial

/-- Every function of the system interface takes or gives something. -/
theorem Wasi.type_ne_empty {g : Wasi.Func} (h : g ∈ Wasi.functions) : g.type ≠ ⟨[], []⟩ := by
  revert g
  simp [functions, signatureOf]

namespace World.Signs

theorem refl (w : World) : w.Signs w := ⟨.refl w, fun _ hf => .inl hf⟩

theorem trans (h : w.Signs w') (h' : w'.Signs w'') : w.Signs w'' := by
  refine ⟨h.grown.trans h'.grown, fun f hf => ?_⟩
  rcases h'.added f hf with hold | hnew
  · exact (h.added f hold).imp_right fun hnew => hnew.extends h'.grown
  · exact .inr hnew

theorem of_funcs (hw : w.Extends w') (h : w'.store.funcs = w.store.funcs) : w.Signs w' :=
  ⟨hw, fun _ hf => .inl (h ▸ hf)⟩

theorem of_accounts (hw : w.Extends w') (h : w'.accounts = w.accounts) : w.Signs w' :=
  of_funcs hw (congrArg (·.funcs) h)

theorem of_append {fs : Array Func} (hw : w.Extends w')
    (h : w'.store.funcs = w.store.funcs ++ fs) (hfs : ∀ f ∈ fs, f.Signed w') : w.Signs w' := by
  refine ⟨hw, fun f hf => ?_⟩
  rw [h, Array.mem_append] at hf
  exact hf.imp_right (hfs f)

/-- The function that is added has the given type and body. -/
theorem newFunc (w : World) (type : FuncType) (body : FuncBody)
    (h : Func.Signed (w.newFunc type body).2 ⟨type, body⟩) : w.Signs (w.newFunc type body).2 := by
  refine of_append (extends_newFunc w type body) Array.push_eq_append fun f hf => ?_
  rw [Array.mem_singleton.mp hf]
  exact h

/-- Code of a module is always in order. -/
theorem of_newFuncs {m : CompiledModule} {owner : InstanceAddr} (hw : w.Extends w')
    (h : w'.store.funcs = w.store.funcs ++ m.newFuncs owner) : w.Signs w' := by
  refine of_append hw h fun f hf => ?_
  obtain ⟨c, -, rfl⟩ := Array.mem_map.mp hf
  trivial

theorem of_brings {fs : Array Func} (hw : w.Extends w') (hfs : w.Brings fs)
    (h : w'.store.funcs = w.store.funcs ++ fs) : w.Signs w' := by
  cases hfs with
  | nothing => exact of_funcs hw (h.trans (Array.append_empty ..))
  | command known owner => exact of_newFuncs hw h

theorem signed (h : w.Signs w') (hw : w.Signed) : w'.Signed := by
  intro f hf
  rcases h.added f hf with hold | hnew
  · exact (hw f hold).extends h.grown
  · exact hnew

end World.Signs

/-! ## Runs and instances -/

theorem World.signs_instantiate (m : CompiledModule) (items : List Item) (w : World) :
    w.Signs (w.instantiate m items).2 := by
  have hw := (alters_instantiate m items w).extends_
  rcases accounts_instantiate m items w with h | ⟨owner, h⟩
  · exact .of_accounts hw h
  · exact .of_newFuncs hw (congrArg (·.funcs) h)

namespace Machine

variable {m m' : Machine} {limit : Nat} {r : Except Fault (List StoreVal)}

theorem signs_step (hs : m.Steps m') : m.world.Signs m'.world := by
  obtain ⟨fs, hfs, h⟩ := (settles_step hs).funcs
  exact .of_brings (alters_step hs).extends_ hfs h

theorem signs_reaches (h : m.Reaches m') : m.world.Signs m'.world := by
  induction h with
  | refl => exact .refl _
  | tail _ hs ih => exact ih.trans (signs_step hs)

theorem signs_ends (h : m.Ends (r, w)) : m.world.Signs w := by
  obtain ⟨m', hr, he⟩ := h.reaches
  have hend : w = m'.world := step_end he
  rw [hend]
  exact signs_reaches hr

theorem signs_enter (w : World) (func : FuncAddr) (args : List StoreVal)
    (caller : Option InstanceAddr) : w.Signs ((idle w).enter func args caller).world := by
  obtain ⟨fs, hfs, h⟩ := grows_enter (idle w) rfl func args caller
  exact .of_brings (alters_enter (idle w) .refl _ _ _).extends_ hfs (congrArg (·.funcs) h)

theorem signs_call {func : FuncAddr} {args : List StoreVal} {caller : Option InstanceAddr}
    (h : ((idle w).enter func args caller).Ends (r, w')) : w.Signs w' :=
  (signs_enter w func args caller).trans (signs_ends h)

end Machine

namespace World

variable {limit : Nat}

theorem signs_callOr {otherwise : String → Error} {func : FuncAddr} {args : List HostVal}
    {r : Except Failure (List HostVal)}
    (h : w.callOr otherwise limit func args = some (r, w')) : w.Signs w' := by
  unfold callOr at h
  split at h
  · cases h
    exact .refl w
  · have htaken : w.Signs ((w.acceptAll args).2.exposeAll (w.acceptAll args).1) :=
      .of_accounts ((Extends.of_objects (objects_acceptAll args w)).then_objects
        (objects_exposeAll _ _)) (by simp)
    obtain ⟨⟨r₀, w₀⟩, hrun, h⟩ := Option.map_eq_some_iff.mp h
    have hended := htaken.trans (Machine.signs_call ⟨limit, hrun⟩)
    dsimp only at h
    split at h <;> cases h
    · refine hended.trans (.of_accounts ?_ (by simp))
      exact (Extends.of_objects (objects_revealAll _ _)).then_objects (objects_unholdAll _ _)
    · exact hended.trans (.of_accounts (.of_objects (objects_unholdAll _ _)) (by simp))

/-- A new instance is refused, or is there at once, or waits for its start function. -/
theorem newInstance_cases (m : CompiledModule) (items : List Item) (w : World) :
    (∃ c w₁, w.instantiate m items = (.error c, w₁) ∧ ∀ limit,
      w.newInstance limit m items = some (.error (Fault.failure .link { cause := c }), w₁)) ∨
    ∃ addr w₁, w.instantiate m items = (.ok addr, w₁) ∧
      ((w₁.startFunc? addr = none ∧ ∀ limit, w.newInstance limit m items = some (.ok addr, w₁)) ∨
      ∃ func, w₁.startFunc? addr = some func ∧ ∀ limit, w.newInstance limit m items =
        (((Machine.idle w₁).enter func [] (some addr)).run limit).map fun (r, w) =>
          ((r.map fun _ => addr).mapError (·.failure .link), w)) := by
  cases hm : w.instantiate m items with
  | mk r w₁ =>
      cases r with
      | error c => exact .inl ⟨c, w₁, rfl, fun limit => by simp only [newInstance, hm]⟩
      | ok addr =>
          refine .inr ⟨addr, w₁, rfl, ?_⟩
          cases hs : w₁.startFunc? addr with
          | none => exact .inl ⟨rfl, fun limit => by simp only [newInstance, hm, hs]⟩
          | some func =>
              refine .inr ⟨func, rfl, fun limit => ?_⟩
              simp only [newInstance, hm, hs]
              congr 1
              funext p
              obtain ⟨r, w₂⟩ := p
              cases r <;> rfl

/-- Items in order are refused before anything else happens, or go on to a new instance. -/
theorem instantiateWith_cases (m : CompiledModule) (items : List Item) (w : World) :
    (¬(positionalError? m.signature.imports items = none ∧
        w.fit m.signature.imports items = .ok ()) ∧
      ∃ reason, ∀ limit,
        w.instantiateWith limit m items = some (.error (.error (.link reason)), w)) ∨
    positionalError? m.signature.imports items = none ∧
      w.fit m.signature.imports items = .ok () ∧
        ∀ limit, w.instantiateWith limit m items = w.newInstance limit m items := by
  cases kinds : positionalError? m.signature.imports items with
  | some reason =>
      exact .inl ⟨by simp, reason, fun limit => by simp only [instantiateWith, kinds]⟩
  | none =>
      cases fits : w.fit m.signature.imports items with
      | error reason =>
          exact .inl ⟨by simp, reason, fun limit => by simp only [instantiateWith, kinds, fits]⟩
      | ok => exact .inr ⟨rfl, rfl, fun limit => by simp only [instantiateWith, kinds, fits]⟩

theorem signs_newInstance {m : CompiledModule} {items : List Item}
    {r : Except Failure InstanceAddr} (h : w.newInstance limit m items = some (r, w')) :
    w.Signs w' := by
  have hmade := signs_instantiate m items w
  rcases newInstance_cases m items w with ⟨c, w₁, hm, hanswer⟩ | ⟨addr, w₁, hm, hrest⟩
  · rw [hm] at hmade
    rw [hanswer] at h
    cases h
    exact hmade
  · rw [hm] at hmade
    rcases hrest with ⟨-, hanswer⟩ | ⟨func, -, hanswer⟩
    · rw [hanswer] at h
      cases h
      exact hmade
    · rw [hanswer] at h
      obtain ⟨⟨r, w₂⟩, hrun, h⟩ := Option.map_eq_some_iff.mp h
      cases h
      exact hmade.trans (Machine.signs_call ⟨limit, hrun⟩)

theorem signs_instantiateWith {m : CompiledModule} {items : List Item}
    {r : Except Failure InstanceAddr} (h : w.instantiateWith limit m items = some (r, w')) :
    w.Signs w' := by
  rcases instantiateWith_cases m items w with ⟨-, reason, hrefused⟩ | ⟨-, -, hnew⟩
  · rw [hrefused] at h
    cases h
    exact .refl w
  · rw [hnew] at h
    exact signs_newInstance h

theorem signs_runInitialize {addr : InstanceAddr} {r : Except Failure Unit}
    (h : w.runInitialize limit addr = some (r, w')) : w.Signs w' := by
  unfold runInitialize at h
  split at h
  · cases h
    exact .refl w
  · split at h
    · cases h
      exact .refl w
    · obtain ⟨⟨r₀, w₀⟩, hcall, h⟩ := Option.map_eq_some_iff.mp h
      cases h
      exact signs_callOr hcall

end World

/-- What an embedder does to a store adds no function that is out of order. -/
theorem World.Step.signs (h : w.Step w') : w.Signs w' := by
  have hext := h.extends
  cases h with
  | shared s => exact .of_funcs hext rfl
  | newHostFunc type ops => exact .of_append hext Array.push_eq_append (by simp [Func.Signed])
  | newGlobal done => exact .of_accounts hext (accounts_newGlobal done)
  | getGlobal addr => exact .of_accounts hext (accounts_reveal _ w)
  | setGlobal done => exact .of_accounts hext (accounts_setGlobal done)
  | newTable done => exact .of_accounts hext (accounts_newTable done)
  | getTable addr index => exact .of_accounts hext (accounts_getTable addr index w)
  | setTable done => exact .of_accounts hext (accounts_setTable done)
  | growTable addr delta v => exact .of_accounts hext (accounts_growTable addr delta v w)
  | newMemory done => exact .of_accounts hext (accounts_newMemory done)
  | growMemory done => exact .of_accounts hext (accounts_growMemory done)
  | writeMemory done => exact .of_accounts hext (accounts_writeMemory done)
  | callFunc done => exact signs_callOr done
  | instantiateWith done => exact signs_instantiateWith done
  | discard v => exact .of_accounts hext (accounts_discard v w)
  | collect => exact .of_accounts hext (accounts_collect [] w)
  | addFuel done => exact .of_funcs hext (congrArg Store.funcs (objects_addFuel done) :)
  | setWasi done => exact .of_accounts hext (accounts_setWasi done)

/-! ## Definitions -/

/-- A definition is in order: the item is one of its kind, a function one of its type. -/
def Definition.Signed (w : World) : Definition → Prop
  | .item i t => w.Suits t i
  | .wasi g => g ∈ Wasi.functions
  | .host .. => True

/-- All definitions of a linker are in order. -/
def Linker.Signed (w : World) (l : Linker) : Prop := ∀ n d, l.find? n = some d → d.Signed w

theorem Definition.Signed.extends {d : Definition} (h : d.Signed w) (hw : w.Extends w') :
    d.Signed w' := by
  cases d with
  | item => exact World.Suits.extends h hw
  | host | wasi => exact h

theorem Linker.Signed.extends {l : Linker} (h : l.Signed w) (hw : w.Extends w') : l.Signed w' :=
  fun n d hd => (h n d hd).extends hw

theorem World.suits_of_currentType? {i : Item} {t : ItemType} (h : w.currentType? i = some t) :
    w.Suits t i := by
  cases i with
  | func a =>
      obtain ⟨f, hf, rfl⟩ := Option.map_eq_some_iff.mp h
      exact ⟨f, hf, rfl⟩
  | global | table | memory =>
      cases h
      trivial
  | «instance» | module => cases h

/-- What is of a type suits whatever the type fits. -/
theorem World.Suits.of_fit {own wanted : ItemType} {i : Item} (h : w.Suits own i)
    (hfit : wanted.fit own = .ok ()) : w.Suits wanted i := by
  cases wanted with
  | func t =>
      obtain rfl := ItemType.fit_func_iff.mp hfit
      exact h
  | global | table | memory =>
      cases own <;> cases i <;> trivial

namespace Definition

theorem signs_toItem {d : Definition} (h : d.Signed w) :
    w.Signs (d.toItem w).2 ∧ (d.toItem w).2.Suits d.type (d.toItem w).1 := by
  cases d with
  | item i t => exact ⟨.refl w, h⟩
  | host type ops id =>
      refine ⟨.of_append (extends_shareHostFunc w type ops id) Array.push_eq_append ?_, ?_⟩
      · simp [Func.Signed]
      · exact ⟨⟨type, .host ops⟩, Array.getElem?_push_size, rfl⟩
  | wasi g =>
      refine ⟨.newFunc w g.type (.wasi g) ⟨rfl, h⟩, ?_⟩
      exact ⟨⟨g.type, .wasi g⟩, Array.getElem?_push_size, rfl⟩

/-- The items of definitions are of their types, one by one. -/
theorem signs_toItems {ds : List Definition} (h : ∀ d ∈ ds, d.Signed w) :
    w.Signs (toItems ds w).2 ∧
      List.Forall₂ (fun d i => (toItems ds w).2.Suits d.type i) ds (toItems ds w).1 := by
  induction ds generalizing w with
  | nil => exact ⟨.refl w, .nil⟩
  | cons d ds ih =>
      obtain ⟨hd, hds⟩ := List.forall_mem_cons.mp h
      obtain ⟨hfirst, hsuits⟩ := signs_toItem hd
      obtain ⟨hrest, hall⟩ := ih fun e he => (hds e he).extends hfirst.grown
      exact ⟨hfirst.trans hrest, .cons (hsuits.extends hrest.grown) hall⟩

end Definition

/-- What the definitions say of their types is enough for the imports. -/
theorem World.suits_of_fits {imports : List ImportType} {ds : List Definition} {items : List Item}
    (hfits : List.Forall₂ (fun i (d : Definition) => i.type.fit d.type = .ok ()) imports ds)
    (hsuits : List.Forall₂ (fun (d : Definition) i => w.Suits d.type i) ds items) :
    List.Forall₂ (fun (i : ImportType) item => w.Suits i.type item) imports items := by
  induction hfits generalizing items with
  | nil =>
      cases hsuits
      exact .nil
  | cons hfit _ ih =>
      cases hsuits with
      | cons hitem hitems => exact .cons (hitem.of_fit hfit) (ih hitems)

/-! ## Operations of linkers -/

namespace Linker

variable {limit : Nat} {l l' : Linker} {ds : List Definition}

theorem findAll_ok {imports : List ImportType} (h : l.findAll imports = .ok ds) :
    List.Forall₂ (fun i d => l.find? ⟨i.module, i.name⟩ = some d) imports ds := by
  induction imports generalizing ds with
  | nil =>
      cases h
      exact .nil
  | cons i is ih =>
      rw [findAll_cons] at h
      split at h
      · rename_i d hd
        cases hrest : l.findAll is with
        | error e => simp [hrest, Except.map] at h
        | ok rest =>
            simp only [hrest, Except.map, Except.ok.injEq] at h
            subst h
            exact .cons hd (ih hrest)
      · cases h

/-- What is resolved was found under the names of the imports, and its types fit. -/
theorem resolve_ok {m : CompiledModule} {typeOf : Definition → ItemType}
    (h : l.resolve m typeOf = .ok ds) :
    List.Forall₂ (fun i d => l.find? ⟨i.module, i.name⟩ = some d) m.signature.imports ds ∧
      fitTypes m.signature.imports (ds.map typeOf) = .ok () := by
  cases hall : l.findAll m.signature.imports with
  | error e =>
      simp only [resolve, hall] at h
      cases h
  | ok found =>
      rw [resolve_of_findAll hall] at h
      cases hfit : fitTypes m.signature.imports (found.map typeOf) with
      | error e =>
          rw [hfit] at h
          cases h
      | ok =>
          rw [hfit] at h
          cases h
          exact ⟨findAll_ok hall, hfit⟩

theorem exists_find?_of_resolve {m : CompiledModule} {typeOf : Definition → ItemType}
    (h : l.resolve m typeOf = .ok ds) : ∀ d ∈ ds, ∃ n, l.find? n = some d := by
  intro d hd
  obtain ⟨k, hk, rfl⟩ := List.getElem_of_mem hd
  have hfound := (resolve_ok h).1
  exact ⟨_, hfound.get (hfound.length_eq ▸ hk) hk⟩

theorem signed_of_resolve {m : CompiledModule} {typeOf : Definition → ItemType} (hl : l.Signed w)
    (h : l.resolve m typeOf = .ok ds) : ∀ d ∈ ds, d.Signed w := by
  intro d hd
  obtain ⟨n, hn⟩ := exists_find?_of_resolve h d hd
  exact hl n d hn

/-- The items that a command gets suit its module. -/
theorem supplies_of_resolve {m : CompiledModule} (hl : l.Signed w)
    (h : l.resolve m Definition.type = .ok ds) :
    (Definition.toItems ds w).2.Supplies m (Definition.toItems ds w).1 := by
  obtain ⟨hfound, hfit⟩ := resolve_ok h
  rw [fitTypes_ok_iff (by rw [List.length_map, hfound.length_eq]), List.forall₂_map_right_iff]
    at hfit
  exact World.suits_of_fits hfit (Definition.signs_toItems (signed_of_resolve hl h)).2

theorem signs_get? (hl : l.Signed w) (n : LinkName) : w.Signs (l.get? n w).2 := by
  unfold get?
  split
  · exact .refl w
  · rename_i d hd
    exact (Definition.signs_toItem (hl n d hd)).1

theorem signs_funcNamed? {n : LinkName} {refusal : String} {r : Except Error FuncAddr}
    (hl : l.Signed w) (h : l.funcNamed? n refusal w = some (r, w')) : w.Signs w' := by
  obtain ⟨d, hd, h⟩ := Option.map_eq_some_iff.mp h
  have hitem := (Definition.signs_toItem (hl n d hd)).1
  dsimp only at h
  split at h <;> cases h <;> exact hitem

theorem signs_getDefault (hl : l.Signed w) (module : String) :
    w.Signs (l.getDefault module w).2 := by
  unfold getDefault
  dsimp only
  split
  · rename_i r h
    rw [Option.orElse_eq_orElse, Option.orElse_eq_or] at h
    rcases Option.or_eq_some_iff.mp h with h | ⟨-, h⟩
    · exact signs_funcNamed? hl h
    · exact signs_funcNamed? hl h
  · exact .newFunc w _ _ trivial

theorem signs_instantiate {m : CompiledModule} {r : Except Failure InstanceAddr} (hl : l.Signed w)
    (h : l.instantiate limit m w = some (r, w')) : w.Signs w' := by
  unfold instantiate at h
  split at h
  · cases h
    exact .refl w
  · rename_i ds hds
    exact (Definition.signs_toItems (signed_of_resolve hl hds)).1.trans (signs_newInstance h)

/-! ### New definitions are in order -/

theorem Signed.insert {n : LinkName} {d : Definition} (hl : l.Signed w) (hd : d.Signed w) :
    (l.insert n d).Signed w := by
  intro k e he
  by_cases hk : k = n
  · rw [hk, find?_insert_self] at he
    cases he
    exact hd
  · rw [find?_insert_of_ne hk] at he
    exact hl k e he

/-- The functions of a command are in order, and so are their definitions. -/
theorem signs_defineCommand {module : String} {m : CompiledModule} {es : List ExportType}
    (hl : l.Signed w) (hes : ∀ e ∈ es, e ∈ m.signature.exports) :
    w.Signs (defineCommand module m es l w).2.2 ∧
      (defineCommand module m es l w).2.1.Signed (defineCommand module m es l w).2.2 := by
  induction es generalizing l w with
  | nil => exact ⟨.refl w, hl⟩
  | cons e es ih =>
      obtain ⟨he, hes⟩ := List.forall_mem_cons.mp hes
      simp only [defineCommand]
      cases htype : e.type with
      | func type =>
          cases hr : l.resolve m Definition.type with
          | error reason => exact ⟨.refl w, hl⟩
          | ok ds =>
              have hitems := (Definition.signs_toItems (signed_of_resolve hl hr)).1
              have hsupplies := supplies_of_resolve hl hr
              dsimp only
              generalize (Definition.toItems ds w).2 = v at hitems hsupplies ⊢
              generalize (Definition.toItems ds w).1 = items at hsupplies ⊢
              have hadded := extends_newFunc v type (.command m items e.name)
              have hnew : w.Signs (v.newFunc type (.command m items e.name)).2 :=
                hitems.trans (.newFunc v _ _ ⟨hsupplies.extends hadded, e, he, rfl, htype⟩)
              have hdefinition : Definition.Signed (v.newFunc type (.command m items e.name)).2
                  (.item (.func (v.newFunc type (.command m items e.name)).1) (.func type)) :=
                ⟨_, Array.getElem?_push_size, rfl⟩
              split
              · rename_i p shared hdefine
                obtain rfl : p = _ := (define_linker hdefine).2
                have hshared : (v.newFunc type (.command m items e.name)).2.Signs
                    { (v.newFunc type (.command m items e.name)).2 with shared } :=
                  .of_funcs (.of_objects rfl) rfl
                have hkept := (hl.extends hnew.grown).insert (n := ⟨module, e.name⟩) hdefinition
                have hrest := ih (hkept.extends hshared.grown) hes
                exact ⟨(hnew.trans hshared).trans hrest.1, hrest.2⟩
              · exact ⟨hnew, hl.extends hnew.grown⟩
      | global | table | memory =>
          dsimp only
          split
          · exact ih hl hes
          · exact ⟨.refl w, hl⟩

theorem signed_exportDefinitions {module : String} {addr : InstanceAddr}
    {e : LinkName × Definition} (h : e ∈ exportDefinitions module addr w) : e.2.Signed w := by
  obtain ⟨⟨name, item⟩, -, he⟩ := List.mem_filterMap.mp h
  obtain ⟨type, htype, rfl⟩ := Option.map_eq_some_iff.mp he
  exact World.suits_of_currentType? htype

theorem signed_wasiDefinitions (w : World) {e : LinkName × Definition}
    (h : e ∈ wasiDefinitions) : e.2.Signed w := by
  obtain ⟨g, hg, rfl⟩ := List.mem_map.mp h
  exact hg

theorem Signed.insertAll {ds : List (LinkName × Definition)} (hl : l.Signed w)
    (hds : ∀ e ∈ ds, e.2.Signed w) : (l.insertAll ds).Signed w := by
  intro n d hd
  rw [find?_insertAll] at hd
  rcases Option.or_eq_some_iff.mp hd with hnew | ⟨-, hold⟩
  · exact hds _ (mem_of_latest? hnew)
  · exact hl n d hold

theorem Signed.taken {ds : List (LinkName × Definition)} (hl : l.Signed w)
    (hds : ∀ e ∈ ds, e.2.Signed w) : (l.insertAll (l.taken ds)).Signed w :=
  hl.insertAll fun e he => hds e (mem_of_mem_taken he)

theorem signed_defineInstance (hl : l.Signed w) (module : String) (addr : InstanceAddr) :
    w.Signs (l.defineInstance module addr w).2.2 ∧
      (l.defineInstance module addr w).2.1.Signed (l.defineInstance module addr w).2.2 := by
  have hext : w.Extends (l.defineInstance module addr w).2.2 := .of_objects rfl
  refine ⟨.of_funcs hext rfl, ?_⟩
  rw [defineInstance_linker]
  exact (hl.taken fun e he => signed_exportDefinitions he).extends hext

theorem signed_defineReactor {module : String} {m : CompiledModule} {r : Except Failure Unit}
    (hl : l.Signed w) (h : l.defineReactor limit module m w = some (r, l', w')) :
    w.Signs w' ∧ l'.Signed w' := by
  rcases defineReactor_cases h with ⟨f, hi, -, rfl⟩ | ⟨addr, w₁, f, hi, hr, -, rfl⟩ |
    ⟨addr, w₁, w₂, hi, hr, -, hd⟩
  · have hmade := signs_instantiate hl hi
    exact ⟨hmade, hl.extends hmade.grown⟩
  · have hready := (signs_instantiate hl hi).trans (signs_runInitialize hr)
    exact ⟨hready, hl.extends hready.grown⟩
  · have hready := (signs_instantiate hl hi).trans (signs_runInitialize hr)
    have hdefined := signed_defineInstance (hl.extends hready.grown) module addr
    rw [hd] at hdefined
    exact ⟨hready.trans hdefined.1, hdefined.2⟩

end Linker

theorem LinkerCall.signed_settle {l : Linker} {n : LinkName} {d : Definition} {s : Shared}
    (hl : l.Signed w) (hd : d.Signed w) :
    w.Signs (settle l w ((l.define n d s).mapError .link)).2.2 ∧
      (settle l w ((l.define n d s).mapError .link)).2.1.Signed
        (settle l w ((l.define n d s).mapError .link)).2.2 := by
  cases h : l.define n d s with
  | ok p =>
      obtain ⟨l', s'⟩ := p
      obtain rfl : l' = _ := (Linker.define_linker h).2
      exact ⟨.of_funcs (.of_objects rfl) rfl, (hl.insert hd).extends (.of_objects rfl)⟩
  | error e => exact ⟨.refl w, hl⟩

/-- Operations on a linker keep it in order, and its store as well. -/
theorem LinkerCall.signed_run {c : LinkerCall} {l l' : Linker} {r : Except Failure Unit}
    (hl : l.Signed w) (h : c.run l w = some (r, l', w')) : w.Signs w' ∧ l'.Signed w' := by
  cases c with
  | allowShadowing allow =>
      cases h
      exact ⟨.refl w, hl⟩
  | define n item =>
      simp only [run, Option.some.injEq] at h
      unfold Linker.defineItem at h
      split at h
      · rename_i type htype
        have hsettled := signed_settle (n := n) (d := .item item type) (s := w.shared) hl
          (World.suits_of_currentType? htype)
        rwa [h] at hsettled
      · cases h
        exact ⟨.refl w, hl⟩
  | defineFunc n type ops =>
      simp only [run, Linker.defineFunc, Option.some.injEq] at h
      have hsettled := signed_settle (n := n)
        (d := .host type ops (w.shared.newClosure ops).1) (s := (w.shared.newClosure ops).2) hl
        trivial
      rwa [h] at hsettled
  | defineInstance module addr =>
      cases h
      exact Linker.signed_defineInstance hl module addr
  | defineWasi =>
      simp only [run, Option.some.injEq, Prod.mk.injEq] at h
      obtain ⟨-, rfl, rfl⟩ := h
      have hext : w.Extends { w with shared := (l.defineWasi w.shared).2.2 } := .of_objects rfl
      refine ⟨.of_funcs hext rfl, ?_⟩
      rw [Linker.defineWasi_linker]
      exact (hl.taken fun e he => Linker.signed_wasiDefinitions w he).extends hext
  | defineModule limit module m =>
      simp only [run, Linker.defineModule] at h
      split at h
      · cases h
        exact ⟨.refl w, hl⟩
      · exact Linker.signed_defineReactor hl h
      · cases h
        exact Linker.signs_defineCommand hl fun e he => he

/-! ## Sessions -/

namespace Session

/-- The functions of the store are in order, and so are the definitions of the linkers. -/
structure Signed (s : Session) : Prop where
  world : s.world.Signed
  linkers : ∀ l ∈ s.linkers, l.Signed s.world

theorem Signed.step {s s' : Session} (h : s.Signed) (step : s.Step s') : s'.Signed := by
  have grown {w' : World} (hw : s.world.Signs w') : Signed ⟨w', s.linkers⟩ :=
    ⟨hw.signed h.world, fun l hl => (h.linkers l hl).extends hw.grown⟩
  cases step with
  | world hw => exact grown hw.signs
  | newLinker w ls =>
      refine ⟨h.world, fun l hl => ?_⟩
      rcases List.mem_append.mp hl with hl | hl
      · exact h.linkers l hl
      · rw [List.mem_singleton.mp hl]
        intro n d hd
        cases hd
  | @linker w w' before after l l' c r done =>
      obtain ⟨hw, hl'⟩ := LinkerCall.signed_run (h.linkers l (by simp)) done
      refine ⟨hw.signed h.world, fun k hk => ?_⟩
      rcases List.mem_append.mp hk with hk | hk
      · exact (h.linkers k (List.mem_append_left _ hk)).extends hw.grown
      · rcases List.mem_cons.mp hk with rfl | hk
        · exact hl'
        · exact (h.linkers k (by simp [hk])).extends hw.grown
  | get n known => exact grown (Linker.signs_get? (h.linkers _ known) n)
  | getDefault module known => exact grown (Linker.signs_getDefault (h.linkers _ known) module)
  | instantiate known done => exact grown (Linker.signs_instantiate (h.linkers _ known) done)

/-- The functions and definitions of a session are in order at any time. -/
theorem Reachable.signed {s : Session} (h : s.Reachable) : s.Signed := by
  induction h with
  | start engine s =>
      refine ⟨fun f hf => ?_, fun l hl => by cases hl⟩
      cases Array.not_mem_empty f hf
  | step _ step ih => exact ih.step step

end Session

end WasmHost

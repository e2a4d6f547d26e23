import WasmHost.Proofs.Linker.Reactors
import WasmHost.Proofs.Machine.Calls

/-!
# Calls of commands are isolated

A function of a command makes an instance for each call, runs its start function and calls an export
of it. `World.FreshCall` is that sequence, each part of it a call of its own. A call of the function
ends as the sequence does, with the command itself at work beneath: what the command takes of the
stack is not there for the parts. The instance and all that it owns are new.
-/

namespace WasmHost

open World Machine

variable {w w' w₁ w₂ : World} {m : CompiledModule} {items : List Item} {owner : InstanceAddr}
  {entry : String} {args : List StoreVal} {base : List Activation} {n : Nat} {func : FuncAddr}
  {r : RunResult}

/-! ## Calls on new instances -/

/-- The start function of an instance runs above a stack, if there is one. -/
inductive World.StartEnds (w : World) (owner : InstanceAddr) (base : List Activation) (n : Nat) :
    RunResult → Prop
  | nothing (start : w.startFunc? owner = none) : StartEnds w owner base n (.ok [], w)
  | runs {func : FuncAddr} {r : RunResult} (start : w.startFunc? owner = some func)
      (call : w.CallEnds base n func [] (some owner) r) : StartEnds w owner base n r

/-- An export is called, above a stack that needs so many bytes, on an instance that is made for the
call. The arguments are held until it ends. -/
inductive World.FreshCall (w : World) (m : CompiledModule) (items : List Item) (entry : String)
    (args : List StoreVal) (base : List Activation) (n : Nat) : RunResult → Prop
  | refused {c : Cause} {w₁ : World}
      (made : (w.holdAll args).instantiate m items = (.error c, w₁)) :
      FreshCall w m items entry args base n
        (.error { cause := c, trace := (w₁.unholdAll args).trace base }, w₁.unholdAll args)
  | unstarted {owner : InstanceAddr} {f : Fault} {w₁ w₂ : World}
      (made : (w.holdAll args).instantiate m items = (.ok owner, w₁))
      (started : w₁.StartEnds owner base n (.error f, w₂)) :
      FreshCall w m items entry args base n (.error f, w₂.unholdAll args)
  | failed {owner : InstanceAddr} {func : FuncAddr} {vals : List StoreVal} {f : Fault}
      {w₁ w₂ w₃ : World} (made : (w.holdAll args).instantiate m items = (.ok owner, w₁))
      (started : w₁.StartEnds owner base n (.ok vals, w₂))
      (found : w₂.getExport owner entry = some (.func func))
      (call : (w₂.exposeAll args).CallEnds base n func args none (.error f, w₃)) :
      FreshCall w m items entry args base n (.error f, w₃.unholdAll args)
  | returned {owner : InstanceAddr} {func : FuncAddr} {vals results : List StoreVal}
      {w₁ w₂ w₃ : World} (made : (w.holdAll args).instantiate m items = (.ok owner, w₁))
      (started : w₁.StartEnds owner base n (.ok vals, w₂))
      (found : w₂.getExport owner entry = some (.func func))
      (call : (w₂.exposeAll args).CallEnds base n func args none (.ok results, w₃)) :
      FreshCall w m items entry args base n
        (.ok results, (w₃.exposeAll results).unholdAll args)

/-! ## Commands at work -/

section Commands

variable {f : CommandFrame} {m₁ : Machine}

/-- A command lets a fault go on. -/
theorem Machine.clears_command_fault {e : Fault} :
    Clears base ⟨w, .command f :: base, .of (.error e), n + Activation.hostSize⟩
        ⟨r.2, base, .of r.1, n⟩ ↔ r = (.error e, w.unholdAll f.held) := by
  have hstep : Steps ⟨w, .command f :: base, .of (.error e), n + Activation.hostSize⟩
      ⟨w.unholdAll f.held, base, .of (.error e), n⟩ := by
    simp only [Steps, Control.of, step, popActivation, Activation.size, Nat.add_sub_cancel]
  exact (Clears.step_iff (by simp) hstep).trans clears_ended_iff

/-- A command that has called its export gives back what the export gave. -/
theorem Machine.clears_command_back {vals : List StoreVal} (calling : f.stage = .calling) :
    Clears base ⟨w, .command f :: base, .of (.ok vals), n + Activation.hostSize⟩
        ⟨r.2, base, .of r.1, n⟩ ↔
      r = (.ok vals, (w.exposeAll vals).unholdAll f.held) := by
  have hstep : Steps ⟨w, .command f :: base, .of (.ok vals), n + Activation.hostSize⟩
      ⟨(w.exposeAll vals).unholdAll f.held, base, .of (.ok vals), n⟩ := by
    simp only [Steps, Control.of, step, commandResume, calling, if_true, popActivation,
      Activation.size, Nat.add_sub_cancel, giveBack]
  exact (Clears.step_iff (by simp) hstep).trans clears_ended_iff

/-- A command whose start function has run calls its export. -/
theorem Machine.clears_command_started {vals : List StoreVal} (starting : f.stage = .starting)
    (found : w.getExport f.owner f.entry = some (.func func)) :
    Clears base ⟨w, .command f :: base, .of (.ok vals), n⟩ m₁ ↔
      Clears base (enter func f.held none ⟨w.exposeAll f.held,
        .command { f with stage := .calling } :: base, .back vals, n⟩) m₁ := by
  refine Clears.step_iff (by simp) ?_
  simp only [Steps, Control.of, step, commandResume, starting, found]
  rfl

/-- A command first runs the start function of its instance. -/
theorem Machine.clears_command_run :
    Clears base ⟨w, .command f :: base, .run, n⟩ m₁ ↔
      ∃ r, w.StartEnds f.owner base n r ∧
        Clears base ⟨r.2, .command { f with stage := .starting } :: base, .of r.1, n⟩ m₁ := by
  have hstep : Steps ⟨w, .command f :: base, .run, n⟩
      (commandStep f base ⟨w, .command f :: base, .run, n⟩) := rfl
  refine (Clears.step_iff (by simp) hstep).trans ?_
  simp only [commandStep]
  cases hstart : w.startFunc? f.owner with
  | none =>
      constructor
      · exact fun h => ⟨(.ok [], w), .nothing hstart, h⟩
      · rintro ⟨r, hr, h⟩
        cases hr with
        | nothing => exact h
        | runs start => simp [hstart] at start
  | some func =>
      refine (clears_call_iff _ (by simp [Activation.kind])).trans ⟨?_, ?_⟩
      · rintro ⟨r, hcall, h⟩
        exact ⟨r, .runs hstart hcall, h⟩
      · rintro ⟨r, hr, h⟩
        cases hr with
        | nothing start => simp [hstart] at start
        | runs start call =>
            obtain rfl := Option.some.inj (hstart.symm.trans start)
            exact ⟨r, call, h⟩

end Commands

theorem World.CallEnds.extends {caller : Option InstanceAddr}
    (h : w.CallEnds base n func args caller r) : w.Extends r.2 :=
  (Machine.alters_answer (m := ⟨w, base, .run, n⟩) (Clears.reaches h)).extends_

theorem World.StartEnds.extends (h : w.StartEnds owner base n r) : w.Extends r.2 := by
  cases h with
  | nothing => exact .refl w
  | runs _ call => exact call.extends

/-- Where an instance cannot be made, the call fails with the fault of that. -/
theorem World.freshCall_of_refused {c : Cause}
    (made : (w.holdAll args).instantiate m items = (.error c, w₁)) :
    w.FreshCall m items entry args base n r ↔
      r = (.error { cause := c, trace := (w₁.unholdAll args).trace base }, w₁.unholdAll args) := by
  refine ⟨fun h => ?_, fun h => h ▸ .refused made⟩
  cases h with
  | refused made' =>
      obtain ⟨hc, rfl⟩ := Prod.mk.inj (made.symm.trans made')
      cases hc
      rfl
  | unstarted made' | failed made' | returned made' =>
      cases (Prod.mk.inj (made.symm.trans made')).1

/-- A call of a function of a command is one on an instance that is made for it, with the command
beneath. -/
theorem World.callEnds_command_iff {type : FuncType} {caller : Option InstanceAddr}
    (body : w.store.funcs[func]? = some ⟨type, .command m items entry⟩)
    (exported : ∀ {owner w₁ w₂}, (w.holdAll args).instantiate m items = (.ok owner, w₁) →
      w₁.Extends w₂ → ∃ g, w₂.getExport owner entry = some (.func g)) :
    w.CallEnds base n func args caller r ↔
      w.FreshCall m items entry args base (n + Activation.hostSize) r := by
  cases hmade : (w.holdAll args).instantiate m items with
  | mk made w₁ =>
      cases made with
      | error c =>
          have hentered : enter func args caller ⟨w, base, .run, n⟩ =
              ⟨w₁.unholdAll args, base,
                .of (.error { cause := c, trace := (w₁.unholdAll args).trace base }), n⟩ := by
            simp only [enter, body, hmade]
            rfl
          rw [freshCall_of_refused hmade, CallEnds, hentered, clears_ended_iff]
      | ok owner =>
          have hentered : enter func args caller ⟨w, base, .run, n⟩ =
              ⟨w₁, .command { owner, entry, held := args } :: base, .run,
                n + Activation.hostSize⟩ := by
            simp only [enter, body, hmade]
            rfl
          rw [CallEnds, hentered, clears_command_run]
          constructor
          · rintro ⟨⟨r₁, w₂⟩, hstart, hclears⟩
            cases r₁ with
            | error f =>
                obtain rfl := clears_command_fault.mp hclears
                exact .unstarted hmade hstart
            | ok vals =>
                obtain ⟨g, hg⟩ := exported hmade hstart.extends
                rw [clears_command_started rfl hg] at hclears
                obtain ⟨⟨r₃, w₃⟩, hcall, hclears⟩ :=
                  (clears_call_iff _ (by simp [Activation.kind])).mp hclears
                cases r₃ with
                | error f =>
                    obtain rfl := clears_command_fault.mp hclears
                    exact .failed hmade hstart hg hcall
                | ok results =>
                    obtain rfl := (clears_command_back rfl).mp hclears
                    exact .returned hmade hstart hg hcall
          · intro hfresh
            cases hfresh with
            | refused made => cases (Prod.mk.inj (hmade.symm.trans made)).1
            | unstarted made hstart =>
                cases hmade.symm.trans made
                exact ⟨_, hstart, clears_command_fault.mpr rfl⟩
            | failed made hstart hg hcall =>
                cases hmade.symm.trans made
                refine ⟨_, hstart, (clears_command_started rfl hg).mpr ?_⟩
                refine (clears_call_iff _ (by simp [Activation.kind])).mpr ⟨_, hcall, ?_⟩
                exact clears_command_fault.mpr rfl
            | returned made hstart hg hcall =>
                cases hmade.symm.trans made
                refine ⟨_, hstart, (clears_command_started rfl hg).mpr ?_⟩
                refine (clears_call_iff _ (by simp [Activation.kind])).mpr ⟨_, hcall, ?_⟩
                exact (clears_command_back rfl).mpr rfl

/-! ## New instances -/

/-- An instance that was made owns nothing that was there before, and can use each segment that is
kept for instructions. -/
structure World.OwnsAnew (w : World) (m : CompiledModule) (items : List Item)
    (owner : InstanceAddr) (w' : World) : Prop where
  new : w.store.instances[owner]? = none
  segments : ∃ i, w'.store.instances[owner]? = some i ∧ i.module = m ∧
    i.droppedElems = (m.module.elems.map fun e => !isPassive e).toArray ∧
    i.droppedDatas = (m.module.datas.map fun d => d.place.isSome).toArray
  objects : ∀ {kind : ItemKind} {j : Nat} {o : Object}, j < m.own kind →
    Object.of? kind (w.count kind + j) = some o → w.state? o = none ∧
      (Route.index owner kind ((items.filterMap (Item.addr? kind)).length + j)).object? w' = some o

/-! Segments are applied to tables and memories; the instances stay. -/

theorem World.instances_putElems (addr index : Nat) (vs : List StoreVal) (w : World) :
    (w.putElems addr index vs).store.instances = w.store.instances := by
  induction vs generalizing index w with
  | nil => rfl
  | cons v vs ih =>
      refine (ih _ _).trans ?_
      refine (congrArg Store.instances (objects_unholdVal _ _) :).trans ?_
      exact (congrArg Store.instances (objects_holdVal v w) :)

theorem World.instances_fillTables (i : Instance) (es : List Wasm.Elem) (w : World) :
    (w.fillTables i es).2.store.instances = w.store.instances := by
  induction es generalizing w with
  | nil => rfl
  | cons e es ih =>
      unfold fillTables
      split
      · exact ih w
      · split
        · exact (ih _).trans (instances_putElems _ _ _ w)
        · rfl

theorem World.instances_fillMemories (i : Instance) (ds : List Wasm.Data) (w : World) :
    (w.fillMemories i ds).2.store.instances = w.store.instances := by
  induction ds generalizing w with
  | nil => rfl
  | cons d ds ih =>
      unfold fillMemories
      split
      · exact ih w
      · split
        · exact ih _
        · rfl

theorem World.instances_fill (addr : InstanceAddr) (w : World) :
    (w.fill addr).2.store.instances = w.store.instances := by
  unfold fill
  split
  · rfl
  · rename_i i _
    split
    · rfl
    · have htables := instances_fillTables i i.module.module.elems w
      split
      · rename_i hr
        rw [hr] at htables
        exact (instances_fillMemories i _ _).trans htables
      · exact htables

/-- An instance that was made is the one that the store got for it. -/
theorem World.exists_instanceOf (made : w.instantiate m items = (.ok owner, w')) :
    owner = w.store.instances.size ∧ ∃ globals tables memories,
      w'.store.instances[owner]? = some (w.instanceOf m items globals tables memories) := by
  obtain ⟨globals, tables, memories, hi⟩ := w.instance_allocate m items
  have hfilled := instances_fill (w.allocate m items).1 (w.allocate m items).2
  unfold instantiate at made
  split at made
  · cases made
  · dsimp only at made
    split at made <;> rename_i hr <;> cases made
    rw [hr] at hfilled
    exact ⟨rfl, globals, tables, memories, hfilled ▸ hi⟩

theorem World.ownsAnew_instantiate (made : w.instantiate m items = (.ok owner, w')) :
    w.OwnsAnew m items owner w' := by
  obtain ⟨howner, globals, tables, memories, hi⟩ := exists_instanceOf made
  refine ⟨?_, ⟨_, hi, rfl, rfl, rfl⟩, fun hj ho => ⟨state?_new ho, ?_⟩⟩
  · exact Array.getElem?_eq_none (Nat.le_of_eq howner.symm)
  · exact (Route.object?_own made hj).trans ho

/-- A new instance has the functions that its module exports. -/
theorem World.exists_exported (compiled : m.IsCompiled) {e : ExportType} {type : FuncType}
    (he : e ∈ m.signature.exports) (htype : e.type = .func type)
    (made : w.instantiate m items = (.ok owner, w₁)) (later : w₁.Extends w₂) :
    ∃ g, w₂.getExport owner e.name = some (.func g) := by
  obtain ⟨f, valid⟩ := compiled.valid
  obtain ⟨-, globals, tables, memories, hi⟩ := exists_instanceOf made
  obtain ⟨x, hx, hname, hkind⟩ := CompiledModule.exists_export he htype
  have hfound := getExport_of_func hi rfl valid.made.names hx hkind
  rw [hname] at hfound
  exact ⟨_, later.getExport hfound⟩

/-- The exports that a module shows have different names. -/
theorem CompiledModule.WellMade.nodup_exports (made : m.WellMade) :
    (m.signature.exports.map (·.name)).Nodup := by
  refine List.Nodup.sublist ?_ made.names
  simp only [CompiledModule.signature, Wasm.Module.signature]
  induction m.module.exports with
  | nil => exact .slnil
  | cons x xs ih =>
      rw [List.filterMap_cons]
      cases m.module.itemType? x.kind x.index with
      | none => exact ih.cons _
      | some t => exact ih.cons_cons _

/-! ## Ways to a function of a command -/

namespace Linker

variable {l l' : Linker} {module name : String} {es : List ExportType} {e : ExportType}
  {type : FuncType}

/-- All ways through a linker lead to a function: the embedder gets it by its name, and by default
if the name is one for that, and a module that imports the name is given it. -/
structure Offers (l : Linker) (module name : String) (func : FuncAddr) : Prop where
  get : ∀ w, l.get? ⟨module, name⟩ w = (some (.func func), w)
  default : name = "" ∨ name = "_start" ∧ l.find? ⟨module, ""⟩ = none →
    ∀ w, l.getDefault module w = (.ok func, w)
  imports : ∀ {m : CompiledModule} {ds : List Definition} {w : World},
    l.resolve m (·.currentType w) = .ok ds →
      List.Forall₂ (fun x item => x.module = module → x.name = name → item = .func func)
        m.signature.imports (Definition.toItems ds w).1

theorem given_toItems {item : Item} {t : ItemType}
    (found : l.find? ⟨module, name⟩ = some (.item item t)) {imports : List ImportType}
    {ds : List Definition}
    (h : List.Forall₂ (fun x d => l.find? ⟨x.module, x.name⟩ = some d) imports ds) (w : World) :
    List.Forall₂ (fun (x : ImportType) given => x.module = module → x.name = name → given = item)
      imports (Definition.toItems ds w).1 := by
  induction h generalizing w with
  | nil => exact .nil
  | @cons x d imports ds hd _ ih =>
      refine .cons (fun hmodule hname => ?_) (ih _)
      rw [hmodule, hname, found] at hd
      cases hd
      rfl

theorem offers_of_find? {t : ItemType}
    (found : l.find? ⟨module, name⟩ = some (.item (.func func) t)) :
    l.Offers module name func where
  get w := by
    rw [get?, found]
    rfl
  default := by
    rintro (rfl | ⟨rfl, hnone⟩) w
    · simp [getDefault, funcNamed?, found, Definition.toItem, Item.func?]
    · simp [getDefault, funcNamed?, found, hnone, Definition.toItem, Item.func?]
  imports hr := given_toItems found (resolve_ok hr).1 _

/-! ## Definitions of commands -/

/-- A function of a command is defined under the name of an export. Its imports were found in a
linker in which the names of other modules stood for the same. -/
structure DefinesCommand (l : Linker) (module : String) (m : CompiledModule) (e : ExportType)
    (type : FuncType) (l' : Linker) (w' : World) (func : FuncAddr) (items : List Item) : Prop where
  found : l'.find? ⟨module, e.name⟩ = some (.item (.func func) (.func type))
  body : w'.store.funcs[func]? = some ⟨type, .command m items e.name⟩
  resolved : ∃ (l₀ : Linker) (ds : List Definition) (v : World),
    (∀ k : LinkName, k.module ≠ module → l₀.find? k = l.find? k) ∧
      l₀.resolve m Definition.type = .ok ds ∧ (Definition.toItems ds v).1 = items

theorem find?_defineCommand {k : LinkName} (hk : ∀ e ∈ es, k ≠ ⟨module, e.name⟩)
    (h : defineCommand module m es l w = (.ok (), l', w')) : l'.find? k = l.find? k := by
  induction es generalizing l w with
  | nil =>
      cases h
      rfl
  | cons e es ih =>
      have hrest : ∀ e ∈ es, k ≠ ⟨module, e.name⟩ := fun e he => hk e (List.mem_cons_of_mem _ he)
      simp only [defineCommand] at h
      split at h
      · split at h
        · cases h
        · split at h
          · rename_i p shared hdefine
            obtain rfl : p = _ := (define_linker hdefine).2
            rw [ih hrest h, find?_insert_of_ne (hk e List.mem_cons_self)]
          · cases h
      all_goals
        split at h
        · exact ih hrest h
        · cases h

theorem exists_definesCommand (names : (es.map (·.name)).Nodup)
    (h : defineCommand module m es l w = (.ok (), l', w')) (he : e ∈ es)
    (htype : e.type = .func type) :
    ∃ func items, l.DefinesCommand module m e type l' w' func items := by
  induction es generalizing l w with
  | nil => cases he
  | cons d es ih =>
      obtain ⟨hd, hnames⟩ := List.nodup_cons.mp names
      have hext (l : Linker) (w : World)
          (h : defineCommand module m es l w = (.ok (), l', w')) : w.Extends w' := by
        have hext := World.Alters.extends_ (changes_defineCommand module m es l w)
        rwa [h] at hext
      simp only [defineCommand] at h
      split at h
      · rename_i t ht
        split at h
        · cases h
        · rename_i ds hr
          split at h
          · rename_i p shared hdefine
            obtain rfl : p = _ := (define_linker hdefine).2
            rcases List.mem_cons.mp he with rfl | he
            · obtain rfl : t = type := by simpa [ht] using htype
              refine ⟨(Definition.toItems ds w).2.store.funcs.size, (Definition.toItems ds w).1,
                ?_, ?_, l, ds, w, fun _ _ => rfl, hr, rfl⟩
              · rw [find?_defineCommand (fun e' he' heq => hd ?_) h]
                · exact find?_insert_self _ _ _
                · exact List.mem_map.mpr ⟨e', he', (LinkName.mk.inj heq).2.symm⟩
              · obtain ⟨f, hf, rfl⟩ := (hext _ _ h).funcs _ _ Array.getElem?_push_size
                exact hf
            · obtain ⟨func, items, hdefines⟩ := ih hnames h he
              refine ⟨func, items, hdefines.found, hdefines.body, ?_⟩
              obtain ⟨l₀, ds', v, hsame, hr', hitems⟩ := hdefines.resolved
              refine ⟨l₀, ds', v, fun k hk => ?_, hr', hitems⟩
              rw [hsame k hk, find?_insert_of_ne]
              rintro rfl
              exact hk rfl
          · cases h
      all_goals
        rename_i t ht
        split at h
        · rcases List.mem_cons.mp he with rfl | he
          · rw [ht] at htype
            cases htype
          · exact ih hnames h he
        · cases h

/-- Each call of the function that an export of a command is defined as is a call of the export on
an instance of its own, at any time later on. -/
structure Isolates (l l' : Linker) (w' : World) (module : String) (m : CompiledModule)
    (e : ExportType) (func : FuncAddr) (items : List Item) : Prop where
  offered : l'.Offers module e.name func
  resolved : ∃ (l₀ : Linker) (ds : List Definition) (v : World),
    (∀ k : LinkName, k.module ≠ module → l₀.find? k = l.find? k) ∧
      l₀.resolve m Definition.type = .ok ds ∧ (Definition.toItems ds v).1 = items
  /-- The call is made above whatever is at work. -/
  calls : ∀ {w : World}, w'.Extends w → ∀ base n args caller r,
    w.CallEnds base n func args caller r ↔
      w.FreshCall m items e.name args base (n + Activation.hostSize) r
  /-- The call is made by the embedder. -/
  outside : ∀ {w : World}, w'.Extends w → ∀ args r, (w.begin func args).Ends r ↔
    ((w.acceptAll args).2.exposeAll (w.acceptAll args).1).FreshCall m items e.name
      (w.acceptAll args).1 [] Activation.hostSize r
  /-- The instance that is made for the call is new. -/
  anew : ∀ {w w₁ : World} {args owner}, (w.holdAll args).instantiate m items = (.ok owner, w₁) →
    (w.holdAll args).OwnsAnew m items owner w₁

/-- The functions of a command are isolated: every call of one of them, whatever was called before,
ends as a call of its export does on a new instance, with the command at work beneath. -/
theorem commands_isolated {limit : Nat} (compiled : m.IsCompiled)
    (role : ModuleRole.of m.signature.exports = .ok .command)
    (defined : l.defineModule limit module m w = some (.ok (), l', w'))
    (he : e ∈ m.signature.exports) (htype : e.type = .func type) :
    ∃ func items, l.Isolates l' w' module m e func items := by
  have hdefined : defineCommand module m m.signature.exports l w = (.ok (), l', w') := by
    simp only [defineModule, role, Option.some.injEq, Prod.mk.injEq] at defined
    obtain ⟨hr, hl, hw⟩ := defined
    refine Prod.ext ?_ (Prod.ext hl hw)
    cases h : (defineCommand module m m.signature.exports l w).1 with
    | ok => rfl
    | error reason =>
        rw [h] at hr
        cases hr
  obtain ⟨f, valid⟩ := compiled.valid
  obtain ⟨func, items, defines⟩ :=
    exists_definesCommand valid.made.nodup_exports hdefined he htype
  have hcalls {v : World} (hv : w'.Extends v) (base n args caller r) :
      v.CallEnds base n func args caller r ↔
        v.FreshCall m items e.name args base (n + Activation.hostSize) r := by
    obtain ⟨f, hf, rfl⟩ := hv.funcs _ _ defines.body
    exact callEnds_command_iff hf (exists_exported compiled he htype)
  refine ⟨func, items, offers_of_find? defines.found, defines.resolved, hcalls, ?_,
    ownsAnew_instantiate⟩
  intro v hv args r
  have hgrown : v.Extends ((v.acceptAll args).2.exposeAll (v.acceptAll args).1) :=
    .of_objects ((objects_exposeAll _ _).trans (objects_acceptAll args v))
  rw [World.begin, ends_iff_callEnds, hcalls (hv.trans hgrown), Nat.zero_add]

end Linker

/-! ## A command that counts -/

/-- The binary of a command with a counter of its own. -/
def counterBinary : Wasm.Bytes :=
  [0x00, 0x61, 0x73, 0x6d, 0x01, 0x00, 0x00, 0x00, 0x01, 0x08, 0x02, 0x60, 0x00, 0x00, 0x60, 0x00,
    0x01, 0x7f, 0x03, 0x03, 0x02, 0x00, 0x01, 0x06, 0x06, 0x01, 0x7f, 0x01, 0x41, 0x00, 0x0b, 0x07,
    0x11, 0x02, 0x06, 0x5f, 0x73, 0x74, 0x61, 0x72, 0x74, 0x00, 0x00, 0x04, 0x62, 0x75, 0x6d, 0x70,
    0x00, 0x01, 0x0a, 0x10, 0x02, 0x02, 0x00, 0x0b, 0x0b, 0x00, 0x23, 0x00, 0x41, 0x01, 0x6a, 0x24,
    0x00, 0x23, 0x00, 0x0b]

/-- What the counter does. -/
def bumpCode : Wasm.Code :=
  ⟨[], [.globalGet 0, .i32Const 1, .numeric (.intBinary .w32 .add), .globalSet 0, .globalGet 0,
    .done]⟩

/-- The command. -/
def counter : CompiledModule :=
  { compatibility := ({} : EngineOptions).compatibility, binary := counterBinary
    module :=
      { types := [⟨[], []⟩, ⟨[], [.i32]⟩], funcs := [0, 1]
        globals := [⟨⟨.i32, true⟩, [.i32Const 0, .done]⟩]
        exports := [⟨"_start", .func, 0⟩, ⟨"bump", .func, 1⟩]
        codes := [⟨[], [.done]⟩, bumpCode] }
    codes := #[.make 0 ⟨[], []⟩ ⟨[], [.done]⟩ ⟨54, 54, #[55]⟩,
      .make 1 ⟨[], [.i32]⟩ bumpCode ⟨57, 57, #[58, 60, 62, 63, 65, 67]⟩] }

theorem isCompiled_counter : counter.IsCompiled := ⟨{}, counterBinary, by decide +kernel⟩

/-- A linker and a store of an engine in which the command is defined. -/
def counterDefined (engine : Engine) : Except String Unit × Linker × World :=
  Linker.defineCommand "C" counter counter.signature.exports {}
    (World.create engine { files := ⟨[], #[]⟩ })

/-- Each call of the counter finds it at zero. -/
theorem counter_isolated :
    let defined := counterDefined (.default 0)
    counter.IsCompiled ∧ ModuleRole.of counter.signature.exports = .ok .command ∧
    ({} : Linker).defineModule 0 "C" counter (World.create (.default 0) { files := ⟨[], #[]⟩ }) =
      some (.ok (), defined.2) ∧
    ⟨"bump", .func ⟨[], [.i32]⟩⟩ ∈ counter.signature.exports ∧
    (∃ func items, ({} : Linker).Isolates defined.2.1 defined.2.2 "C" counter
      ⟨"bump", .func ⟨[], [.i32]⟩⟩ func items) ∧
    ((defined.2.2.callFunc 20 1 []).bind fun once => once.2.callFunc 20 1 []).map (·.1) =
      some (.ok [.i32 1]) := by
  intro defined
  have role : ModuleRole.of counter.signature.exports = .ok .command := by decide +kernel
  have hdefined : ({} : Linker).defineModule 0 "C" counter
      (World.create (.default 0) { files := ⟨[], #[]⟩ }) = some (.ok (), defined.2) := by
    with_unfolding_all rfl
  have he : (⟨"bump", .func ⟨[], [.i32]⟩⟩ : ExportType) ∈ counter.signature.exports := by
    decide +kernel
  exact ⟨isCompiled_counter, role, hdefined, he,
    Linker.commands_isolated isCompiled_counter role hdefined he rfl, by decide +kernel⟩

/-! ## What differs from a call of the embedder's own -/

namespace Linker

/-- An embedder makes an instance and calls an export of it. -/
def callAnew (limit : Nat) (m : CompiledModule) (name : String) (args : List HostVal) (l : Linker)
    (w : World) : Option (Except Failure (List HostVal)) :=
  (l.instantiate limit m w).bind fun made =>
    match made.1 with
    | .error f => some (.error f)
    | .ok owner =>
      ((made.2.getExport owner name).bind Item.func?).bind fun func =>
        (made.2.callFunc limit func args).map (·.1)

/-- An embedder calls the function that a name stands for. -/
def callNamed (limit : Nat) (n : LinkName) (args : List HostVal) (l : Linker) (w : World) :
    Option (Except Failure (List HostVal)) :=
  ((l.get? n w).1.bind Item.func?).bind fun func =>
    ((l.get? n w).2.callFunc limit func args).map (·.1)

end Linker

/-- A linker and a store with little stack in which the counter is defined. -/
def narrowDefined : Except String Unit × Linker × World :=
  counterDefined { Engine.default 0 with options := { maxWasmStack := 2048 } }

/-- Stack that is enough for an export on a new instance may be too little with a command at work
beneath it. And an instance that cannot be made is one error when an embedder makes it, and another
one when a command does. -/
theorem command_ends_differently :
    (narrowDefined.1 = .ok () ∧ ModuleRole.of counter.signature.exports = .ok .command ∧
      narrowDefined.2.1.callAnew 20 counter "bump" [] narrowDefined.2.2 = some (.ok [.i32 1]) ∧
      narrowDefined.2.1.callNamed 20 ⟨"C", "bump"⟩ [] narrowDefined.2.2 = some (.error (.trap
        { message := "wasm trap: call stack exhausted", code := some .stackExhausted }))) ∧
    (strayDefined.1 = .ok () ∧ ModuleRole.of stray.signature.exports = .ok .command ∧
      strayDefined.2.1.callAnew 20 stray "_start" [] strayDefined.2.2 = some (.error (.error
        (.link "memory out of bounds: data segment does not fit"))) ∧
      strayDefined.2.1.callNamed 20 ⟨"X", "_start"⟩ [] strayDefined.2.2 = some (.error (.error
        (.typeMismatch "memory out of bounds: data segment does not fit")))) := by
  decide +kernel

end WasmHost

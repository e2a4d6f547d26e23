import WasmHost.Proofs.Embedding.Accounts
import WasmHost.Proofs.Linker.TypedDefinitions
import WasmHost.Proofs.Machine.Soundness

/-!
# A store in use

A usage is a store, the call that is under way in it, and the linkers that are used with it.
`Usage.Reachable` is every usage that an embedder and the code that it runs lead to from a new store
of any engine. While a host function is at work the embedder can do all that it can do when nothing
runs, so that a host function is anything that an embedder can write. Modules were compiled, and the
items that an embedder passes are ones that it has from the store.
-/

namespace WasmHost

open World

/-- A store in use. -/
structure Usage where
  world : World
  task : Option Task := none
  linkers : List Linker := []

/-- A new instance is of a module that was compiled, with items of the store that pass the checks of
its imports. -/
def StoreCall.Genuine (w : World) : StoreCall → Prop
  | .instantiate m items =>
    m.IsCompiled ∧ (∀ i ∈ items, w.IsGenuine i) ∧
      positionalError? m.signature.imports items = none ∧
        w.fit m.signature.imports items = .ok ()
  | _ => True

namespace Usage

/-- The embedder can use the store: nothing runs in it, or a host function is at work. -/
def IsFree (u : Usage) : Prop := ∀ t ∈ u.task, ∃ h rest, t.AtHost h rest

/-- The usage with a machine for its task. -/
def goto (t : Task) (m : Machine) (u : Usage) : Usage :=
  { u with world := m.world, task := some (t.leave m) }

/-- A task before its call has begun. -/
def newTask (held : List StoreVal) (answers : Bool) : Task :=
  { stack := [], control := .run, used := 0, held, answers }

/-- One step of an embedder or of the code that runs. Whatever happens to what the store shares with
others is a step as well. -/
inductive Step (u : Usage) : Usage → Prop
  | shared (s : Shared) : Step u { u with world := { u.world with shared := s } }
  | store {c : StoreCall} (live : List BoxId) (free : u.IsFree) (genuine : c.Genuine u.world) :
      Step u { u with world := (c.run live u.world).2 }
  | call {func : FuncAddr} {args : List HostVal} (idle : u.task = none)
      (fits : checkArgs (u.world.funcType func) args = .ok ()) :
      Step u (u.goto (newTask (u.world.acceptAll args).1 true) (u.world.begin func args))
  | start {addr : InstanceAddr} {func : FuncAddr} (idle : u.task = none)
      (start : u.world.startFunc? addr = some func) :
      Step u (u.goto (newTask [] false) ((Machine.idle u.world).enter func [] (some addr)))
  | work {t : Task} {m : Machine} (task : u.task = some t)
      (step : (t.machine u.world).step = .inl m) : Step u (u.goto t m)
  | move {t : Task} {h : HostFrame} {rest : List Activation} (task : u.task = some t)
      (at_host : t.AtHost h rest) (c : HostMove) :
      Step u (u.goto t (c.run h rest (t.machine u.world)))
  | answer {t : Task} {r : Except Fault (List StoreVal)} {w : World} (task : u.task = some t)
      (ended : (t.machine u.world).step = .inr (r, w)) :
      Step u { u with world := (t.finish r w).2, task := none }
  | newLinker : Step u { u with linkers := u.linkers ++ [({} : Linker)] }
  | dropLinker {before after : List Linker} {l : Linker} (s : Shared)
      (linkers : u.linkers = before ++ l :: after) :
      Step u { u with world := { u.world with shared := s }, linkers := before ++ after }
  | link {before after : List Linker} {l l' : Linker} {c : LinkerCall} {r : Except Failure Unit}
      {w : World} (linkers : u.linkers = before ++ l :: after) (free : u.IsFree)
      (plain : c.IsPlain) (genuine : c.Genuine u.world) (done : c.run l u.world = some (r, l', w)) :
      Step u { u with world := w, linkers := before ++ l' :: after }
  /-- What a name stands for is made an item of the store, to be looked at or imported. -/
  | resolve {l : Linker} {n : LinkName} {d : Definition} (known : l ∈ u.linkers) (free : u.IsFree)
      (found : l.find? n = some d) : Step u { u with world := (d.toItem u.world).2 }

/-- The usages that are reached from a new store. -/
inductive Reachable : Usage → Prop
  | start (engine : Engine) (s : Shared) : Reachable { world := World.create engine s }
  | step {u u' : Usage} (before : Reachable u) (step : u.Step u') : Reachable u'

/-- The store is well typed, and so is the call that is under way in it; the linkers define genuine
items. -/
structure Typed (u : Usage) : Prop where
  world : u.world.Typed
  task : ∀ t ∈ u.task, ∃ final, (t.machine u.world).Typed final
  linkers : ∀ l ∈ u.linkers, l.Genuine u.world

end Usage

variable {w w' : World}

/-! ## Operations that run no code -/

theorem World.respects_getTable (addr index : Nat) (w : World) :
    w.Respects (w.getTable addr index).2 := by
  unfold getTable
  split
  · exact .of_objects (objects_reveal _ w)
  · exact .refl w

theorem StoreCall.typed_run {c : StoreCall} (live : List BoxId) (hw : w.Typed)
    (genuine : c.Genuine w) : (c.run live w).2.Typed ∧ w.Extends (c.run live w).2 := by
  have respects {w' : World} (h : w.Respects w') : w'.Typed ∧ w.Extends w' := ⟨h.typed hw, h.grown⟩
  have hok {r : Except Error World} (h : ∀ w', r = .ok w' → w.Respects w') :
      w.Respects (r.toOption.getD w) :=
    Except.getD_of_ok (P := (w.Respects ·)) (.refl w) h
  have hmade {r : Except Error (Nat × World)} (h : ∀ n w', r = .ok (n, w') → w.Respects w') :
      w.Respects ((r.map (·.2)).toOption.getD w) :=
    Except.getD_map_of_ok (P := (w.Respects ·)) (.refl w) h
  cases c with
  | newHostFunc type ops => exact ⟨hw.newHostFunc type ops, extends_newHostFunc w type ops⟩
  | idleFunc => exact ⟨hw.newFunc rfl, extends_newFunc w _ _⟩
  | instantiate m items =>
      obtain ⟨compiled, hitems, kinds, fits⟩ := genuine
      have provided := providesAll_of_checks hitems kinds fits
      exact ⟨hw.instantiate compiled provided, (alters_instantiate m items w).extends_⟩
  | newGlobal type init => exact respects (hmade fun _ _ h => respects_newGlobal h)
  | getGlobal addr => exact respects (.of_objects (objects_reveal _ w))
  | setGlobal addr v => exact respects (hok fun _ h => respects_setGlobal h)
  | newTable type init => exact respects (hmade fun _ _ h => respects_newTable h)
  | getTable addr index => exact respects (respects_getTable addr index w)
  | setTable addr index v => exact respects (hok fun _ h => respects_setTable h)
  | growTable addr delta v => exact respects (respects_growTable addr delta v w)
  | newMemory type =>
      simp only [run]
      cases hnew : w.newMemory type with
      | some p => exact respects (respects_newMemory hnew)
      | none => exact respects (.refl w)
  | growMemory addr delta => exact respects (hmade fun _ _ h => respects_growMemory h)
  | writeMemory addr offset bytes =>
      simp only [run]
      cases hnew : w.writeMemory addr offset bytes with
      | some w' => exact respects (respects_writeMemory hnew)
      | none => exact respects (.refl w)
  | collect => exact respects (.of_objects (objects_collect live w))
  | addFuel n => exact respects (hok fun _ h => .of_objects (objects_addFuel h))
  | setWasi config => exact respects (hok fun _ h => .of_objects (objects_setWasi h))

/-! ## Machines in stores that are used -/

theorem Machine.Typed.extends {m : Machine} {final : List ValType} (h : m.Typed final)
    (hw : w'.Typed) (hext : m.world.Extends w') :
    ({ m with world := w' } : Machine).Typed final := by
  refine ⟨hw, ?_⟩
  have h := h.continues
  unfold Continues at h ⊢
  dsimp only
  split <;> rename_i hcontrol <;> rw [hcontrol] at h <;> dsimp only at h
  · obtain ⟨a, rest, ts, hstack, hruns, below⟩ := h
    exact ⟨a, rest, ts, hstack, hruns.extends hext, below.extends hext⟩
  · exact h.extends hext
  · exact h.extends hext

theorem Task.objects_finish (t : Task) (r : Except Fault (List StoreVal)) (w : World) :
    (t.finish r w).2.objects = w.objects := by
  unfold finish
  split
  · split
    · exact (objects_unholdAll _ _).trans (objects_revealAll _ _)
    · exact objects_unholdAll _ _
  · exact objects_unholdAll _ _

/-- A host function at work fits, and what is below it waits for its results. -/
theorem Task.fits_of_atHost {t : Task} {h : HostFrame} {rest : List Activation}
    {final : List ValType} (ht : (t.machine w).Typed final) (at_host : t.AtHost h rest) :
    h.Fits ∧ w.Waiting final rest h.type.results := by
  obtain ⟨_, ⟨fits, rfl⟩, below⟩ := ht.runs at_host.1 at_host.2
  exact ⟨fits, below⟩

/-- Whatever a host function does keeps a machine well typed. -/
theorem HostMove.typed_run {t : Task} {h : HostFrame} {rest : List Activation}
    {final : List ValType} (ht : (t.machine w).Typed final) (at_host : t.AtHost h rest)
    (c : HostMove) : (c.run h rest (t.machine w)).Typed final := by
  obtain ⟨fits, below⟩ := Task.fits_of_atHost ht at_host
  have hw : (t.machine w).world.Typed := ht.world
  have hstack : (t.machine w).stack = .host h :: rest := at_host.1
  cases c with
  | call func args result catches => exact Machine.typed_hostCall hw hstack fits below _ _ _ _
  | start addr catches =>
      simp only [run]
      split
      · rename_i func hstart
        have htype := Machine.funcType_start hw hstart
        refine Machine.typed_enter ?_
          (.call ⟨⟨fits.args, fits.results⟩, (rfl : h.type.results = h.type.results)⟩ ?_) ?_
        · exact hw
        · exact below
        · exact congrArg FuncType.params htype.symm
      · exact ht
  | setResult i v =>
      exact Machine.typed_onHost_result (Machine.fits_setResult fits i v _) hw below
        (Machine.objects_setResult h i v _)
  | fail trap => exact Machine.typed_failHost hw hstack below _
  | finish => exact Machine.typed_finishHost hw hstack fits below

theorem HostMove.alters_run (h : HostFrame) (rest : List Activation) (m : Machine)
    (c : HostMove) : m.world.Alters (c.run h rest m).world := by
  cases c with
  | call => exact Machine.alters_hostCall m h rest _ _ _ _
  | start addr catches =>
      simp only [run]
      split
      · refine Machine.alters_enter _ ?_ _ _ _
        exact .refl
      · exact .refl
  | setResult i v => exact h.changes_setResult i v _
  | fail trap => exact Machine.changes_failHost m h trap
  | finish => exact Machine.changes_finishHost m h

namespace Usage

variable {u u' : Usage}

theorem Typed.grown (h : u.Typed) (hw : w.Typed) (hext : u.world.Extends w) :
    Typed { u with world := w } where
  world := hw
  task t ht := by
    obtain ⟨final, htyped⟩ := h.task t ht
    exact ⟨final, htyped.extends hw hext⟩
  linkers l hl := (h.linkers l hl).extends hext

theorem Typed.goto (h : u.Typed) {m : Machine} {final : List ValType} (hm : m.Typed final)
    (hext : u.world.Extends m.world) (t : Task) : (u.goto t m).Typed where
  world := hm.world
  task t' ht := by
    obtain rfl := Option.mem_some_iff.mp ht
    exact ⟨final, hm⟩
  linkers l hl := (h.linkers l hl).extends hext

theorem Typed.call (h : u.Typed) {func : FuncAddr} {args : List HostVal}
    (fits : checkArgs (u.world.funcType func) args = .ok ()) :
    (u.world.begin func args).Typed (u.world.funcType func).results ∧
      u.world.Extends (u.world.begin func args).world := by
  have hobjects := objects_taken args u.world
  have htype := funcType_of_objects hobjects func
  refine ⟨Machine.typed_enter (h.world.of_objects hobjects) ?_ ?_,
    (Machine.alters_enter _ (changes_taken args u.world) _ _ _).extends_⟩
  · exact htype ▸ .done
  · rw [types_acceptAll, checkArgs_eq_ok_iff.mp fits]
    exact congrArg FuncType.params htype.symm

theorem Typed.start (h : u.Typed) {addr : InstanceAddr} {func : FuncAddr}
    (hs : u.world.startFunc? addr = some func) :
    ((Machine.idle u.world).enter func [] (some addr)).Typed [] := by
  have htype := Machine.funcType_start h.world hs
  refine Machine.typed_enter h.world ?_ (congrArg FuncType.params htype.symm)
  have hresults : [] = ((Machine.idle u.world).world.funcType func).results :=
    congrArg FuncType.results htype.symm
  exact hresults ▸ .done

/-- Every step keeps a usage well typed, and its store only grows. -/
theorem Typed.step (h : u.Typed) (step : u.Step u') : u'.Typed ∧ u.world.Extends u'.world := by
  -- what runs no code leaves the task as it was, in a store that has grown
  cases step with
  | shared s => exact ⟨h.grown (h.world.of_objects rfl) (.of_objects rfl), .of_objects rfl⟩
  | store live free genuine =>
      obtain ⟨hw, hext⟩ := StoreCall.typed_run live h.world genuine
      exact ⟨h.grown hw hext, hext⟩
  | call idle fits =>
      obtain ⟨hm, hext⟩ := h.call fits
      exact ⟨h.goto hm hext _, hext⟩
  | @start addr func idle start =>
      have hext : u.world.Extends ((Machine.idle u.world).enter func [] (some addr)).world :=
        (Machine.alters_enter (Machine.idle u.world) .refl _ _ _).extends_
      exact ⟨h.goto (h.start start) hext _, hext⟩
  | work task step =>
      obtain ⟨final, ht⟩ := h.task _ task
      have hext := (Machine.alters_step step).extends_
      exact ⟨h.goto (ht.step step) hext _, hext⟩
  | @move t f rest task at_host c =>
      obtain ⟨final, ht⟩ := h.task _ task
      have hext := (HostMove.alters_run f rest (t.machine u.world) c).extends_
      exact ⟨h.goto (HostMove.typed_run ht at_host c) hext _, hext⟩
  | @answer t r w task ended =>
      obtain rfl : w = u.world := Machine.step_end ended
      have hobjects := t.objects_finish r u.world
      have hgrown := h.grown (h.world.of_objects hobjects) (.of_objects hobjects)
      exact ⟨⟨hgrown.world, fun t ht => (by cases ht), hgrown.linkers⟩, .of_objects hobjects⟩
  | newLinker =>
      refine ⟨⟨h.world, h.task, fun l hl => ?_⟩, .refl _⟩
      rcases List.mem_append.mp hl with hl | hl
      · exact h.linkers l hl
      · rw [List.mem_singleton.mp hl]
        intro n d hd
        cases hd
  | @dropLinker before after l s linkers =>
      have hobjects : ({ u.world with shared := s } : World).objects = u.world.objects := rfl
      have hgrown := h.grown (h.world.of_objects hobjects) (.of_objects hobjects)
      refine ⟨⟨hgrown.world, hgrown.task, fun k hk => hgrown.linkers k ?_⟩, .of_objects hobjects⟩
      rw [linkers]
      rcases List.mem_append.mp hk with hk | hk <;> simp [hk]
  | @link before after l l' c r w linkers free plain genuine done =>
      have hl : l ∈ u.linkers := by simp [linkers]
      obtain ⟨hw, hext, hl'⟩ := LinkerCall.typed_run h.world (h.linkers l hl) plain genuine done
      have hgrown := h.grown hw hext
      refine ⟨⟨hw, hgrown.task, fun k hk => ?_⟩, hext⟩
      rcases List.mem_append.mp hk with hk | hk
      · exact hgrown.linkers k (by simp [linkers, hk])
      · rcases List.mem_cons.mp hk with rfl | hk
        · exact hl'
        · exact hgrown.linkers k (by simp [linkers, hk])
  | @resolve l n d known free found =>
      obtain ⟨hw, hext, -⟩ := Definition.typed_toItem h.world (h.linkers l known n d found)
      exact ⟨h.grown hw hext, hext⟩

/-- Whatever is reached is well typed. -/
theorem Reachable.typed (h : u.Reachable) : u.Typed := by
  induction h with
  | start engine s =>
      exact ⟨typed_create engine s, fun t ht => (by cases ht), fun l hl => (by cases hl)⟩
  | step _ step ih => exact (ih.step step).1

end Usage

end WasmHost

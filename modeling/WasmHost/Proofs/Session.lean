import WasmHost.Proofs.Linker.Changes

/-!
# Sessions

A session is a store and the linkers that an embedder uses with it. `Session.Reachable` is every
session that any operations, in any order, lead to from a new store of any engine. Whatever happens
to the foreign references, files, signals and closures that the store shares with others counts as
an operation as well.
-/

namespace WasmHost

/-- One operation of an embedder on a store. -/
inductive World.Step : World → World → Prop
  | shared (w : World) (s : Shared) : Step w { w with shared := s }
  | newHostFunc (w : World) (type : FuncType) (ops : List HostOp) :
      Step w (w.newHostFunc type ops).2
  | newGlobal {w w' : World} {type : GlobalType} {init : HostVal} {addr : Nat}
      (done : w.newGlobal type init = .ok (addr, w')) : Step w w'
  | getGlobal (w : World) (addr : Nat) : Step w (w.getGlobal addr).2
  | setGlobal {w w' : World} {addr : Nat} {v : HostVal} (done : w.setGlobal addr v = .ok w') :
      Step w w'
  | newTable {w w' : World} {type : TableType} {init : HostVal} {addr : Nat}
      (done : w.newTable type init = .ok (addr, w')) : Step w w'
  | getTable (w : World) (addr index : Nat) : Step w (w.getTable addr index).2
  | setTable {w w' : World} {addr index : Nat} {v : HostVal}
      (done : w.setTable addr index v = .ok w') : Step w w'
  | growTable (w : World) (addr delta : Nat) (v : HostVal) : Step w (w.growTable addr delta v).2
  | newMemory {w w' : World} {type : MemoryType} {addr : Nat}
      (done : w.newMemory type = some (addr, w')) : Step w w'
  | growMemory {w w' : World} {addr delta old : Nat}
      (done : w.growMemory addr delta = .ok (old, w')) : Step w w'
  | writeMemory {w w' : World} {addr offset : Nat} {bytes : List UInt8}
      (done : w.writeMemory addr offset bytes = some w') : Step w w'
  | callFunc {w w' : World} {limit : Nat} {func : FuncAddr} {args : List HostVal}
      {r : Except Failure (List HostVal)} (done : w.callFunc limit func args = some (r, w')) :
      Step w w'
  | instantiateWith {w w' : World} {limit : Nat} {m : CompiledModule} {items : List Item}
      {r : Except Failure InstanceAddr}
      (done : w.instantiateWith limit m items = some (r, w')) : Step w w'
  | discard (w : World) (v : HostVal) : Step w (w.discard v)
  | collect (w : World) : Step w (w.collect [])
  | addFuel {w w' : World} {n : Nat} (done : w.addFuel n = .ok w') : Step w w'
  | setWasi {w w' : World} {c : Wasi.Config} (done : w.setWasi c = .ok w') : Step w w'

theorem World.Step.extends {w w' : World} (h : w.Step w') : w.Extends w' := by
  have grown {w' : World} (h : w.Alters w') : w.Extends w' := h.extends_
  cases h with
  | shared s => exact .of_objects rfl
  | newHostFunc type ops => exact grown (changes_newHostFunc type ops w)
  | newGlobal done => exact grown (changes_newGlobal done)
  | getGlobal addr => exact grown (changes_reveal _ w)
  | setGlobal done => exact grown (changes_setGlobal trivial done)
  | newTable done => exact grown (changes_newTable done)
  | getTable addr index => exact grown (changes_getTable addr index w)
  | setTable done => exact grown (changes_setTable trivial done)
  | growTable addr delta v => exact grown (changes_growTable trivial delta v w)
  | newMemory done => exact extends_newMemory w done
  | growMemory done => exact grown (changes_growMemory trivial done)
  | writeMemory done => exact grown (changes_writeMemory trivial done)
  | callFunc done => exact grown (alters_callOr done)
  | instantiateWith done => exact grown (alters_instantiateWith done)
  | discard v => exact grown (changes_discard v w)
  | collect => exact grown (changes_collect [] w)
  | addFuel done => exact grown (changes_addFuel done)
  | setWasi done => exact .of_objects (objects_setWasi done)

/-- A store and the linkers that are used with it. -/
structure Session where
  world : World
  linkers : List Linker

namespace Session

/-- One operation of an embedder. -/
inductive Step : Session → Session → Prop
  | world {w w' : World} {ls : List Linker} (step : w.Step w') : Step ⟨w, ls⟩ ⟨w', ls⟩
  | newLinker (w : World) (ls : List Linker) : Step ⟨w, ls⟩ ⟨w, ls ++ [({} : Linker)]⟩
  | linker {w w' : World} {before after : List Linker} {l l' : Linker} {c : LinkerCall}
      {r : Except Failure Unit} (done : c.run l w = some (r, l', w')) :
      Step ⟨w, before ++ l :: after⟩ ⟨w', before ++ l' :: after⟩
  | get {w : World} {ls : List Linker} {l : Linker} (n : LinkName) (known : l ∈ ls) :
      Step ⟨w, ls⟩ ⟨(l.get? n w).2, ls⟩
  | getDefault {w : World} {ls : List Linker} {l : Linker} (module : String) (known : l ∈ ls) :
      Step ⟨w, ls⟩ ⟨(l.getDefault module w).2, ls⟩
  | instantiate {w w' : World} {ls : List Linker} {l : Linker} {limit : Nat} {m : CompiledModule}
      {r : Except Failure InstanceAddr} (known : l ∈ ls)
      (done : l.instantiate limit m w = some (r, w')) : Step ⟨w, ls⟩ ⟨w', ls⟩

/-- The sessions that operations lead to. -/
inductive Reachable : Session → Prop
  | start (engine : Engine) (s : Shared) : Reachable ⟨World.create engine s, []⟩
  | step {s s' : Session} (before : Reachable s) (step : s.Step s') : Reachable s'

end Session

/-! ## Definitions stay in the store -/

/-- The item of a definition, if it is one of a store, is there and can be imported. -/
def Definition.InStore (w : World) : Definition → Prop
  | .item i _ => (w.currentType? i).isSome
  | .host .. | .wasi _ => True

/-- All definitions of a linker are in the store. -/
def Linker.InStore (w : World) (l : Linker) : Prop := ∀ n d, l.find? n = some d → d.InStore w

theorem World.Extends.isSome_currentType? {w w' : World} (h : w.Extends w') {i : Item}
    (hi : (w.currentType? i).isSome) : (w'.currentType? i).isSome := by
  cases i with
  | func a =>
      simp only [currentType?, itemType?, Option.isSome_map] at hi ⊢
      obtain ⟨f, hf⟩ := Option.isSome_iff_exists.mp hi
      obtain ⟨f', hf', -⟩ := h.funcs a f hf
      rw [hf']
      rfl
  | global | table | memory => rfl
  | «instance» | module => cases hi

theorem Definition.InStore.extends {w w' : World} {d : Definition} (hd : d.InStore w)
    (h : w.Extends w') : d.InStore w' := by
  cases d with
  | item i t => exact h.isSome_currentType? hd
  | host | wasi => trivial

theorem Linker.InStore.extends {w w' : World} {l : Linker} (hl : l.InStore w)
    (h : w.Extends w') : l.InStore w' := fun n d hd => (hl n d hd).extends h

/-! ## New definitions are in the store -/

namespace Linker

variable {limit : Nat} {l l' : Linker} {w w' : World} {d : Definition}
  {ds : List (LinkName × Definition)}

theorem inStore_exportDefinitions {module : String} {addr : InstanceAddr}
    {e : LinkName × Definition} (h : e ∈ exportDefinitions module addr w) : e.2.InStore w := by
  obtain ⟨⟨name, item⟩, -, he⟩ := List.mem_filterMap.mp h
  obtain ⟨type, htype, rfl⟩ := Option.map_eq_some_iff.mp he
  simp only [Definition.InStore, htype, Option.isSome_some]

theorem inStore_wasiDefinitions (w : World) {e : LinkName × Definition}
    (h : e ∈ wasiDefinitions) : e.2.InStore w := by
  obtain ⟨f, -, rfl⟩ := List.mem_map.mp h
  trivial

theorem inStore_commandInsertions {module : String} {m : CompiledModule} {es : List ExportType}
    {e : LinkName × Definition} (h : e ∈ commandInsertions module m es l w) :
    e.2.InStore (defineCommand module m es l w).2.2 := by
  induction es generalizing l w with
  | nil => cases h
  | cons x es ih =>
      simp only [defineCommand, commandInsertions] at h ⊢
      cases hx : x.type with
      | func type =>
          simp only [hx] at h ⊢
          cases hr : l.resolve m Definition.type with
          | error reason => simp [hr] at h
          | ok ds =>
              simp only [hr] at h ⊢
              generalize hd : l.define _ _ _ = answer at h ⊢
              cases answer with
              | error reason => cases h
              | ok p =>
                  rcases List.mem_cons.mp h with rfl | h
                  · -- the function was added just before, and what comes later keeps it
                    refine Definition.InStore.extends ?_ (World.Alters.extends_
                      (changes_defineCommand module m es p.1 _))
                    simp [Definition.InStore, World.currentType?, World.itemType?, World.newFunc,
                      World.mapStore]
                  · exact ih h
      | global | table | memory =>
          simp only [hx] at h ⊢
          split at h <;> rename_i hleft
          · rw [if_pos hleft]
            exact ih h
          · cases h

theorem inStore_reactorInsertions {module : String} {m : CompiledModule} {r : Except Failure Unit}
    {e : LinkName × Definition} (h : l.defineReactor limit module m w = some (r, l', w'))
    (he : e ∈ l.reactorInsertions limit module m w) : e.2.InStore w' := by
  unfold reactorInsertions at he
  rcases defineReactor_cases h with ⟨f, hi, -⟩ | ⟨addr, w₁, f, hi, hr, -⟩ |
    ⟨addr, w₁, w₂, hi, hr, -, hd⟩
  · rw [hi] at he
    cases he
  · simp only [hi, hr] at he
    cases he
  · simp only [hi, hr] at he
    have hdefined : w₂.Alters _ := changes_defineInstance module addr l w₂
    rw [hd] at hdefined
    exact (inStore_exportDefinitions (mem_of_mem_taken he)).extends hdefined.extends_

end Linker

theorem LinkerCall.inStore_insertions {c : LinkerCall} {l l' : Linker} {w w' : World}
    {r : Except Failure Unit} (h : c.run l w = some (r, l', w')) {e : LinkName × Definition}
    (he : e ∈ c.insertions l w) : e.2.InStore w' := by
  cases c with
  | allowShadowing allow => cases he
  | define n item =>
      simp only [insertions] at he
      split at he
      · rename_i type htype
        have hoffered := Linker.mem_of_mem_taken he
        rw [List.mem_singleton.mp hoffered]
        exact (alters_run h).extends_.isSome_currentType? (by rw [htype]; rfl)
      · cases he
  | defineFunc n type ops =>
      have hoffered := Linker.mem_of_mem_taken he
      rw [List.mem_singleton.mp hoffered]
      trivial
  | defineInstance module addr =>
      exact (Linker.inStore_exportDefinitions (Linker.mem_of_mem_taken he)).extends (alters_run h).extends_
  | defineWasi => exact Linker.inStore_wasiDefinitions w' (Linker.mem_of_mem_taken he)
  | defineModule limit module m =>
      simp only [run, Linker.defineModule] at h
      simp only [insertions] at he
      split at h <;> rename_i hrole <;> simp only [hrole] at he
      · cases he
      · exact Linker.inStore_reactorInsertions h he
      · cases h
        exact Linker.inStore_commandInsertions he

/-- Operations on a linker keep its definitions in the store. -/
theorem LinkerCall.inStore_run {c : LinkerCall} {l l' : Linker} {w w' : World}
    {r : Except Failure Unit} (h : c.run l w = some (r, l', w')) (hl : l.InStore w) :
    l'.InStore w' := by
  intro n d hd
  rw [run_find? h] at hd
  rcases Option.or_eq_some_iff.mp hd with hnew | ⟨-, hold⟩
  · exact inStore_insertions h (Linker.mem_of_latest? hnew)
  · exact (hl n d hold).extends (alters_run h).extends_

namespace Session

/-- All definitions of the session's linkers are in its store. -/
def InStore (s : Session) : Prop := ∀ l ∈ s.linkers, l.InStore s.world

theorem InStore.step {s s' : Session} (h : s.InStore) (step : s.Step s') : s'.InStore := by
  cases step with
  | world hw => exact fun l hl => (h l hl).extends hw.extends
  | newLinker w ls =>
      intro l hl
      rcases List.mem_append.mp hl with hl | hl
      · exact h l hl
      · rw [List.mem_singleton.mp hl]
        intro n d hd
        cases hd
  | @linker w w' before after l l' c r done =>
      have hext := (LinkerCall.alters_run done).extends_
      intro k hk
      rcases List.mem_append.mp hk with hk | hk
      · exact (h k (List.mem_append_left _ hk)).extends hext
      · rcases List.mem_cons.mp hk with rfl | hk
        · exact LinkerCall.inStore_run done (h l (by simp))
        · exact (h k (by simp [hk])).extends hext
  | @get w ls l n known =>
      have hext := World.Alters.extends_ (l.changes_get? n w)
      exact fun k hk => (h k hk).extends hext
  | @getDefault w ls l module known =>
      have hext := World.Alters.extends_ (l.changes_getDefault module w)
      exact fun k hk => (h k hk).extends hext
  | instantiate known done =>
      have hext := (Linker.alters_instantiate done).extends_
      exact fun k hk => (h k hk).extends hext

/-- What the linkers of a session define is in its store, at any time. -/
theorem Reachable.inStore {s : Session} (h : s.Reachable) : s.InStore := by
  induction h with
  | start engine s => exact fun l hl => by cases hl
  | step _ step ih => exact ih.step step

end Session

end WasmHost

import WasmHost.Proofs.Embedding.Usage

/-!
# What is done to a store in use

Operations of an embedder, operations on linkers and running code come down to changes of the world.
Two steps do not: to make a memory, and to set up the system interface of the store anew.
-/

namespace WasmHost

open World

variable {T : Object → Prop} {w w' : World}

/-! ## Linkers -/

/-- An operation on a linker that runs no code writes to no object. -/
theorem LinkerCall.changes_run {c : LinkerCall} {l l' : Linker} {r : Except Failure Unit}
    (plain : c.IsPlain) (h : c.run l w = some (r, l', w')) : w.Changes T w' := by
  rcases changes_run_or_reactor h with hchanges | ⟨limit, module, m, rfl, hrole, -⟩
  · exact hchanges
  · cases hrole.symm.trans plain.1

/-! ## What an embedder does -/

/-- The object of the handle that an operation writes through. -/
def StoreCall.handle? : StoreCall → Option Object
  | setGlobal addr _ => some (.global addr)
  | setTable addr .. | growTable addr .. => some (.table addr)
  | growMemory addr _ | writeMemory addr .. => some (.memory addr)
  | _ => none

/-- An operation that runs no code writes through its handle, or through the segments of an instance
that it makes. -/
theorem StoreCall.changes_run {c : StoreCall} (live : List BoxId)
    (handle : ∀ o ∈ c.handle?, T o)
    (segments : ∀ m items, c = .instantiate m items → w.Changes T (w.instantiate m items).2)
    (hmemory : ∀ t, c ≠ .newMemory t) (hsystem : ∀ config, c ≠ .setWasi config) :
    w.Changes T (c.run live w).2 := by
  have hok {r : Except Error World} (h : ∀ w', r = .ok w' → w.Changes T w') :
      w.Changes T (r.toOption.getD w) :=
    Except.getD_of_ok (P := (w.Changes T ·)) .refl h
  have hmade {r : Except Error (Nat × World)} (h : ∀ n w', r = .ok (n, w') → w.Changes T w') :
      w.Changes T ((r.map (·.2)).toOption.getD w) :=
    Except.getD_map_of_ok (P := (w.Changes T ·)) .refl h
  cases c with
  | newHostFunc type ops => exact changes_newHostFunc type ops w
  | idleFunc => exact changes_newFunc _ _ w
  | instantiate m items => exact segments m items rfl
  | newGlobal type init => exact hmade fun _ _ h => changes_newGlobal h
  | getGlobal addr => exact changes_reveal _ w
  | setGlobal addr v => exact hok fun _ h => changes_setGlobal (handle _ rfl) h
  | newTable type init => exact hmade fun _ _ h => changes_newTable h
  | getTable addr index => exact changes_getTable addr index w
  | setTable addr index v => exact hok fun _ h => changes_setTable (handle _ rfl) h
  | growTable addr delta v => exact changes_growTable (handle _ rfl) delta v w
  | newMemory type => exact absurd rfl (hmemory type)
  | growMemory addr delta => exact hmade fun _ _ h => changes_growMemory (handle _ rfl) h
  | writeMemory addr offset bytes =>
      simp only [run]
      cases hnew : w.writeMemory addr offset bytes with
      | some w' => exact changes_writeMemory (handle _ rfl) hnew
      | none => exact .refl
  | collect => exact changes_collect live w
  | addFuel n => exact hok fun _ h => changes_addFuel h
  | setWasi config => exact absurd rfl (hsystem config)

theorem Task.changes_finish (t : Task) (r : Except Fault (List StoreVal)) (w : World) :
    w.Changes T (t.finish r w).2 := by
  unfold finish
  split
  · split
    · exact (changes_revealAll _ w).trans (changes_unholdAll _ _)
    · exact changes_unholdAll _ w
  · exact changes_unholdAll _ w

/-! ## Steps -/

namespace Usage

variable {u u' : Usage}

/-- The next step sets up the system interface of the store: the context is the one that the
configuration has in the process of the embedder. -/
inductive SetsUp (u : Usage) (config : Wasi.Config) (context : Wasi.Context) : Usage → Prop
  | intro (free : u.IsFree)
      (built : config.build u.world.shared.process u.world.shared.files = .ok context) :
      SetsUp u config context
        { u with world := u.world.mapStore fun s => { s with wasi := context } }

/-- The next step makes a memory of a type. -/
inductive Makes (u : Usage) (t : MemoryType) : Usage → Prop
  | intro {a : Nat} {w : World} (free : u.IsFree) (new : u.world.newMemory t = some (a, w)) :
      Makes u t { u with world := w }

theorem Makes.wasi_eq {t : MemoryType} (h : u.Makes t u') :
    u'.world.store.wasi = u.world.store.wasi := by
  obtain ⟨-, hnew⟩ := h
  simp only [World.newMemory] at hnew
  split at hnew <;> cases hnew
  rfl

/-- A step comes down to changes of the world, or it makes a memory, or it sets up the system
interface. -/
theorem Step.world_cases (h : u.Step u') : u.world.Alters u'.world ∨ (∃ t, u.Makes t u') ∨
    ∃ config context, u.SetsUp config context u' := by
  cases h with
  | shared s => exact .inl (changes_aside rfl rfl rfl)
  | @store c live free genuine =>
      by_cases hmemory : ∃ t, c = .newMemory t
      · obtain ⟨t, rfl⟩ := hmemory
        simp only [StoreCall.run]
        cases hnew : u.world.newMemory t with
        | none => exact .inl .refl
        | some p => exact .inr (.inl ⟨t, .intro free hnew⟩)
      · by_cases hsystem : ∃ config, c = .setWasi config
        · obtain ⟨config, rfl⟩ := hsystem
          simp only [StoreCall.run, World.setWasi]
          cases hbuilt : config.build u.world.shared.process u.world.shared.files with
          | ok context => exact .inr (.inr ⟨config, context, .intro free hbuilt⟩)
          | error e => exact .inl .refl
        · exact .inl (StoreCall.changes_run live (fun _ _ => trivial)
            (fun m items _ => alters_instantiate m items _) (not_exists.mp hmemory)
            (not_exists.mp hsystem))
  | call idle fits => exact .inl (Machine.alters_enter _ (changes_taken _ _) _ _ _)
  | start idle start => exact .inl (Machine.alters_enter (Machine.idle u.world) .refl _ _ _)
  | work task step => exact .inl (Machine.alters_step step)
  | @move t h rest task at_host c => exact .inl (HostMove.alters_run h rest (t.machine u.world) c)
  | @answer t r w task ended =>
      obtain rfl : w = u.world := Machine.step_end ended
      exact .inl (t.changes_finish r u.world)
  | newLinker => exact .inl .refl
  | dropLinker s linkers => exact .inl (changes_aside rfl rfl rfl)
  | link linkers free plain genuine done => exact .inl (LinkerCall.alters_run done)
  | @resolve l n d known free found => exact .inl (d.changes_toItem u.world)

end Usage

end WasmHost

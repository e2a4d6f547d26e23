import WasmHost.Proofs.Embedding.Changes
import WasmHost.Proofs.Machine.Sharing

/-!
# A store in use changes only what its routes lead to

Each step of a usage writes through some routes: an embedder through the handle that it works on, an
instance through the indices that its segments name, code and host functions through those of their
machine. All objects that none of these routes leads to stay as they are, over any number of steps.
-/

namespace WasmHost

open World

variable {T : Object → Prop} {w w' : World}

/-! ## What an embedder does -/

/-- The routes through which an operation of an embedder writes. -/
def StoreCall.routes (w : World) : StoreCall → List Route
  | setGlobal addr _ => [.handle (.global addr)]
  | setTable addr .. | growTable addr .. => [.handle (.table addr)]
  | growMemory addr _ | writeMemory addr .. => [.handle (.memory addr)]
  | instantiate m _ => w.segmentRoutes m
  | _ => []

theorem StoreCall.routes_of_handle {c : StoreCall} {o : Object} (h : o ∈ c.handle?) (w : World) :
    c.routes w = [.handle o] := by
  cases c <;> cases h <;> rfl

/-- The routes through which a host function writes besides its list of operations. -/
def HostMove.routes (w : World) : HostMove → List Route
  | call func .. => w.entryRoutes func none
  | start addr _ => (w.startFunc? addr).elim [] (w.entryRoutes · (some addr))
  | _ => []

theorem StoreCall.changesOnly_run {c : StoreCall} (live : List BoxId) (hw : w.Typed)
    (genuine : c.Genuine w) (hT : (c.run live w).2.Covers (c.routes w) T) :
    w.ChangesOnly T (c.run live w).2 := by
  by_cases hmemory : ∃ t, c = .newMemory t
  · obtain ⟨t, rfl⟩ := hmemory
    simp only [run]
    cases hnew : w.newMemory t with
    | some p => exact changesOnly_newMemory hnew
    | none => exact .refl T w
  · by_cases hsystem : ∃ config, c = .setWasi config
    · obtain ⟨config, rfl⟩ := hsystem
      exact Except.getD_of_ok (P := (w.ChangesOnly T ·)) (.refl T w) fun _ h =>
        .of_objects (objects_setWasi h)
    · refine Changes.only (changes_run live (fun o ho => ?_) ?_ (not_exists.mp hmemory)
        (not_exists.mp hsystem))
      · exact hT (.handle o) (routes_of_handle ho w ▸ List.mem_singleton_self _) o rfl
      · rintro m items rfl
        exact changes_segments (typed_run live hw genuine).1 genuine.1 hT

theorem HostMove.changes_run {m : Machine} (hw : m.world.Typed) (h : HostFrame)
    (rest : List Activation) (c : HostMove)
    (hT : (c.run h rest m).world.Covers (c.routes m.world) T) :
    m.world.Changes T (c.run h rest m).world := by
  cases c with
  | call func args result catches => exact Machine.changes_hostCall hw func args _ _ hT
  | start addr catches =>
      simp only [run, routes] at hT ⊢
      split
      · rename_i func hs
        simp only [hs, Option.elim_some] at hT
        refine Machine.changes_enter (m := { m with stack := _ }) ?_ func [] (some addr) hT
        exact hw
      · exact .refl
  | setResult i v => exact h.changes_setResult i v _
  | fail trap => exact Machine.changes_failHost m h trap
  | finish => exact Machine.changes_finishHost m h

/-! ## Steps and runs -/

namespace Usage

/-- One step of a usage, with the routes through which it writes. -/
inductive StepThrough (u : Usage) : List Route → Usage → Prop
  | store {c : StoreCall} (live : List BoxId) (free : u.IsFree) (genuine : c.Genuine u.world) :
      StepThrough u (c.routes u.world) { u with world := (c.run live u.world).2 }
  | call {func : FuncAddr} {args : List HostVal} (idle : u.task = none)
      (fits : checkArgs (u.world.funcType func) args = .ok ()) :
      StepThrough u (u.world.entryRoutes func none)
        (u.goto (newTask (u.world.acceptAll args).1 true) (u.world.begin func args))
  | start {addr : InstanceAddr} {func : FuncAddr} (idle : u.task = none)
      (start : u.world.startFunc? addr = some func) :
      StepThrough u (u.world.entryRoutes func (some addr))
        (u.goto (newTask [] false) ((Machine.idle u.world).enter func [] (some addr)))
  | work {t : Task} {m : Machine} (task : u.task = some t)
      (step : (t.machine u.world).step = .inl m) :
      StepThrough u (t.machine u.world).routes (u.goto t m)
  | move {t : Task} {h : HostFrame} {rest : List Activation} (task : u.task = some t)
      (at_host : t.AtHost h rest) (c : HostMove) :
      StepThrough u (c.routes u.world) (u.goto t (c.run h rest (t.machine u.world)))
  /-- All other steps change no object. -/
  | other {u' : Usage} (step : u.Step u')
      (quiet : u.world.ChangesOnly (fun _ => False) u'.world) : StepThrough u [] u'

/-- A step that writes through no route to the object. -/
def Spares (o : Object) (u u' : Usage) : Prop :=
  ∃ routes, u.StepThrough routes u' ∧ ∀ r ∈ routes, r.object? u'.world ≠ some o

variable {u u' v : Usage} {routes : List Route} {o : Object} {s : Object.State}

theorem StepThrough.step (h : u.StepThrough routes u') : u.Step u' := by
  cases h with
  | store live free genuine => exact .store live free genuine
  | call idle fits => exact .call idle fits
  | start idle start => exact .start idle start
  | work task step => exact .work task step
  | move task at_host c => exact .move task at_host c
  | other step => exact step

/-- Every step writes through some routes. -/
theorem Step.through (h : u.Step u') : ∃ routes, u.StepThrough routes u' := by
  cases h with
  | store live free genuine => exact ⟨_, .store live free genuine⟩
  | call idle fits => exact ⟨_, .call idle fits⟩
  | start idle start => exact ⟨_, .start idle start⟩
  | work task step => exact ⟨_, .work task step⟩
  | move task at_host c => exact ⟨_, .move task at_host c⟩
  | shared s => exact ⟨[], .other (.shared s) (.of_objects rfl)⟩
  | @answer t r w task ended =>
      obtain rfl : w = u.world := Machine.step_end ended
      exact ⟨[], .other (.answer task ended) (.of_objects (t.objects_finish r _))⟩
  | newLinker => exact ⟨[], .other .newLinker (.of_objects rfl)⟩
  | dropLinker s linkers => exact ⟨[], .other (.dropLinker s linkers) (.of_objects rfl)⟩
  | link linkers free plain genuine done =>
      exact ⟨[], .other (.link linkers free plain genuine done)
        (LinkerCall.changes_run plain done).only⟩
  | resolve known free found =>
      exact ⟨[], .other (.resolve known free found) (Definition.changes_toItem _ _).only⟩

/-- A step changes only what its routes lead to. -/
theorem Typed.changesOnly_step (h : u.Typed) (step : u.StepThrough routes u')
    (hT : u'.world.Covers routes T) : u.world.ChangesOnly T u'.world := by
  cases step with
  | store live free genuine => exact StoreCall.changesOnly_run live h.world genuine hT
  | @call func args idle fits =>
      have hobjects := objects_taken args u.world
      rw [← entryRoutes_of_objects hobjects] at hT
      exact Changes.only ((changes_taken args u.world).trans (Machine.changes_enter
        (m := Machine.idle _) (h.world.of_objects hobjects) func _ none hT))
  | @start addr func idle start =>
      exact (Machine.changes_enter (m := Machine.idle u.world) h.world func [] (some addr) hT).only
  | work task step =>
      obtain ⟨final, ht⟩ := h.task _ task
      exact (Machine.changes_step ht step hT).only
  | @move t f rest task at_host c =>
      obtain ⟨final, ht⟩ := h.task _ task
      exact (HostMove.changes_run ht.world f rest c hT).only
  | other step quiet =>
      exact ⟨fun a x _ => quiet.globals a x not_false, fun a x _ => quiet.tables a x not_false,
        fun a x _ => quiet.memories a x not_false⟩

/-- A step that writes through no route to an object leaves it all that it holds. -/
theorem Typed.state_of_spares (h : u.Typed) (spares : Spares o u u')
    (hs : u.world.state? o = some s) : u'.world.state? o = some s := by
  obtain ⟨routes, step, hspared⟩ := spares
  have hchanges := h.changesOnly_step (T := (· ≠ o)) step fun r hr o' ho hne =>
    hspared r hr (ho.trans (congrArg some hne))
  exact hchanges.state? (fun hne => hne rfl) hs

/-- As long as nothing is written through a route to an object, it keeps all that it holds. -/
theorem Reachable.state_of_spares (hu : u.Reachable)
    (spares : Relation.ReflTransGen (Spares o) u v) (hs : u.world.state? o = some s) :
    v.Reachable ∧ v.world.state? o = some s := by
  induction spares with
  | refl => exact ⟨hu, hs⟩
  | tail _ hstep ih =>
      obtain ⟨hreached, hstate⟩ := ih
      obtain ⟨routes, step, -⟩ := id hstep
      exact ⟨hreached.step step.step, hreached.typed.state_of_spares hstep hstate⟩

end Usage

end WasmHost

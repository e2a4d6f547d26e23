import WasmHost.Proofs.Embedding.References
import WasmHost.Proofs.Embedding.Usage
import WasmHost.Proofs.Machine.Surplus

/-!
# A collection releases what is not in use

A reference that an embedder hands to a store may pass through globals, arguments, results and the
callbacks of host functions. Once the embedder has no clone of it any longer and no global and no
table holds it, a collection finalizes it. There are two ways to lose a reference for good, and
both are about tables: an embedder that sets an element leaves the box of the old one behind, and a
table that does not grow keeps the box of what it was offered.
-/

namespace WasmHost

open Val World

variable {r : RefId} {H home : Multiset BoxId} {w w' : World}

/-! ## What an embedder does with a store -/

/-- The operation leaves a hold of a box for the reference behind: it replaces an element of a table
that is the reference, or offers the reference to a table that does not grow. -/
def StoreCall.Strands (r : RefId) (w : World) : StoreCall → Prop
  | setTable addr index v =>
    v.type = (w.table addr).element ∧
      ∃ old, (w.table addr).elems[index]? = some old ∧ w.store.Refers old r
  | growTable addr delta v =>
    v.type = (w.table addr).element ∧ w.Vain addr delta ∧ v.foreign? = some r
  | _ => False

theorem StoreCall.tight_run {c : StoreCall} (h : w.Tight r H) (spares : ¬c.Strands r w)
    (live : List BoxId) : (c.run live w).2.Tight r H := by
  have hok {answer : Except Error World} (hr : ∀ w', answer = .ok w' → w'.Tight r H) :
      (answer.toOption.getD w).Tight r H :=
    Except.getD_of_ok (P := (World.Tight r H ·)) h hr
  have hmade {answer : Except Error (Nat × World)}
      (hr : ∀ n w', answer = .ok (n, w') → w'.Tight r H) :
      ((answer.map (·.2)).toOption.getD w).Tight r H :=
    Except.getD_map_of_ok (P := (World.Tight r H ·)) h hr
  cases c with
  | newHostFunc | idleFunc => exact h.of_le rfl le_rfl
  | newGlobal type init => exact hmade fun _ _ hr => h.newGlobal hr
  | getGlobal addr => exact h.reveal _
  | setGlobal addr v => exact hok fun _ hr => h.setGlobal hr
  | newTable type init => exact hmade fun _ _ hr => h.newTable hr
  | getTable addr index => exact h.getTable addr index
  | setTable addr index v =>
      exact hok fun _ hr => h.setTable hr fun hkind old hold hrefers =>
        spares ⟨hkind, old, hold, hrefers⟩
  | growTable addr delta v =>
      exact h.growTable fun hkind hvain hv => spares ⟨hkind, hvain, hv⟩
  | newMemory type =>
      simp only [run]
      cases hr : w.newMemory type with
      | none => exact h
      | some p =>
          simp only [World.newMemory] at hr
          split at hr <;> cases hr
          exact h.of_le rfl le_rfl
  | growMemory addr delta => exact hmade fun _ _ hr => h.growMemory hr
  | writeMemory addr offset bytes =>
      simp only [run]
      cases hr : w.writeMemory addr offset bytes with
      | none => exact h
      | some w' => exact h.writeMemory hr
  | instantiate m imports => exact h.instantiate m imports
  | collect => exact h.collect live
  | addFuel n => exact hok fun _ hr => h.addFuel hr
  | setWasi config =>
      refine hok fun w' hr => ?_
      unfold World.setWasi at hr
      cases hb : config.build w.shared.process w.shared.files <;> rw [hb] at hr <;> cases hr
      exact h.of_le rfl le_rfl

theorem HostMove.tight_run {c : HostMove} {h : HostFrame} {rest : List Activation} {m : Machine}
    (hm : m.Tight r home) (hstack : m.stack = .host h :: rest) (hc : m.control = .run) :
    (c.run h rest m).Tight r home := by
  obtain ⟨idle, hw⟩ := hm.idleHost hc hstack
  cases c with
  | call func args result catches => exact Machine.tight_hostCall idle hstack hw _ _ _ _
  | start addr catches =>
      simp only [run]
      split
      · refine Machine.tight_enter
          (m := { m with stack := .host { h with pending := some ⟨[], none, catches⟩ } :: rest })
          (hw.reshape ?_) _ _ _
        simpa [heldBy_cons, Activation.held] using
          add_left_comm home (foreigns h.held) (heldBy rest)
      · exact hm
  | setResult i v => exact Machine.tight_onHost_result idle (Machine.tight_setResult hw i v) m
  | fail t => exact Machine.tight_failHost hstack hw t
  | finish => exact Machine.tight_finishHost hstack hw

theorem Task.tight_nothing (h : w.Tight r 0) :
    (Task.nothing.machine w).Tight r (foreigns Task.nothing.held) :=
  ⟨h, fun _ _ _ hstack => (by cases hstack)⟩

theorem Task.tight_finish {t : Task} (h : w.Tight r (foreigns t.held))
    (answer : Except Fault (List StoreVal)) : (t.finish answer w).2.Tight r 0 := by
  rw [← add_zero (foreigns t.held)] at h
  unfold finish
  split
  · split
    · exact (h.revealAll _).unholdAll
    · exact h.unholdAll
  · exact h.unholdAll

/-- One step of an embedder, or of the code that runs, leaves no hold behind, unless it is one that
strands the reference. -/
theorem World.Act.tight {owned : RefId → Prop} {t t' : Option Task} {events : List Event}
    {gained : List RefId} (h : Act owned w t events gained w' t')
    (hm : ((t.getD .nothing).machine w).Tight r (foreigns (t.getD .nothing).held))
    (typed : ∀ t₀ ∈ t, ∃ final, (t₀.machine w).Typed final)
    (calls : ∀ c : StoreCall, t' = t → w'.store = (c.run [] w).2.store → ¬c.Strands r w)
    (code : ¬((t.getD .nothing).machine w).Strands r) :
    ((t'.getD .nothing).machine w').Tight r (foreigns (t'.getD .nothing).held) := by
  have hcall {c : StoreCall} {live : List BoxId} (ht : t' = t) (hw : w' = (c.run live w).2) :
      ¬c.Strands r w := fun hstrands => by
    refine calls c ht ?_ hstrands
    cases c with
    | setTable | growTable => rw [hw]; rfl
    | _ => cases hstrands
  cases h with
  | idle c => exact Task.tight_nothing (StoreCall.tight_run hm.world (hcall rfl rfl) [])
  | host at_host c => exact ⟨StoreCall.tight_run hm.world (hcall rfl rfl) _, hm.ready⟩
  | @call func args m fits refs begun =>
      have htaken := (hm.world.acceptAll args).exposeAll (w.acceptAll args).1
      rw [← begun]
      exact Machine.tight_enter
        (m := .idle ((w.acceptAll args).2.exposeAll (w.acceptAll args).1)) htaken _ _ _
  | @start addr func m start begun =>
      rw [← begun]
      exact Machine.tight_enter (m := .idle w) hm.world _ _ _
  | @work t m step =>
      obtain ⟨final, htyped⟩ := typed t rfl
      exact hm.step htyped code step
  | @move t h rest at_host c => exact HostMove.tight_run hm at_host.1 at_host.2
  | keep calling back =>
      exact ⟨hm.world.revealAll _, hm.ready⟩
  | @answer w' t answer ended =>
      have hstack : t.stack = [] := Machine.stack_of_end ended
      have hworld := hm.world
      simp only [Option.getD_some, Task.machine, hstack, heldBy_nil, add_zero] at hworld
      rw [Machine.step_end ended]
      exact Task.tight_nothing (Task.tight_finish hworld answer)

/-! ## Runs that leave no hold behind -/

/-- No box for the reference is held more often than something in the store holds it. -/
def Site.Tight (r : RefId) (s : Site) : Prop :=
  ∀ sh, (s.call.machine ⟨s.store, sh⟩).Tight r (foreigns s.call.held)

theorem Machine.Tight.site {w : World} {t : Option Task}
    (h : ((t.getD .nothing).machine w).Tight r (foreigns (t.getD .nothing).held)) :
    (⟨w.store, t⟩ : Site).Tight r :=
  fun _ => ⟨h.world.of_store rfl, h.ready⟩

theorem Site.Tight.hires {s : Site} {sh : Shared} (h : s.Tight r)
    (hw : World.Hires ⟨s.store, sh⟩ w) : ({ s with store := w.store } : Site).Tight r := by
  obtain ⟨⟨fs, ids, hstore⟩, -⟩ := hw
  refine fun sh' => ⟨?_, (h sh').ready⟩
  exact (h sh').world.of_le (by rw [Task.machine, hstore]; rfl) (by rw [Task.machine, hstore]; rfl)

theorem Site.tight_create (engine : Engine) (sh : Shared) :
    ({ store := (World.create engine sh).store } : Site).Tight r :=
  Machine.Tight.site (t := none) (Task.tight_nothing fun b x hx => (by simp [World.create] at hx))

namespace Embedding

variable {e e' : Embedding} {events log : List Event}

/-- The stores are used as an embedder can: what it imports is of the store, and fits. -/
def Proper (e : Embedding) : Prop :=
  ∀ s ∈ e.sites, ∃ linkers,
    ({ world := ⟨s.store, e.shared⟩, task := s.task, linkers } : Usage).Reachable

/-- On the way from one embedding to the next a hold of a box for the reference is left behind: by
code that is about to offer it to a table that does not grow, or by an operation of an embedder. -/
inductive Strands (r : RefId) (e e' : Embedding) : Prop
  | code {s : Site} (known : s ∈ e.sites) (strands : (s.call.machine ⟨s.store, e.shared⟩).Strands r)
  | embedder {before after : List Site} {s : Site} {c : StoreCall}
      (sites : e.sites = before ++ s :: after) (strands : c.Strands r ⟨s.store, e.shared⟩)
      (leads : e'.sites =
        before ++ { s with store := (c.run [] ⟨s.store, e.shared⟩).2.store } :: after)

/-- A run of an embedding with proper stores in which no hold of a box for the reference is left
behind. -/
inductive SparingRun (r : RefId) : List Event → Embedding → Prop
  | start (files : FileSystem) : SparingRun r [] { shared := { files } }
  | step {log events : List Event} {e e' : Embedding} (before : SparingRun r log e)
      (proper : e.Proper) (step : e.Step events e') (spares : ¬e.Strands r e') :
      SparingRun r (events ++ log) e'

theorem SparingRun.run (h : SparingRun r log e) : Run log e := by
  induction h with
  | start files => exact .start files
  | step _ _ step _ ih => exact ih.step step

theorem tight_act {before after : List Site} {s : Site} {gained : List RefId} {task : Option Task}
    (hs : ∀ s ∈ e.sites, s.Tight r) (proper : e.Proper) (sites : e.sites = before ++ s :: after)
    (act : World.Act (· ∈ e.owned) ⟨s.store, e.shared⟩ s.task events gained w task)
    (spares : ¬e.Strands r { e with
      shared := w.shared, sites := before ++ ⟨w.store, task⟩ :: after
      handles := gained ++ e.handles }) : (⟨w.store, task⟩ : Site).Tight r := by
  have known : s ∈ e.sites := by simp [sites]
  obtain ⟨linkers, reached⟩ := proper s known
  refine (act.tight (hs s known e.shared) reached.typed.task (fun c ht hw strands => ?_) fun
    strands => spares (.code known strands)).site
  refine spares (.embedder sites strands ?_)
  rw [ht, hw]

/-- Each step leaves no hold behind. -/
theorem tight_step {h₀ : RefHeap} (sound : e.Sound h₀) (hs : ∀ s ∈ e.sites, s.Tight r)
    (proper : e.Proper) (step : e.Step events e') (spares : ¬e.Strands r e') :
    ∀ s ∈ e'.sites, s.Tight r := by
  -- all but one of the sites are as they were
  have hother {before after : List Site} {s s' t : Site} (sites : e.sites = before ++ s :: after)
      (ht : t ∈ before ++ s' :: after) (hs' : s'.Tight r) : t.Tight r := by
    rcases List.mem_append.mp ht with ht | ht
    · exact hs t (by simp [sites, ht])
    · rcases List.mem_cons.mp ht with rfl | ht
      · exact hs'
      · exact hs t (by simp [sites, ht])
  cases step with
  | newRef | cloneRef | dropRef | request | changeFiles | newLinker | dropLinker => exact hs
  | newStore engine =>
      intro s known
      rcases List.mem_append.mp known with known | known
      · exact hs s known
      · rw [List.mem_singleton.mp known]
        exact Site.tight_create engine e.shared
  | dropStore sites =>
      intro s known
      refine hs s ?_
      rw [sites]
      exact ((List.sublist_cons_self _ _).append_left _).subset known
  | act sites act => exact fun t ht => hother sites ht (tight_act hs proper sites act spares)
  | @link before after s _ _ _ _ _ _ _ sites linkers _ plain refs done =>
      have hired := LinkerCall.sound_run done (sound.linkerSound sites linkers) plain fun r hr =>
        mem_of_owned (refs r hr)
      exact fun t ht => hother sites ht ((hs s (by simp [sites])).hires hired.hires)
  | @resolve before after s l n d sites _ known found =>
      obtain ⟨lefts, rights, linkers⟩ := List.append_of_mem known
      obtain ⟨ds, ds', hdefs, -⟩ := List.lookup_eq_some_iff.mp found
      have hired := (sound.linkerSound sites linkers).toItem (n := n) (d := d) (by simp [hdefs])
      exact fun t ht => hother sites ht ((hs s (by simp [sites])).hires hired.hires)

theorem SparingRun.tight (h : SparingRun r log e) : ∀ s ∈ e.sites, s.Tight r := by
  induction h with
  | start files => exact fun s hs => by cases hs
  | step before proper step spares ih =>
      obtain ⟨h₀, sound⟩ := Sound.run before.run
      exact tight_step sound ih proper step spares

/-! ## Collections -/

/-- The embedding after a collection of a store in which nothing runs. -/
def collected (e : Embedding) (before : List Site) (s : Store) (after : List Site) : Embedding :=
  { e with
    shared := ((⟨s, e.shared⟩ : World).collect []).shared
    sites := before ++ { store := ((⟨s, e.shared⟩ : World).collect []).store } :: after }

variable {before after : List Site} {s : Store}

theorem step_collected (sites : e.sites = before ++ { store := s } :: after) :
    e.Step [] (e.collected before s after) :=
  .act sites (.idle .collect (fun _ hr => (by cases hr)) fun _ hm => (by cases hm))

theorem owned_collected (sites : e.sites = before ++ { store := s } :: after) :
    (e.collected before s after).owned = e.owned := by
  have hbodies := congrArg Accounts.bodies (accounts_collect [] ⟨s, e.shared⟩)
  have hcaptured : (e.collected before s after).shared.captured = e.shared.captured := by
    unfold Shared.captured
    exact congrArg (fun bodies : Array Closure =>
      (bodies.toList.filter (·.users ≠ 0)).flatMap fun c => HostOp.refsOf c.ops) hbodies
  rw [owned, owned, hcaptured, sites]
  simp [collected, Site.clones]

/-- A collection of a store in which nothing runs finalizes each reference that nobody has a clone
of any longer, that no global and no table of the store holds and that no other store was handed. -/
theorem collection_finalizes (run : SparingRun r log e)
    (sites : e.sites = before ++ { store := s } :: after) (known : r < e.shared.refs.things.size)
    (dropped : r ∉ e.owned) (globals : ∀ g ∈ s.globals, ¬s.Refers g.value r)
    (tables : ∀ t ∈ s.tables, ∀ v ∈ t.elems, ¬s.Refers v r)
    (elsewhere : ∀ t ∈ before ++ after, ¬t.store.Received r) :
    e.Step [] (e.collected before s after) ∧
      (e.collected before s after).shared.refs.count r = 0 ∧
      e.shared.refs.payload r ∈ (e.collected before s after).shared.refs.finalized := by
  have step := step_collected sites
  obtain ⟨h₀, sound⟩ := Sound.run run.run
  have sound' := sound.rebase.step step
  have tight := (run.tight { store := s } (by simp [sites]) e.shared).world
  have released : (e.collected before s after).shared.refs.count r = 0 := by
    refine sound'.count_of_unboxed (owned_collected sites ▸ dropped) fun t ht hr => ?_
    rcases List.mem_append.mp ht with ht | ht
    · exact elsewhere t (List.mem_append_left _ ht) (Store.received_of_boxed hr)
    · rcases List.mem_cons.mp ht with rfl | ht
      · exact Tight.not_boxed tight globals tables hr
      · exact elsewhere t (List.mem_append_right _ ht) (Store.received_of_boxed hr)
  refine ⟨step, released, ?_⟩
  obtain ⟨hlt, hpayload⟩ := sound'.shared.refs.ages.kept r known
  rw [← hpayload]
  exact sound'.shared.refs.logged.mem_iff.mpr (RefHeap.payload_mem_gone hlt released)

/-- A reference that was offered to a table that does not grow stays: neither the embedder nor a
global nor a table has it, and a collection does not give it up. -/
theorem kept_after_vain_growth : ∃ log e s, Run log e ∧ e.sites = [{ store := s }] ∧ e.owned = [] ∧
    s.globals = #[] ∧ (∀ t ∈ s.tables, t.elems = #[]) ∧
      (e.collected [] s []).shared.refs.count 0 = 1 := by
  have hsites (s : Site) : [s] = [] ++ s :: [] := rfl
  have made : Run [] _ := .step (.start ⟨[], #[]⟩) (.newRef "x")
  have created := made.step (.newStore (plainEngine false false))
  have tabled := created.step (.act (hsites _)
    (.idle (.newTable ⟨.externref, ⟨0, some 0⟩⟩ (.externref none))
      (by simp [StoreCall.refs, Val.foreign?]) (by simp [StoreCall.modules])))
  have offered := tabled.step (.act (hsites _)
    (.idle (.growTable 0 1 (.externref (some 0)))
      (fun r hr => List.mem_append_left _ (List.mem_append_left _ hr))
      (by simp [StoreCall.modules])))
  have hhandles : [(0 : RefId)] = [] ++ 0 :: [] := rfl
  exact ⟨_, _, _, offered.step (.dropRef hhandles), rfl, rfl, rfl, by decide, rfl⟩

/-! ## A reference that was in a global and in a call -/

theorem spares_of_no_tables (tables : ∀ s ∈ e.sites, s.store.tables = #[])
    (quiet : ∀ s ∈ e.sites, ∀ f rest, s.call.stack ≠ .code f :: rest) : ¬e.Strands r e' := by
  rintro (⟨known, strands⟩ | @⟨before, after, s, c, sites, strands, -⟩)
  · obtain ⟨f, rest, -, -, -, hstack, -⟩ := strands
    exact quiet _ known f rest hstack
  · have htable (addr : Nat) : (⟨s.store, e.shared⟩ : World).table addr = ⟨.funcref, #[], 0⟩ := by
      simp [World.table, tables s (by simp [sites])]
    cases c with
    | setTable addr index v =>
        obtain ⟨-, old, hold, -⟩ := strands
        rw [htable] at hold
        cases hold
    | growTable addr delta v =>
        obtain ⟨hkind, -, hv⟩ := strands
        rw [htable] at hkind
        cases v with
        | externref => cases hkind
        | _ => cases hv
    | _ => exact strands

/-- The only store of an embedding with one handle, which a sparing run has led to. -/
structure Solo (w : World) (task : Option Task) : Prop where
  run : ∃ log, SparingRun 0 log { alone w task with handles := [0] }
  reached : ({ world := w, task } : Usage).Reachable

theorem Solo.step {t : Option Task} (h : Solo w t) (tables : w.store.tables = #[])
    (quiet : ∀ f rest, (t.getD .nothing).stack ≠ .code f :: rest)
    (step : ({ alone w t with handles := [0] } : Embedding).Step events e') :
    ∃ log, SparingRun 0 log e' := by
  obtain ⟨log, run⟩ := h.run
  refine ⟨events ++ log, run.step (List.forall_mem_singleton.mpr ⟨[], h.reached⟩) step
    (spares_of_no_tables ?_ ?_)⟩
  · exact List.forall_mem_singleton.mpr tables
  · exact List.forall_mem_singleton.mpr quiet

theorem Solo.act {t t' : Option Task} (h : Solo w t) (tables : w.store.tables = #[])
    (quiet : ∀ f rest, (t.getD .nothing).stack ≠ .code f :: rest)
    (act : World.Act (· ∈ ({ alone w t with handles := [0] } : Embedding).owned)
      w t events [] w' t')
    (uses : ({ world := w, task := t } : Usage).Step { world := w', task := t' }) :
    Solo w' t' := by
  have hsites : ({ alone w t with handles := [0] } : Embedding).sites = [] ++ ⟨w.store, t⟩ :: [] :=
    rfl
  exact ⟨h.step tables quiet (.act hsites act), h.reached.step uses⟩

/-- The engine of `withGlobal` has a store, and the embedder a reference. -/
def withHandle : World :=
  World.create (plainEngine false false) { refs := { things := #[⟨"x", 1⟩] }, files := ⟨[], #[]⟩ }

theorem solo_withHandle : Solo withHandle none := by
  have hnone {P : Site → Prop} : ∀ s ∈ [], P s := fun _ hs => by cases hs
  have made : SparingRun 0 [] _ := .step (.start ⟨[], #[]⟩) hnone (.newRef "x")
    (spares_of_no_tables hnone hnone)
  exact ⟨⟨_, made.step hnone (.newStore (plainEngine false false))
    (spares_of_no_tables hnone hnone)⟩, .start _ _⟩

/-- An operation of an embedder that passes its reference, or none. -/
theorem Solo.store (h : Solo w none) (tables : w.store.tables = #[]) (c : StoreCall)
    (refs : ∀ r ∈ c.refs, r = 0) (gained : (c.run [] w).1 = []) (modules : c.modules = [])
    (genuine : c.Genuine w) : Solo (c.run [] w).2 none := by
  have act : World.Act (· ∈ ({ alone w with handles := [0] } : Embedding).owned) w none
      (c.events w) (c.run [] w).1 (c.run [] w).2 none :=
    .idle c (fun r hr => by simp [refs r hr, owned]) (by simp [modules])
  rw [gained] at act
  exact h.act tables (fun _ _ h => by cases h) act
    (.store (c := c) [] (fun _ ht => by cases ht) genuine)

/-- The store of `withGlobal` with a host function that takes a reference. -/
def withReceiver : World := ((withGlobal 1).newHostFunc ⟨[.externref], []⟩ []).2

/-- A call of the host function with the reference. -/
def receiving : Machine := withReceiver.begin 0 [.externref (some 0)]

/-- The call as a task of its store. -/
def receivingTask : Task :=
  { stack := receiving.stack, control := receiving.control, used := receiving.used
    held := [.externref (some 1)], answers := true }

theorem solo_receiving : Solo receiving.world (some receivingTask) := by
  have put : Solo (withGlobal 1) none := solo_withHandle.store rfl
    (.newGlobal ⟨.externref, true⟩ (.externref (some 0)))
    (by simp [StoreCall.refs, Val.foreign?]) rfl rfl trivial
  have hosted : Solo withReceiver none := put.store rfl (.newHostFunc ⟨[.externref], []⟩ [])
    (by simp [StoreCall.refs, HostOp.refsOf]) rfl rfl trivial
  have hfits : checkArgs (withReceiver.funcType 0) [.externref (some 0)] = .ok () := rfl
  exact hosted.act rfl (fun _ _ h => by cases h)
    (.call hfits (by simp [Val.foreign?, owned]) rfl) (.call rfl hfits)

/-- The store when the host function has returned, and its box is still held so many times. -/
def withReceived (holds : Nat) : World :=
  { withReceiver with
    store := { withReceiver.store with boxes := #[⟨0, 1, false⟩, ⟨0, holds, true⟩] }
    shared := { withReceiver.shared with refs := { things := #[⟨"x", 3⟩] } } }

/-- The machine when the host function has returned. -/
def received : Machine :=
  { world := withReceived 1, stack := [], control := .back [], used := 0 }

theorem solo_withReceived : Solo (withReceived 0) none := by
  have worked : (receivingTask.machine receiving.world).step = .inl received := rfl
  have ended : ((receivingTask.leave received).machine received.world).step =
    .inr (.ok [], withReceived 1) := rfl
  have returned := solo_receiving.act rfl (fun _ _ h => by cases h) (.work worked)
    (.work rfl worked)
  have answer := Usage.Step.answer
    (u := { world := received.world, task := some (receivingTask.leave received) }) rfl ended
  exact returned.act rfl (fun _ _ h => by cases h) (.answer ended) answer

/-- A reference was in a global and in a call, and its handle is dropped. The store still has a box
that code has seen; it gives the box up when it collects. -/
theorem finalized_after_passages : ∃ log e e', SparingRun 0 log e ∧ e.Step [] e' ∧
    e.shared.refs.count 0 = 1 ∧ e.shared.refs.finalized = [] ∧
      e'.shared.refs.count 0 = 0 ∧ "x" ∈ e'.shared.refs.finalized := by
  have cleared := solo_withReceived.store rfl (.setGlobal 0 (.externref none))
    (by simp [StoreCall.refs, Val.foreign?]) rfl rfl trivial
  have hhandles : [(0 : RefId)] = [] ++ 0 :: [] := rfl
  obtain ⟨log, run⟩ := cleared.step rfl (fun _ _ h => by cases h) (.dropRef hhandles)
  have hsites (s : Store) : [(⟨s, none⟩ : Site)] = [] ++ { store := s } :: [] := rfl
  have globals : ∀ g ∈ #[(⟨⟨.externref, true⟩, .externref none⟩ : Global)],
      g.value.foreign? = none := by decide
  obtain ⟨step, released, finalized⟩ := collection_finalizes run (hsites _) (by decide) (by decide)
    (fun g hg hr => by
      obtain ⟨b, x, hb, -⟩ := hr
      cases (globals g hg).symm.trans hb)
    (fun t ht => (Array.not_mem_empty t ht).elim) (by simp)
  exact ⟨log, _, _, run, step, rfl, rfl, released, finalized⟩

end Embedding

end WasmHost

import WasmHost.Proofs.Embedding.Accounts
import WasmHost.Proofs.Embedding.Closures
import WasmHost.Proofs.Machine.Holdings

/-!
# What a store and a call in it hold

Whatever an embedder does with a store, and whatever its code does, each clone stays with an owner
and each box with what holds it. New functions of a store come with the users of their bodies.
-/

namespace WasmHost

open Val World

variable {h₀ : RefHeap} {O : Multiset RefId} {H : Multiset BoxId} {S : Set BoxId} {w w' : World}

/-! ## New functions -/

/-- The references that the host functions of a store pass by themselves. -/
def Store.passes (s : Store) : Set RefId :=
  {r | ∃ f ∈ s.funcs, ∃ ops, f.body = .host ops ∧ r ∈ HostOp.refsOf ops}

theorem Store.passes_append {s s' : Store} {fs : Array Func} (h : s'.funcs = s.funcs ++ fs) :
    s.passes ⊆ s'.passes := by
  rintro r ⟨f, hf, ops, hbody, hr⟩
  exact ⟨f, by rw [h, Array.mem_append]; exact .inl hf, ops, hbody, hr⟩

theorem Store.Founded.backed {s : Store} {sh : Shared} (h : s.Founded sh) : s.Backed s.passes := by
  intro f hf
  have hfounded := h f hf
  cases hbody : f.body with
  | host ops => exact fun r hr => ⟨f, hf, ops, hbody, hr⟩
  | code | command => rwa [hbody] at hfounded
  | wasi | idle => trivial

/-- What the host functions of a store pass by themselves, the bodies in use have clones of. -/
theorem Store.Founded.captured {s : Store} {sh : Shared} (h : s.Founded sh)
    (hused : ∀ id ∈ s.closures, sh.users id ≠ 0) : ∀ r ∈ s.passes, r ∈ sh.captured := by
  rintro r ⟨f, hf, ops, hbody, hr⟩
  have hfounded := h f hf
  rw [hbody] at hfounded
  obtain ⟨id, hid, hhas⟩ := hfounded
  exact hhas.captured (hused id hid) hr

/-- How functions come to a store: from modules or with no body, or as a host function with a body
of its own. -/
inductive World.Staffs (w w' : World) : Prop
  | grown {fs : Array Func} (funcs : w'.store.funcs = w.store.funcs ++ fs)
      (founded : w.store.Founded w.shared → ∀ f ∈ fs, ∀ s ids, f.body.Founded s ids)
      (closures : w'.store.closures = w.store.closures)
      (bodies : w'.shared.closures = w.shared.closures)
  | hosted (type : FuncType) (ops : List HostOp) (same : w' = (w.newHostFunc type ops).2)

theorem World.Staffs.same (funcs : w'.store.funcs = w.store.funcs)
    (closures : w'.store.closures = w.store.closures)
    (bodies : w'.shared.closures = w.shared.closures) : w.Staffs w' :=
  .grown (funcs.trans (Array.append_empty).symm) (by simp) closures bodies

theorem founded_newFuncs {m : CompiledModule} (hm : ∀ c ∈ m.codes, c.Forward)
    (owner : InstanceAddr) : ∀ f ∈ m.newFuncs owner, ∀ s ids, f.body.Founded s ids := by
  intro f hf s ids
  obtain ⟨c, hc, rfl⟩ := Array.mem_map.mp hf
  exact hm c hc

theorem StoreCall.staffs_run {c : StoreCall} (hm : ∀ m ∈ c.modules, m.IsCompiled)
    (live : List BoxId) (w : World) : w.Staffs (c.run live w).2 := by
  have hsame {w' : World} (h : w'.accounts = w.accounts) : w.Staffs w' :=
    .same (congrArg (·.funcs) h) (congrArg (·.closures) h) (congrArg (·.bodies) h)
  rcases c.accounts_run live w with h | rfl | ⟨n, rfl⟩ | ⟨type, ops, rfl⟩ |
    ⟨m, imports, owner, rfl, h⟩
  · exact hsame h
  · have hidle : (idleFunc.run live w).2.store.funcs =
        w.store.funcs ++ #[⟨⟨[], []⟩, .idle⟩] := by
      simp [run, World.newFunc, mapStore]
    exact .grown hidle
      (fun _ f hf _ _ => by rw [List.mem_singleton.mp (List.mem_toArray.mp hf)]; trivial) rfl rfl
  · simp only [run, World.addFuel]
    split
    · exact .same rfl rfl rfl
    · exact hsame rfl
  · exact .hosted type ops rfl
  · obtain ⟨o, bytes, hbinary⟩ := hm m (List.mem_singleton_self m)
    exact .grown (congrArg (·.funcs) h)
      (fun _ => founded_newFuncs (CompiledModule.forward_ofBinary hbinary) owner)
      (congrArg (·.closures) h) (congrArg (·.bodies) h)

theorem World.Settles.staffs {events : List Event} (h : w.Settles events w') : w.Staffs w' := by
  obtain ⟨-, ⟨fs, hfs, hfuncs⟩, hclosures, hbodies⟩ := h
  refine .grown hfuncs (fun hfounded => ?_) hclosures hbodies
  cases hfs with
  | nothing => simp
  | command known owner => exact founded_newFuncs (hfounded _ known) owner

theorem World.Act.staffs {owned : RefId → Prop} {t t' : Option Task} {events : List Event}
    {gained : List RefId} (h : Act owned w t events gained w' t') : w.Staffs w' := by
  rcases h.settles with ⟨c, live, hm, -, rfl⟩ | hs
  · exact StoreCall.staffs_run hm live w
  · exact hs.staffs

namespace World.Staffs

theorem keeps (h : w.Staffs w') : w.shared.Keeps w'.shared := by
  cases h with
  | grown _ _ _ bodies => exact .of_closures bodies
  | hosted type ops same => exact same ▸ Shared.keeps_newClosure ops w.shared

theorem passes (h : w.Staffs w') : w.store.passes ⊆ w'.store.passes := by
  cases h with
  | grown funcs => exact Store.passes_append funcs
  | hosted type ops same =>
      have hfuncs : w'.store.funcs = w.store.funcs ++ #[⟨type, .host ops⟩] := by
        simp [same, newHostFunc, pushHostFunc, newFunc, mapStore]
      exact Store.passes_append hfuncs

theorem founded (h : w.Staffs w') (hw : w.store.Founded w.shared) :
    w'.store.Founded w'.shared := by
  cases h with
  | grown funcs founded closures bodies =>
      exact hw.append (.of_closures bodies) funcs (by rw [closures]; exact List.Subset.refl _)
        fun f hf => founded hw f hf _ _
  | hosted type ops same =>
      subst same
      have hfuncs : (w.newHostFunc type ops).2.store.funcs =
          w.store.funcs ++ #[⟨type, .host ops⟩] := by
        simp [newHostFunc, pushHostFunc, newFunc, mapStore]
      refine hw.append (Shared.keeps_newClosure ops w.shared) hfuncs (List.subset_cons_self _ _)
        fun f hf => ?_
      rw [List.mem_singleton.mp (List.mem_toArray.mp hf)]
      exact ⟨_, List.mem_cons_self, Shared.hasBody_newClosure ops w.shared⟩

theorem users {U : Multiset ClosureId} (h : w.Staffs w')
    (hw : ∀ id, w.shared.users id = (w.store.closures + U).count id) :
    ∀ id, w'.shared.users id = (w'.store.closures + U).count id := by
  cases h with
  | grown _ _ closures bodies =>
      intro id
      rw [Shared.users, bodies, closures]
      exact hw id
  | hosted type ops same =>
      subst same
      intro id
      have hid : (w.newHostFunc type ops).2.store.closures =
          w.shared.closures.size :: w.store.closures := rfl
      rw [hid, ← Multiset.cons_coe, Multiset.cons_add, Multiset.count_cons, ← hw]
      exact Shared.users_newClosure ops w.shared id

end World.Staffs

/-! ## What the embedder does with a store -/

theorem foreigns_singleton {ρ : Type} (v : Val ρ) : foreigns [v] = v.foreign?.toList := by
  cases h : v.foreign? with
  | none => exact foreigns_of_none h
  | some r => exact foreigns_of_some h

theorem World.Sound.newHostFunc {ops : List HostOp} (h : w.Sound h₀ (w.shared.captured + O) H S)
    (hops : ∀ r ∈ HostOp.refsOf ops, r ∈ (w.shared.captured : Multiset RefId) + O)
    (type : FuncType) :
    (w.newHostFunc type ops).2.Sound h₀ ((w.newHostFunc type ops).2.shared.captured + O) H S := by
  refine ⟨?_, h.held, h.seen⟩
  have hrefs := h.refs
  rw [add_assoc] at hrefs ⊢
  exact Shared.accounted_newClosure hrefs fun r hr => by
    rw [← add_assoc]
    exact Multiset.mem_add.mpr (.inl (hops r hr))

theorem StoreCall.bodies_run {c : StoreCall} (h : ¬∃ type ops, c = .newHostFunc type ops)
    (live : List BoxId) (w : World) : (c.run live w).2.shared.closures = w.shared.closures := by
  rcases c.accounts_run live w with ha | rfl | ⟨n, rfl⟩ | hnew | ⟨m, imports, owner, -, ha⟩
  · exact congrArg (·.bodies) ha
  · rfl
  · simp only [run, World.addFuel]
    split <;> rfl
  · exact absurd hnew h
  · exact congrArg (·.bodies) ha

/-- An operation on a store keeps everything counted. What code no longer uses is forgotten if it
was a collection. -/
theorem StoreCall.sound_run {c : StoreCall} (h : w.Sound h₀ (w.shared.captured + O) H S)
    (hrefs : ∀ r ∈ c.refs, r ∈ (w.shared.captured : Multiset RefId) + O) (live : List BoxId) :
    (c.run live w).2.Sound h₀ ((c.run live w).2.shared.captured + ((c.run live w).1 + O)) H
      (S ∩ {b | b ∈ live}) := by
  have hkept {w' : World} {gained : List RefId} (hs : w'.shared.closures = w.shared.closures)
      (hw : w'.Sound h₀ (gained + (w.shared.captured + O)) H (S ∩ {b | b ∈ live})) :
      w'.Sound h₀ (w'.shared.captured + (gained + O)) H (S ∩ {b | b ∈ live}) := by
    refine hw.reshape ?_ le_rfl
    rw [Shared.captured, hs, ← Shared.captured]
    ac_rfl
  have hnone {w' : World} (hw : w'.Sound h₀ (w.shared.captured + O) H S) :
      w'.Sound h₀ (([] : List RefId) + (w.shared.captured + O)) H (S ∩ {b | b ∈ live}) :=
    (hw.reshape (by simp) le_rfl).forget Set.inter_subset_left
  have hval {v : HostVal}
      (hv : ∀ r ∈ v.foreign?.toList, r ∈ (w.shared.captured : Multiset RefId) + O) :
      ∀ r ∈ foreigns [v], r ∈ (w.shared.captured : Multiset RefId) + O := fun r hr =>
    hv r (mem_refs hr)
  have hok {r : Except Error World}
      (hr : ∀ w', r = .ok w' → w'.Sound h₀ (w.shared.captured + O) H S) :
      (r.toOption.getD w).Sound h₀ (([] : List RefId) + (w.shared.captured + O)) H
        (S ∩ {b | b ∈ live}) :=
    hnone (Except.getD_of_ok (P := (World.Sound h₀ (w.shared.captured + O) H S ·)) h hr)
  have hmade {r : Except Error (Nat × World)}
      (hr : ∀ n w', r = .ok (n, w') → w'.Sound h₀ (w.shared.captured + O) H S) :
      ((r.map (·.2)).toOption.getD w).Sound h₀ (([] : List RefId) + (w.shared.captured + O)) H
        (S ∩ {b | b ∈ live}) :=
    hnone (Except.getD_map_of_ok (P := (World.Sound h₀ (w.shared.captured + O) H S ·)) h hr)
  -- a new host function is the only operation that gives a body clones of its own
  by_cases hnew : ∃ type ops, c = .newHostFunc type ops
  · obtain ⟨type, ops, rfl⟩ := hnew
    refine ((h.newHostFunc hrefs type).reshape ?_ le_rfl).forget Set.inter_subset_left
    rw [run, Multiset.coe_nil, zero_add]
  · refine hkept (bodies_run hnew live w) ?_
    cases c with
    | newHostFunc type ops => exact absurd ⟨type, ops, rfl⟩ hnew
    | newGlobal type init => exact hmade fun _ _ hr => h.newGlobal (hval hrefs) hr
    | getGlobal addr =>
        have hrevealed := h.reveal (v := w.globalValue addr) kept_of_global
        rw [foreigns_singleton] at hrevealed
        exact hrevealed.forget Set.inter_subset_left
    | setGlobal addr v => exact hok fun _ hr => h.setGlobal (hval hrefs) hr
    | newTable type init => exact hmade fun _ _ hr => h.newTable (hval hrefs) hr
    | getTable addr index =>
        have hrevealed := h.getTable addr index
        have hgained : foreigns (w.getTable addr index).1.toList =
            (((w.getTable addr index).1.bind Val.foreign?).toList : Multiset RefId) := by
          cases (w.getTable addr index).1 with
          | none => rfl
          | some v => exact foreigns_singleton v
        rw [hgained] at hrevealed
        exact hrevealed.forget Set.inter_subset_left
    | setTable addr index v => exact hok fun _ hr => h.setTable (hval hrefs) hr
    | growTable addr delta v => exact hnone (h.growTable addr delta (hval hrefs))
    | newMemory type =>
        simp only [run]
        cases hr : w.newMemory type with
        | none => exact hnone h
        | some p =>
            simp only [World.newMemory] at hr
            split at hr <;> cases hr
            exact hnone (h.of_le rfl rfl le_rfl)
    | growMemory addr delta => exact hmade fun _ _ hr => h.growMemory hr
    | writeMemory addr offset bytes =>
        simp only [run]
        cases hr : w.writeMemory addr offset bytes with
        | none => exact hnone h
        | some w' => exact hnone (h.writeMemory hr)
    | instantiate m imports => exact hnone (h.instantiate m imports)
    | idleFunc => exact hnone (h.of_le rfl rfl le_rfl)
    | collect => exact (h.collect live).reshape (by simp [run]) le_rfl
    | addFuel n => exact hok fun _ hr => h.addFuel hr
    | setWasi config =>
        refine hok fun _ hr => ?_
        unfold World.setWasi at hr
        cases hb : config.build w.shared.process w.shared.files with
        | error e => simp [hb, Except.map] at hr
        | ok context =>
            simp only [hb, Except.map, Except.ok.injEq] at hr
            exact hr ▸ h.of_le rfl rfl le_rfl

/-! ## What goes on in a store -/

theorem Machine.Sound.pass {base : Multiset RefId} {home : Multiset BoxId} {P P' : Set RefId}
    {m : Machine} (h : m.Sound h₀ base home P S) (hP : P ⊆ P') : m.Sound h₀ base home P' S := by
  refine ⟨⟨h.world, fun a ha => ?_⟩, h.running, h.back⟩
  have hsafe := h.stack a ha
  cases a with
  | host f => exact fun r hr => hP (hsafe r hr)
  | code | command => exact hsafe

theorem HostMove.sound_run {c : HostMove} {h : HostFrame} {rest : List Activation} {m : Machine}
    {base : Multiset RefId} {home : Multiset BoxId} {P : Set RefId}
    (hm : m.Sound h₀ base home P S) (hstack : m.stack = .host h :: rest)
    (hfuncs : m.world.store.Backed P)
    (hrefs : ∀ r ∈ c.refs, r ∈ foreigns (h.args ++ h.results) + (base + clonesOf rest)) :
    ∃ S', (c.run h rest m).Sound h₀ base home P S' := by
  have hs := hm.hostFrame hstack
  cases c with
  | call func args result catches => exact hs.call hstack hfuncs hrefs func result catches
  | start addr catches =>
      simp only [run]
      split
      · have hheld : foreigns h.held + (home + heldBy rest) ≤
            (Activation.host h).held + (home + heldBy rest) :=
          add_le_add_left (Multiset.le_add_right _ _) _
        have hsteady : Machine.Steady h₀ base home P S { m with
            stack := .host { h with pending := some ⟨[], none, catches⟩ } :: rest } := by
          refine ⟨(hs.world.weaken hheld).reshape (add_left_comm ..) (le_of_eq ?_), fun a ha => ?_⟩
          · simp only [heldBy_cons, Activation.held, Option.elim_some, foreigns_nil, add_zero]
            exact add_left_comm ..
          · rcases List.mem_cons.mp ha with rfl | ha
            · exact hs.todo
            · exact hs.rest a ha
        exact ⟨S, hsteady.enter hfuncs (by simp) _ _⟩
      · exact ⟨S, hm⟩
  | setResult i v => exact ⟨S, (hs.withResult fun r hr => hrefs r (mem_refs hr)).goOn m⟩
  | fail t => exact ⟨S, hs.fail hstack t⟩
  | finish => exact hs.finish hstack

/-- No call. -/
def Task.nothing : Task :=
  { stack := [], control := .run, used := 0, held := [], answers := false }

theorem Task.sound_nothing {base : Multiset RefId} {P : Set RefId} (h : w.Sound h₀ base 0 S) :
    (Task.nothing.machine w).Sound h₀ base (foreigns Task.nothing.held) P S := by
  refine ⟨⟨h.reshape (add_zero base) (by simp [nothing, machine]), by simp [nothing, machine]⟩,
    ?_, ?_⟩
  · rintro - f rest ⟨⟩
  · rintro vals ⟨⟩

theorem Task.sound_finish {t : Task} {r : Except Fault (List StoreVal)} {base : Multiset RefId}
    (h : w.Sound h₀ base (foreigns t.held) S)
    (hr : ∀ vals, r = .ok vals → ∀ b ∈ foreigns vals, b ∈ S) :
    (t.finish r w).2.Sound h₀ ((t.finish r w).1 + base) 0 S := by
  have hquiet : (w.unholdAll t.held).Sound h₀ (([] : List RefId) + base) 0 S := by
    have hzero : foreigns t.held = foreigns t.held + 0 := (add_zero _).symm
    rw [hzero] at h
    exact h.unholdAll.reshape (by simp) le_rfl
  unfold finish
  split
  · rename_i vals
    split
    · have hrevealed := h.revealAll fun b hb => .inr (hr vals rfl b hb)
      rw [← add_zero (foreigns t.held)] at hrevealed
      exact hrevealed.unholdAll
    · exact hquiet
  · exact hquiet

/-- The embedder uses a store from the body of a host function. -/
theorem Task.sound_hosting {t : Task} {c : StoreCall} {h : HostFrame} {rest : List Activation}
    {P : Set RefId} (hm : (t.machine w).Sound h₀ (w.shared.captured + O) (foreigns t.held) P S)
    (host : t.AtHost h rest)
    (hrefs : ∀ r ∈ c.refs, r ∈ (w.shared.captured : Multiset RefId) + O + clonesOf t.stack) :
    (t.machine (c.run (t.machine w).liveBoxes w).2).Sound h₀
      ((c.run (t.machine w).liveBoxes w).2.shared.captured +
        ((c.run (t.machine w).liveBoxes w).1 + O)) (foreigns t.held) P
      (S ∩ {b | b ∈ (t.machine w).liveBoxes}) := by
  obtain ⟨hstack, hcontrol⟩ := host
  have hworld : w.Sound h₀ (w.shared.captured + (O + clonesOf t.stack))
      (foreigns t.held + heldBy t.stack) S := hm.world.reshape (add_assoc _ _ _).symm le_rfl
  have hrun := StoreCall.sound_run hworld (fun r hr => add_assoc _ _ (clonesOf t.stack) ▸ hrefs r hr)
    (t.machine w).liveBoxes
  refine ⟨⟨hrun.reshape ?_ le_rfl, fun a ha => (hm.stack a ha).collect fun f hf b hb => ?_⟩,
    fun _ f rest' htop => ?_, fun vals hback => ?_⟩
  · simp only [Task.machine]
    ac_rfl
  · exact List.mem_flatMap.mpr ⟨a, ha, by rwa [hf]⟩
  · cases hstack.symm.trans htop
  · cases hcontrol.symm.trans hback

/-- A call is over, and the embedder has its answer. -/
theorem Task.sound_answer {t : Task} {r : Except Fault (List StoreVal)} {base : Multiset RefId}
    {P : Set RefId} (hm : (t.machine w).Sound h₀ base (foreigns t.held) P S)
    (ended : (t.machine w).step = .inr (r, w')) :
    (t.finish r w').2.Sound h₀ ((t.finish r w').1 + base) 0 S := by
  have hstack : t.stack = [] := Machine.stack_of_end ended
  have hworld := hm.world
  simp only [Task.machine, hstack, clonesOf_nil, heldBy_nil, add_zero] at hworld
  have hvals : ∀ vals, r = .ok vals → ∀ b ∈ foreigns vals, b ∈ S := by
    rintro vals rfl
    obtain ⟨stack, control, used, held, answers⟩ := t
    cases hstack
    cases control with
    | run => cases ended; simp
    | back vals => cases ended; exact hm.back vals rfl
    | fault e => cases ended
  rw [Machine.step_end ended]
  exact sound_finish hworld hvals

/-- A call from outside begins. -/
theorem Machine.sound_call {args : List HostVal} {P : Set RefId} (h : w.Sound h₀ O 0 S)
    (hfuncs : w.store.Backed P) (func : FuncAddr) (hargs : ∀ r ∈ foreigns args, r ∈ O) :
    ∃ S', ((Machine.idle ((w.acceptAll args).2.exposeAll (w.acceptAll args).1)).enter func
      (w.acceptAll args).1 none).Sound h₀ O (foreigns (w.acceptAll args).1) P S' := by
  have hexposed := (h.acceptAll hargs).exposeAll kept_of_held
  refine ⟨_, Steady.enter ⟨hexposed.reshape (add_zero _) le_rfl, by simp [idle]⟩ (hfuncs.congr ?_)
    (fun b hb => .inr hb) func none⟩
  exact congrArg (·.funcs) ((accounts_exposeAll _ _).trans (accounts_acceptAll args w))

/-- The start function of an instance begins. -/
theorem Machine.sound_start {P : Set RefId} (h : w.Sound h₀ O 0 S) (hfuncs : w.store.Backed P)
    (func : FuncAddr) (addr : InstanceAddr) :
    ((Machine.idle w).enter func [] (some addr)).Sound h₀ O 0 P S := by
  have hsteady : (Machine.idle w).Steady h₀ O 0 P S :=
    ⟨h.reshape (add_zero O) (by simp [idle]), by simp [idle]⟩
  exact hsteady.enter hfuncs (by simp) func (some addr)

/-- One step of an embedder, or of the code that runs, keeps everything counted in its store. -/
theorem World.Act.sound {owned : RefId → Prop} {t t' : Option Task} {events : List Event}
    {gained : List RefId} (h : Act owned w t events gained w' t')
    (hm : ((t.getD .nothing).machine w).Sound h₀ (w.shared.captured + O)
      (foreigns (t.getD .nothing).held) w.store.passes S)
    (howned : ∀ r, owned r →
      r ∈ (w.shared.captured : Multiset RefId) + O + clonesOf (t.getD .nothing).stack)
    (hfounded : w.store.Founded w.shared) (hpasses : ∀ r ∈ w.store.passes, r ∈ w.shared.captured) :
    ∃ S', ((t'.getD .nothing).machine w').Sound h₀ (w'.shared.captured + (gained + O))
      (foreigns (t'.getD .nothing).held) w'.store.passes S' := by
  have hbacked := hfounded.backed
  have hP : ∀ r ∈ w.store.passes, r ∈ (w.shared.captured : Multiset RefId) + O := fun r hr =>
    Multiset.mem_add.mpr (.inl (hpasses r hr))
  -- the invariant is kept with what the old functions pass; new functions can only pass more
  suffices hkeeps : ∃ S', ((t'.getD .nothing).machine w').Sound h₀
      (w'.shared.captured + (gained + O)) (foreigns (t'.getD .nothing).held) w.store.passes S' by
    obtain ⟨S', hS'⟩ := hkeeps
    exact ⟨S', hS'.pass h.staffs.passes⟩
  have hsame {m : Machine} {gained : List RefId} {home : Multiset BoxId} {S' : Set BoxId}
      (hb : m.world.shared.closures = w.shared.closures)
      (hs : m.Sound h₀ (gained + (w.shared.captured + O)) home w.store.passes S') :
      m.Sound h₀ (m.world.shared.captured + (gained + O)) home w.store.passes S' := by
    rw [Shared.captured, hb, ← Shared.captured, add_left_comm]
    exact hs
  have hnone {m : Machine} {home : Multiset BoxId} {S' : Set BoxId}
      (hb : m.world.shared.closures = w.shared.closures)
      (hs : m.Sound h₀ (w.shared.captured + O) home w.store.passes S') :
      ∃ S', m.Sound h₀ (m.world.shared.captured + (([] : List RefId) + O)) home w.store.passes S' :=
    ⟨S', hsame hb (by rwa [Multiset.coe_nil, zero_add])⟩
  have hidle (ht : t = none) : w.Sound h₀ (w.shared.captured + O) 0 S := by
    subst ht
    simpa [Task.nothing, Task.machine] using hm.world
  have hfree (ht : t = none) (r : RefId) (hr : owned r) :
      r ∈ (w.shared.captured : Multiset RefId) + O := by
    subst ht
    exact add_zero ((w.shared.captured : Multiset RefId) + O) ▸ howned r hr
  cases h with
  | idle c refs =>
      have hrun := StoreCall.sound_run (hidle rfl) (fun r hr => hfree rfl r (refs r hr)) []
      exact ⟨_, Task.sound_nothing hrun⟩
  | @host t h rest at_host c refs =>
      exact ⟨_, Task.sound_hosting hm at_host fun r hr => howned r (refs r hr)⟩
  | @call func args m fits refs begun =>
      have hgrown := grows_call w func args
      obtain ⟨S', hentered⟩ := Machine.sound_call (hidle rfl) hbacked func fun r hr =>
        hfree rfl r (refs r hr)
      rw [begun] at hgrown hentered
      exact hnone (Settles.of_grows hgrown).bodies hentered
  | @start addr func m start begun =>
      have hgrown := Machine.grows_enter (.idle w) rfl func [] (some addr)
      have hentered := Machine.sound_start (hidle rfl) hbacked func addr
      rw [begun] at hgrown hentered
      exact hnone (Settles.of_grows hgrown).bodies hentered
  | @work t m step =>
      obtain ⟨S', hS'⟩ := hm.step hbacked hP step
      exact hnone (Machine.settles_step step).bodies hS'
  | @move t h rest at_host c refs =>
      obtain ⟨S', hS'⟩ := HostMove.sound_run (c := c) hm at_host.1 hbacked fun r hr => by
        have hr := howned r (refs r hr)
        rwa [Option.getD_some, at_host.1, clonesOf_cons, add_left_comm] at hr
      exact hnone (Settles.of_grows (c.grows_run h rest (t.machine w))).bodies hS'
  | @keep t h rest vals calling back =>
      have hrevealed := hm.world.revealAll fun b hb => .inr (hm.back vals back b hb)
      have hgained : (t.machine (w.revealAll vals).2).Sound h₀
          ((w.revealAll vals).1.filterMap Val.foreign? + (w.shared.captured + O)) (foreigns t.held)
          w.store.passes S :=
        ⟨⟨hrevealed.reshape (add_assoc _ _ _) le_rfl, hm.stack⟩, hm.running, hm.back⟩
      exact ⟨S, hsame (congrArg (·.bodies) (accounts_revealAll vals w)) hgained⟩
  | @answer w' t r ended =>
      have hfinished := Task.sound_answer hm ended
      rw [Machine.step_end ended] at hfinished ⊢
      exact ⟨S, hsame (congrArg (·.bodies) (t.accounts_finish r w)) (Task.sound_nothing hfinished)⟩

end WasmHost

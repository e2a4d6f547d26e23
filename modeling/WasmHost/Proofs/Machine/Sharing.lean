import WasmHost.Proofs.Machine.Routes

/-!
# Running code changes only what its routes lead to

An instruction writes to the object that its index stands for, a host function to what its caller
exports, and the beginning of a call to what the segments of a new instance go into. So a step of a
well typed machine leaves all other objects as they are.
-/

namespace WasmHost

open World

/-! ## Instructions -/

namespace CodeFrame

variable {T : Object → Prop} {f : CodeFrame} {w : World}

/-- A step of a well typed frame changes only what its route leads to. -/
theorem Typed.changes_step (h : f.Typed w) (hT : (f.step w).world.Covers (f.routes w) T) :
    w.Changes T (f.step w).world := by
  by_cases hentered : f.entered
  · obtain ⟨i, c, o, os, b, bs, belongs, hat, -⟩ := id h
    obtain ⟨op, _, hop, -⟩ := belongs.code.instruction hat
    obtain ⟨owed, burned, w', hstep, hobjects, hboxes, hwasi⟩ := step_exec hentered hop w
    have later : w'.Alters (exec op { f with owed, burned } w').world :=
      changes_exec _ w' fun _ _ _ _ => trivial
    rw [hstep] at hT ⊢
    refine (changes_aside hobjects hboxes hwasi).trans (changes_exec _ w' fun x hx o ho => ?_)
    -- the frame at its instruction has an object for the index
    obtain ⟨i, a, hi, ha, haddress⟩ :=
      ((h.spends f.entered owed burned).extends (.of_objects hobjects)).written hop hx
    rw [haddress] at ho
    refine hT (.index f.owner x.1 x.2) (List.mem_append_left _ (List.mem_map.mpr ⟨x, ?_, rfl⟩)) o ?_
    · simp only [hentered, if_true, Array.getD_eq_getD_getElem?, hop, Option.getD_some]
      exact Option.mem_toList.mpr hx
    · refine Route.object?_extends later.extends_ ?_
      rw [Route.object?_index hi ha]
      exact ho
  · have hchecked := changes_check (T := T) f.reckon w
    unfold CodeFrame.step
    simp only [hentered, Bool.not_false, if_true]
    split
    · rename_i hc
      rw [hc] at hchecked
      exact hchecked
    · exact hchecked

end CodeFrame

/-! ## Calls -/

namespace Machine

variable {T : Object → Prop} {m m' : Machine}

theorem changes_enterWasi_of_covers (func : Wasi.Func) (args : List StoreVal)
    (caller : Option InstanceAddr)
    (hT : (m.enterWasi func args caller).world.Covers (caller.toList.map (.named · "memory")) T) :
    m.world.Changes T (m.enterWasi func args caller).world := by
  have later : m.world.Alters (m.enterWasi func args caller).world :=
    changes_enterWasi m func args caller fun _ _ => trivial
  refine changes_enterWasi m func args caller fun addr known => ?_
  obtain ⟨item, hitem, haddr⟩ := Option.bind_eq_some_iff.mp known
  obtain ⟨c, rfl, hitem⟩ := Option.bind_eq_some_iff.mp hitem
  refine hT (.named c "memory") (List.mem_singleton_self _) _ ?_
  simp only [Route.object?, later.extends_.getExport hitem, Option.bind_some]
  cases item <;> cases haddr
  rfl

/-- The beginning of a call changes only what its routes lead to. -/
theorem changes_enter (hw : m.world.Typed) (func : FuncAddr) (args : List StoreVal)
    (caller : Option InstanceAddr)
    (hT : (m.enter func args caller).world.Covers (m.world.entryRoutes func caller) T) :
    m.world.Changes T (m.enter func args caller).world := by
  cases known : m.world.store.funcs[func]? with
  | none =>
      simp only [enter, known]
      exact .refl
  | some f =>
      have hsound := hw.funcs f (Array.mem_of_getElem? known)
      obtain ⟨type, body⟩ := f
      simp only [entryRoutes, known, Option.map_some] at hT
      simp only [enter, known] at hT ⊢
      cases body with
      | code owner code =>
          dsimp only
          split <;> exact .refl
      | host ops => exact (changes_holdAll args _).trans (changes_revealAll args _)
      | command module imports entry =>
          obtain ⟨compiled, provided, -⟩ := hsound
          have hobjects := objects_holdAll args m.world
          have hmade := (hw.of_objects hobjects).instantiate compiled
            (provided.extends (.of_objects hobjects))
          have hchanged : ((m.world.holdAll args).instantiate module imports).2.Covers
                ((m.world.holdAll args).segmentRoutes module) T →
              m.world.Changes T ((m.world.holdAll args).instantiate module imports).2 :=
            fun hcovers => (changes_holdAll args _).trans (changes_segments hmade compiled hcovers)
          rw [segmentRoutes_of_objects hobjects] at hchanged
          dsimp only at hT ⊢
          split at hT <;> rename_i h <;> rw [h] at hchanged
          · exact hchanged hT
          · exact (hchanged (hT.of_extends (.of_objects (objects_unholdAll args _)))).trans
              (changes_unholdAll args _)
      | wasi g => exact changes_enterWasi_of_covers g args caller hT
      | idle => exact .refl

/-! ## Host functions and commands -/

variable {h : HostFrame} {rest : List Activation}

theorem changes_hostCall (hw : m.world.Typed) (func : FuncAddr) (args : List HostVal)
    (result : Option Nat) (catches : Bool)
    (hT : (m.hostCall func args result catches h rest).world.Covers
      (m.world.entryRoutes func none) T) :
    m.world.Changes T (m.hostCall func args result catches h rest).world := by
  unfold hostCall at hT ⊢
  split
  · exact changes_afterFailure m h rest _ catches
  · rename_i hargs
    have hobjects := objects_taken args m.world
    simp only [hargs] at hT
    rw [← entryRoutes_of_objects hobjects] at hT
    exact (changes_taken args m.world).trans (changes_enter (hw.of_objects hobjects) _ _ _ hT)

/-- An operation of a host function changes only what its caller exports under the name at hand. -/
theorem changes_hostOp (hw : m.world.Typed) (op : HostOp)
    (hT : (m.hostOp op h rest).world.Covers (op.routes m.world h) T) :
    m.world.Changes T (m.hostOp op h rest).world := by
  have later := (alters_hostOp m h rest op).extends_
  have houtcome := hostOp_outcome m h rest op
  generalize m.hostOp op h rest = m' at houtcome hT later ⊢
  -- what the caller exports is what the route of the operation leads to
  have hcaller {name : String} {item : Item} {o : Object} (hroute : .caller h name ∈
      op.routes m.world h) (hitem : h.export? m.world name = some item)
      (ho : item.object? = some o) : T o := by
    refine hT _ hroute o (Route.object?_extends later ?_)
    rw [Route.object?, hitem, Option.bind_some, ho]
  have hmemory {name : String} {a : Nat} (hroute : .caller h name ∈ op.routes m.world h)
      (ha : (h.export? m.world name).bind Item.memory? = some a) : T (.memory a) := by
    obtain ⟨item, hitem, ha⟩ := Option.bind_eq_some_iff.mp ha
    exact hcaller hroute hitem (by cases item <;> cases ha; rfl)
  cases houtcome with
  | set i v => exact h.changes_setResult i v _
  | copy i k => exact h.changes_setResult i _ _
  | added i | peeked => exact h.changes_putResult _ _ _
  | trapped | refused | unfueled => exact changes_failHost m h _
  | logged | interrupted => exact changes_aside rfl rfl rfl
  | poked memory _ written =>
      exact changes_writeMemory (hmemory (List.mem_singleton_self _) memory) written
  | grown memory grown =>
      exact (changes_growMemory (hmemory (List.mem_singleton_self _) memory) grown).trans
        (changes_aside rfl rfl rfl)
  | globalSet known set =>
      obtain ⟨item, hitem, ha⟩ := Option.bind_eq_some_iff.mp known
      exact changes_setGlobal (hcaller (List.mem_singleton_self _) hitem
        (by cases item <;> cases ha; rfl)) set
  | called known =>
      simp only [HostOp.routes, known, Option.elim_some] at hT
      exact changes_hostCall hw _ _ _ _ hT
  | fueled added => exact changes_addFuel added
  | collected => exact changes_collect _ _
  | branched => exact .refl

theorem changes_commandStep (hw : m.world.Typed) (c : CommandFrame)
    (hT : (m.commandStep c rest).world.Covers ((m.world.startFunc? c.owner).elim []
      (m.world.entryRoutes · (some c.owner))) T) :
    m.world.Changes T (m.commandStep c rest).world := by
  unfold commandStep at hT ⊢
  dsimp only at hT ⊢
  split
  · rename_i func hs
    simp only [hs, Option.elim_some] at hT
    refine changes_enter (m := { m with stack := _ }) ?_ func [] (some c.owner) hT
    exact hw
  · exact .refl

theorem changes_commandResume (hw : m.world.Typed) (vals : List StoreVal) (c : CommandFrame)
    (hT : (m.commandResume vals c rest).world.Covers (if c.stage = .calling then [] else
      ((m.world.getExport c.owner c.entry).bind Item.func?).elim []
        (m.world.entryRoutes · none)) T) :
    m.world.Changes T (m.commandResume vals c rest).world := by
  unfold commandResume at hT ⊢
  split
  · rw [giveBack_world, popActivation_world]
    exact (changes_exposeAll vals _).trans (changes_unholdAll c.held _)
  · rename_i hstage
    simp only [if_neg hstage] at hT ⊢
    split
    · rename_i func hs
      have hobjects := objects_exposeAll c.held m.world
      simp only [hs, Option.elim_some] at hT
      rw [← entryRoutes_of_objects hobjects] at hT
      exact (changes_exposeAll c.held _).trans (changes_enter (hw.of_objects hobjects) _ _ _ hT)
    · exact .refl

/-! ## Steps -/

/-- A step of a well typed machine changes only what its routes lead to. -/
theorem changes_step {final : List ValType} (hm : m.Typed final) (hs : m.step = .inl m')
    (hT : m'.world.Covers m.routes T) : m.world.Changes T m'.world := by
  have hw := hm.world
  cases step_sound hs with
  | next out | trap out | exit out =>
      have hchanges := (hm.frame rfl rfl).changes_step (T := T)
      rw [out] at hchanges
      exact hchanges hT
  | @call w w' f g rest used func args out =>
      have htyped := hm.frame rfl rfl
      have hchanges := htyped.changes_step (T := T)
      have hrespects := (htyped.step hw.toValued).1
      rw [out] at hchanges hrespects
      -- the frame writes first, then the callee begins; a step has the routes of both
      have later := alters_enter ⟨w', .code g :: rest, .run, used⟩ .refl func args (some g.owner)
      refine (hchanges (hT.of_extends later.extends_)).trans
        (changes_enter (hrespects.typed hw) func args _ fun r hr => hT r ?_)
      exact List.mem_append_right _ (by rw [out]; exact hr)
  | resume | unwind | hostLeft => exact .refl
  | @hostRun w h =>
      obtain ⟨type, caller, held, args, results, todo, pending⟩ := h
      cases todo with
      | nil => exact changes_finishHost _ _
      | cons op todo => exact changes_hostOp hw op hT
  | hostBack => exact changes_hostResume _ _ _ _ _
  | hostFault => exact changes_hostFault _ _ _ _
  | commandRun => exact changes_commandStep hw _ hT
  | commandBack => exact changes_commandResume hw _ _ hT
  | @commandFault w c => exact changes_unholdAll c.held w

end Machine

end WasmHost

import WasmHost.Proofs.Linker.Signatures

/-!
# Functions of commands that take and give nothing

A function of a command makes an instance, runs its start function and then an export. Where the
engine has no pool and applies segments as it goes, an instance is only refused with a trap. If the
function takes and gives nothing, so does what runs in the instance, and then a call of it can fail
with nothing but traps. `CommandFrame.Plain` is what holds of a command with nothing but commands
under it.
-/

namespace WasmHost

open World

/-- Instances are refused with traps only, and all functions are in order. -/
structure World.Orderly (w : World) : Prop where
  signed : w.Signed
  compiled : ∀ f ∈ w.store.funcs, ∀ m items entry, f.body = .command m items entry → m.WellMade
  unpooled : w.store.engine.options.pooling = none
  bulk : w.store.engine.options.bulkMemory = true

/-- The export that a command is to call takes and gives nothing. -/
def CommandFrame.Plain (w : World) (c : CommandFrame) : Prop :=
  ∃ i, w.store.instances[c.owner]? = some i ∧ i.WellTyped w ∧
    ∃ e ∈ i.module.signature.exports, e.name = c.entry ∧ e.type = .func ⟨[], []⟩

/-- A command is plain. -/
def Activation.Plain (w : World) : Activation → Prop
  | .command c => c.Plain w
  | .code _ | .host _ => True

/-- What is on top of nothing but commands is plain. -/
def World.Grounded (w : World) : List Activation → Prop
  | [] => True
  | a :: rest => ((∀ b ∈ rest, b.kind = .command) → a.Plain w) ∧ w.Grounded rest

variable {w w' : World} {m m' : Machine}

theorem CompiledModule.body_newFuncs {module : CompiledModule} {owner : InstanceAddr} {f : Func}
    (h : f ∈ module.newFuncs owner) : ∃ owner code, f.body = .code owner code := by
  obtain ⟨c, -, rfl⟩ := Array.mem_map.mp h
  exact ⟨owner, c, rfl⟩

theorem World.Brings.body {fs : Array Func} {f : Func} (h : w.Brings fs) (hf : f ∈ fs) :
    ∃ owner code, f.body = .code owner code := by
  cases h with
  | nothing => cases Array.not_mem_empty f hf
  | command known owner => exact CompiledModule.body_newFuncs hf

namespace World.Orderly

theorem of_append {fs : Array Func} (h : w.Orderly) (hw : w.Extends w')
    (hf : w'.store.funcs = w.store.funcs ++ fs)
    (hfs : ∀ f ∈ fs, ∃ owner code, f.body = .code owner code) : w'.Orderly where
  signed := by
    refine (Signs.of_append hw hf fun f hmem => ?_).signed h.signed
    obtain ⟨owner, code, hbody⟩ := hfs f hmem
    simp [Func.Signed, hbody]
  compiled := by
    intro f hmem m items entry hbody
    rw [hf, Array.mem_append] at hmem
    rcases hmem with hold | hnew
    · exact h.compiled f hold m items entry hbody
    · obtain ⟨owner, code, hcode⟩ := hfs f hnew
      rw [hbody] at hcode
      cases hcode
  unpooled := hw.engine ▸ h.unpooled
  bulk := hw.engine ▸ h.bulk

theorem of_funcs (h : w.Orderly) (hw : w.Extends w') (hf : w'.store.funcs = w.store.funcs) :
    w'.Orderly :=
  h.of_append hw (hf.trans (Array.append_empty ..).symm) fun f hmem => by
    cases Array.not_mem_empty f hmem

theorem step (h : m.world.Orderly) (hs : m.Steps m') : m'.world.Orderly := by
  obtain ⟨fs, hfs, hf⟩ := (Machine.settles_step hs).funcs
  exact h.of_append (Machine.alters_step hs).extends_ hf fun _ => hfs.body

/-- An instance is only refused with a trap. -/
theorem instantiate_trap (h : w.Orderly) {module : CompiledModule} {items : List Item} {c : Cause}
    (hm : w.instantiate module items = (.error c, w')) (trace : List FrameInfo) :
    ({ cause := c, trace } : Fault).trap? ≠ none := by
  cases c with
  | exit | code | host => simp [Fault.trap?]
  | other text =>
      exfalso
      unfold instantiate at hm
      split at hm
      · rename_i c hc
        obtain ⟨p, -, hp, -⟩ := poolFault?_other hc
        rw [h.unpooled] at hp
        cases hp
      · dsimp only at hm
        split at hm <;> rename_i hfill <;> cases hm
        have hbulk := (fill_other hfill).2.1
        have hengine := (w.extends_allocate module items).engine
        rw [hengine, h.bulk] at hbulk
        cases hbulk

end World.Orderly

theorem Activation.Plain.extends {a : Activation} (h : a.Plain w) (hw : w.Extends w') :
    a.Plain w' := by
  cases a with
  | code | host => trivial
  | command c =>
      obtain ⟨i, hi, htyped, e, he, hentry⟩ := h
      obtain ⟨i', hi', hbecomes⟩ := hw.instances _ i hi
      refine ⟨i', hi', htyped.extends hw hbecomes, e, ?_, hentry⟩
      rw [hbecomes]
      exact he

theorem Activation.plain_of_kind {a : Activation} (h : a.kind ≠ .command) : a.Plain w := by
  cases a with
  | code | host => trivial
  | command => exact absurd rfl h

theorem World.Grounded.extends {stack : List Activation} (h : w.Grounded stack)
    (hw : w.Extends w') : w'.Grounded stack := by
  induction stack with
  | nil => trivial
  | cons a rest ih => exact ⟨fun hrest => (h.1 hrest).extends hw, ih h.2⟩

namespace Machine

/-! ## Calls under nothing but commands -/

/-- Some activation is code or a host function. -/
def Guarded (stack : List Activation) : Prop := ∃ a ∈ stack, a.kind ≠ .command

/-- A machine whose stack is grounded, and which has no fault but traps unless code or a host
function is at work. -/
structure Quiet (m : Machine) : Prop where
  grounded : m.world.Grounded m.stack
  calm : ∀ f, m.control = .fault f → f.trap? = none → Guarded m.stack

theorem not_guarded {stack : List Activation} :
    ¬Guarded stack ↔ ∀ a ∈ stack, a.kind = .command := by
  simp [Guarded]

/-- Above code or a host function a call can do what it likes. -/
theorem Quiet.of_guarded {stack : List Activation} (grounded : m.world.Grounded stack)
    (guarded : Guarded stack) (h : Entered stack m) : m.Quiet := by
  cases h with
  | pushed a hpushed control =>
      refine ⟨?_, fun f hf => by simp [control] at hf⟩
      rw [hpushed]
      exact ⟨fun hall => absurd guarded (not_guarded.mpr hall), grounded⟩
  | gave vals same control => exact ⟨same ▸ grounded, fun f hf => by simp [control] at hf⟩
  | raised w c same control => exact ⟨same ▸ grounded, fun _ _ _ => same ▸ guarded⟩

/-- What is pushed or raised on top of a stack that is grounded. -/
theorem Quiet.pushed {w : World} {a : Activation} (grounded : w.Grounded m.stack)
    (ha : a.Plain w) : (pushActivation a { m with world := w }).Quiet :=
  ⟨⟨fun _ => ha, grounded⟩, fun f hf => by simp [pushActivation] at hf⟩

theorem Quiet.raised {w : World} {c : Cause} (grounded : w.Grounded m.stack)
    (trap : ∀ trace, ({ cause := c, trace } : Fault).trap? ≠ none) :
    (raise c { m with world := w }).Quiet := by
  refine ⟨grounded, fun f hf bare => ?_⟩
  obtain rfl : Fault.mk c (w.trace m.stack) = f := by simpa [raise] using hf
  exact absurd bare (trap _)

theorem Quiet.gave {vals : List StoreVal} (grounded : m.world.Grounded m.stack) :
    (m.giveBack vals).Quiet := ⟨grounded, fun f hf => by simp [giveBack] at hf⟩

/-- A function that takes and gives nothing is entered without a fault that is no trap. -/
theorem Quiet.enter (orderly : m.world.Orderly) (grounded : m.world.Grounded m.stack)
    {func : FuncAddr} {f : Func} (hf : m.world.store.funcs[func]? = some f)
    (htype : f.type = ⟨[], []⟩) (args : List StoreVal) (caller : Option InstanceAddr) :
    (m.enter func args caller).Quiet := by
  have hsigned := orderly.signed f (Array.mem_of_getElem? hf)
  have hcompiled := orderly.compiled f (Array.mem_of_getElem? hf)
  obtain ⟨type, body⟩ := f
  obtain rfl : type = ⟨[], []⟩ := htype
  unfold Machine.enter
  rw [hf]
  cases body with
  | idle => exact .gave grounded
  | wasi g => exact absurd hsigned.1.symm (Wasi.type_ne_empty hsigned.2)
  | code owner code =>
      dsimp only
      split
      · exact .raised grounded (by simp [Fault.trap?])
      · exact .pushed grounded trivial
  | host ops =>
      refine .pushed (grounded.extends ?_) trivial
      exact (Extends.of_objects (objects_holdAll args _)).then_objects (objects_revealAll args _)
  | command module items entry =>
      have hheld : m.world.Extends (m.world.holdAll args) := .of_objects (objects_holdAll args _)
      have hmade := (alters_instantiate module items (m.world.holdAll args)).extends_
      have horderly : (m.world.holdAll args).Orderly :=
        orderly.of_funcs hheld (congrArg (·.funcs) (accounts_holdAll args m.world))
      obtain ⟨supplies, e, he, hname, hentry⟩ := hsigned
      dsimp only
      split <;> rename_i hm
      · rw [hm] at hmade
        obtain ⟨i, hi, rfl, -, htyped⟩ := wellTyped_instantiate (supplies.extends hheld)
          (hcompiled _ _ _ rfl) hm
        exact .pushed (grounded.extends (hheld.trans hmade)) ⟨i, hi, htyped, e, he, hname, hentry⟩
      · rw [hm] at hmade
        refine .raised ?_ (horderly.instantiate_trap hm)
        have hfreed := hmade.then_objects (objects_unholdAll args _)
        exact grounded.extends (hheld.trans hfreed)

/-! ## Steps and runs -/

/-- What an activation other than a command does leaves the machine quiet. -/
theorem Quiet.turn (h : m.Quiet) (framed : m.Framed) (hw : m.world.Extends m'.world)
    (ht : Turn m m') (hk : ∀ a, m.stack.head? = some a → a.kind ≠ .command) : m'.Quiet := by
  have grounded := h.grounded.extends hw
  cases ht with
  | @onward a a' rest stack stack' kind control =>
      rw [stack] at grounded hk
      refine ⟨?_, fun f hf => by simp [control] at hf⟩
      rw [stack']
      exact ⟨fun _ => Activation.plain_of_kind (kind.trans_ne (hk a rfl)), grounded.2⟩
  | @called a a' rest stack entered kind awaits calm =>
      rw [stack] at grounded hk
      have ha := kind.trans_ne (hk a rfl)
      have hplain : m'.world.Grounded (a' :: rest) :=
        ⟨fun _ => Activation.plain_of_kind ha, grounded.2⟩
      exact .of_guarded hplain ⟨a', List.mem_cons_self, ha⟩ entered
  | returned stack vals control =>
      rw [stack] at grounded
      exact ⟨grounded.2, fun f hf => by simp [control] at hf⟩
  | @failed a f t stack control trap =>
      rw [stack] at grounded
      refine ⟨grounded.2, fun g hg bare => ?_⟩
      obtain rfl : f = g := by simpa [control] using hg
      rw [trap] at bare
      cases bare
  | @unwound a f stack control control' passes =>
      refine ⟨?_, fun g hg bare => ?_⟩
      · rw [stack] at grounded
        exact grounded.2
      · obtain rfl : f = g := by simpa [control'] using hg
        -- only a command lets a fault through that is no trap
        have hcommand := framed.command_of_unwound stack control bare passes
        exact absurd hcommand (hk a (by rw [stack]; rfl))

/-- A command calls something that takes and gives nothing, or something is at work below. -/
theorem Quiet.command {c : CommandFrame} {rest : List Activation} {used : Nat} {func : FuncAddr}
    (orderly : w.Orderly) (grounded : w.Grounded (.command c :: rest))
    (typed : (∀ b ∈ rest, b.kind = .command) →
      ∃ f, w.store.funcs[func]? = some f ∧ f.type = ⟨[], []⟩) (stage : CommandStage)
    (control : Control) (args : List StoreVal) (caller : Option InstanceAddr) :
    (Machine.enter func args caller
      ⟨w, .command { c with stage } :: rest, control, used⟩).Quiet := by
  -- with code or a host function below, any fault is taken for a trap and nothing need be known
  by_cases hrest : ∀ b ∈ rest, b.kind = .command
  · obtain ⟨f, hf, htype⟩ := typed hrest
    exact .enter orderly grounded hf htype args caller
  · have hentered := entered_enter (m := ⟨w, .command { c with stage } :: rest, control, used⟩) rfl
      func args caller
    have hext := (alters_enter ⟨w, .command { c with stage } :: rest, control, used⟩ .refl func args
      caller).extends_
    obtain ⟨b, hb, hkind⟩ : Guarded rest := by rwa [← not_guarded, not_not] at hrest
    have hkept : w.Grounded (.command { c with stage } :: rest) := grounded
    exact .of_guarded (hkept.extends hext) ⟨b, List.mem_cons_of_mem _ hb, hkind⟩ hentered

theorem Quiet.commandStep {c : CommandFrame} {rest : List Activation} (orderly : m.world.Orderly)
    (grounded : m.world.Grounded (.command c :: rest)) : (m.commandStep c rest).Quiet := by
  unfold Machine.commandStep
  dsimp only
  split
  · rename_i func hfunc
    refine .command orderly grounded (fun hrest => ?_) _ _ _ _
    obtain ⟨i, hi, htyped, -⟩ := grounded.1 hrest
    exact htyped.start hi hfunc
  · exact .gave grounded

theorem Quiet.commandResume {c : CommandFrame} {rest : List Activation} (vals : List StoreVal)
    (orderly : m.world.Orderly) (stack : m.stack = .command c :: rest)
    (grounded : m.world.Grounded (.command c :: rest)) : (m.commandResume vals c rest).Quiet := by
  unfold Machine.commandResume
  split
  · have hended : m.world.Extends ((m.world.exposeAll vals).unholdAll c.held) :=
      (Extends.of_objects (objects_exposeAll vals m.world)).then_objects
        (objects_unholdAll c.held _)
    refine .gave ?_
    simp only [popActivation, stack]
    exact grounded.2.extends hended
  · have hexposed : m.world.Extends (m.world.exposeAll c.held) :=
      .of_objects (objects_exposeAll c.held m.world)
    have hfuncs : (m.world.exposeAll c.held).store.funcs = m.world.store.funcs :=
      congrArg (·.funcs) (accounts_exposeAll c.held m.world)
    dsimp only
    split
    · rename_i func hfunc
      refine .command (orderly.of_funcs hexposed hfuncs) (grounded.extends hexposed)
        (fun hrest => ?_) _ _ _ _
      obtain ⟨i, hi, htyped, e, he, hname, hentry⟩ := grounded.1 hrest
      rw [hfuncs]
      exact htyped.exported hi he hentry (hname ▸ hfunc)
    · exact .gave grounded

theorem Quiet.step (h : m.Quiet) (framed : m.Framed) (orderly : m.world.Orderly)
    (hs : m.Steps m') : m'.Quiet := by
  have hturn (hk : ∀ a, m.stack.head? = some a → a.kind ≠ .command) : m'.Quiet :=
    h.turn framed (alters_step hs).extends_ (turn_of_steps hs) hk
  obtain ⟨w, stack, control, used⟩ := m
  cases stack with
  | nil => cases control <;> cases hs
  | cons a rest =>
      cases a with
      | code | host => exact hturn (by simp [Activation.kind])
      | command c =>
          have grounded : w.Grounded (.command c :: rest) := h.grounded
          cases control with
          | run =>
              cases hs
              exact .commandStep orderly grounded
          | back vals =>
              cases hs
              exact .commandResume vals orderly rfl grounded
          | fault f =>
              cases hs
              refine ⟨grounded.2.extends (.of_objects (objects_unholdAll c.held w)), ?_⟩
              intro g hg bare
              -- what guards the stack is below the command that is popped
              obtain ⟨b, hb, hkind⟩ := h.calm g hg bare
              rcases List.mem_cons.mp hb with rfl | hb
              · exact absurd rfl hkind
              · exact ⟨b, hb, hkind⟩

theorem Quiet.reaches (h : m.Quiet) (framed : m.Framed) (orderly : m.world.Orderly)
    (hr : m.Reaches m') : m'.Quiet ∧ m'.world.Orderly := by
  induction hr with
  | refl => exact ⟨h, orderly⟩
  | tail hr hs ih => exact ⟨ih.1.step (framed.reaches hr) ih.2 hs, ih.2.step hs⟩

/-- The call of a function that takes and gives nothing fails with nothing but traps. -/
theorem not_escapes_of_orderly {func : FuncAddr} {f : Func} {fault : Fault} (orderly : w.Orderly)
    (hf : w.store.funcs[func]? = some f) (htype : f.type = ⟨[], []⟩) (args : List StoreVal)
    (caller : Option InstanceAddr) : ¬((idle w).enter func args caller).Escapes fault := by
  rintro ⟨bare, m, raised, hcommands⟩
  have quiet : ((idle w).enter func args caller).Quiet :=
    .enter (m := idle w) orderly trivial hf htype args caller
  obtain ⟨fs, hfs, hgrown⟩ := grows_enter (idle w) rfl func args caller
  have hentered : ((idle w).enter func args caller).world.Orderly :=
    orderly.of_append (alters_enter (idle w) .refl _ _ _).extends_ (congrArg (·.funcs) hgrown)
      fun _ => hfs.body
  have hreached := quiet.reaches (framed_enter w func args caller) hentered raised.reached
  exact not_guarded.mpr hcommands (hreached.1.calm fault raised.control bare)

end Machine

end WasmHost

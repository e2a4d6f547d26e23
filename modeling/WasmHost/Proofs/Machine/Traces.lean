import WasmHost.Proofs.Machine.Runs
import WasmHost.Proofs.Machine.Suspension

/-!
# What traces show

A fault is raised with the frames of code that are at work, and goes on with them as long as no host
function has a call under way. The frames that do not raise the fault themselves are at the calls
that they made.
-/

namespace WasmHost

open World

/-- The frame of an activation of code. -/
def Activation.frame? : Activation → Option CodeFrame
  | .code f => some f
  | .host _ | .command _ => none

theorem Activation.frame?_eq_some {a : Activation} {f : CodeFrame} :
    a.frame? = some f ↔ a = .code f := by
  cases a <;> simp [frame?]

theorem World.trace_eq (w : World) (stack : List Activation) :
    w.trace stack = (stack.filterMap Activation.frame?).map w.frameInfo := by
  rw [trace, List.map_filterMap]
  congr 1
  funext a
  cases a <;> rfl

namespace Machine

variable {m m' : Machine} {f g : CodeFrame} {e e' : Fault} {a : Activation}
  {rest : List Activation} {final : List ValType}

/-- The frames of code that are at work, innermost first. -/
def frames (m : Machine) : List CodeFrame := m.stack.filterMap Activation.frame?

theorem mem_frames : f ∈ m.frames ↔ .code f ∈ m.stack := by
  simp [frames, Activation.frame?_eq_some]

/-- A fault that was just raised shows the frames that are at work. -/
def Shows (m : Machine) : Prop :=
  ∀ e, m.control = .fault e → e.trace = m.frames.map m.world.frameInfo

/-- No host function has a call under way. -/
def IsDirect (m : Machine) : Prop := ∀ h, .host h ∈ m.stack → h.pending = none

/-! ## A fault as it is raised -/

theorem shows_of_calm (h : ∀ e, m.control ≠ .fault e) : m.Shows := fun e he => absurd he (h e)

theorem shows_raise (c : Cause) (m : Machine) : (m.raise c).Shows := by
  intro e he
  cases he
  exact m.world.trace_eq m.stack

theorem shows_enter (func : FuncAddr) (args : List StoreVal) (caller : Option InstanceAddr)
    (m : Machine) : (m.enter func args caller).Shows := by
  have houtcome := enter_outcome m func args caller
  generalize m.enter func args caller = m' at houtcome ⊢
  cases houtcome with
  | unknown | idle => exact shows_of_calm (by simp [giveBack])
  | code | host | command => exact shows_of_calm (by simp [pushActivation])
  | full | refused => exact shows_raise _ _
  | wasi known outcome =>
      cases outcome with
      | unattended | failed => exact shows_raise _ _
      | gave => exact shows_of_calm (by simp [giveBack])

theorem shows_failHost (t : Trap) (h : HostFrame) (m : Machine) : (m.failHost t h).Shows :=
  shows_raise _ _

theorem shows_onHost (h : HostFrame) (rest : List Activation) (w : World) (m : Machine) :
    (m.onHost h rest w).Shows := shows_of_calm (by simp [onHost])

theorem shows_finishHost (h : HostFrame) (m : Machine) : (m.finishHost h).Shows := by
  unfold finishHost
  dsimp only
  split
  · exact shows_failHost _ h _
  · exact shows_of_calm (by simp [giveBack])

theorem shows_afterFailure (f : Failure) (catches : Bool) (h : HostFrame)
    (rest : List Activation) (m : Machine) : (m.afterFailure f catches h rest).Shows := by
  unfold afterFailure
  split
  · exact shows_onHost h rest _ m
  · exact shows_failHost _ h m

theorem shows_hostStep (h : HostFrame) (rest : List Activation) (m : Machine) :
    (m.hostStep h rest).Shows := by
  unfold hostStep
  split
  · exact shows_finishHost h m
  · rename_i op todo _
    have houtcome := hostOp_outcome m { h with todo } rest op
    generalize hostOp op { h with todo } rest m = m' at houtcome ⊢
    cases houtcome with
    | trapped | refused | unfueled => exact shows_failHost _ _ m
    | called =>
        unfold hostCall
        split
        · exact shows_afterFailure _ _ _ rest m
        · exact shows_enter _ _ _ _
    | _ => exact shows_onHost _ rest _ m

theorem shows_commandStep (c : CommandFrame) (rest : List Activation) (m : Machine) :
    (m.commandStep c rest).Shows := by
  unfold commandStep
  dsimp only
  split
  · exact shows_enter _ _ _ _
  · exact shows_of_calm (by simp [giveBack])

theorem shows_commandResume (vals : List StoreVal) (c : CommandFrame) (rest : List Activation)
    (m : Machine) : (m.commandResume vals c rest).Shows := by
  unfold commandResume
  split
  · exact shows_of_calm (by simp [giveBack])
  · dsimp only
    split
    · exact shows_enter _ _ _ _
    · exact shows_of_calm (by simp [giveBack])

/-- A step that raises a fault shows the frames at work. -/
theorem shows_of_steps (calm : ∀ e, m.control ≠ .fault e) (hs : m.Steps m') : m'.Shows := by
  cases step_sound hs with
  | next | exit | resume | hostLeft => exact shows_of_calm (by simp)
  | trap => exact shows_raise _ _
  | call => exact shows_enter _ _ _ _
  | hostRun => exact shows_hostStep _ _ _
  | hostBack => exact shows_onHost _ _ _ _
  | commandRun => exact shows_commandStep _ _ _
  | commandBack => exact shows_commandResume _ _ _ _
  | unwind | hostFault | commandFault => exact absurd rfl (calm _)

/-! ## A fault as it goes on -/

/-- A fault that no host function hears of in a call of its own ends the run as it is. -/
theorem IsDirect.ends (h : m.IsDirect) (hfault : m.control = .fault e) :
    ∃ w, m.Ends (.error e, w) := by
  generalize hs : m.stack = stack
  induction stack generalizing m with
  | nil =>
      obtain ⟨w, stack, control, used⟩ := m
      cases hs
      cases hfault
      exact ⟨w, 1, rfl⟩
  | cons a rest ih =>
      obtain ⟨w, stack, control, used⟩ := m
      cases hs
      cases hfault
      have hrest {w' : World} {used' : Nat} :
          ∃ w'', Ends ⟨w', rest, .fault e, used'⟩ (.error e, w'') :=
        ih (fun h' hm => h h' (List.mem_cons_of_mem a hm)) rfl rfl
      cases a with
      | code f =>
          obtain ⟨w', hends⟩ := hrest
          exact ⟨w', .of_steps rfl hends⟩
      | command c =>
          obtain ⟨w', hends⟩ := hrest
          exact ⟨w', .of_steps rfl hends⟩
      | host h' =>
          have hpending : h'.pending = none := h h' List.mem_cons_self
          have hs : Steps ⟨w, .host h' :: rest, .fault e, used⟩
              (leaveHost h' ⟨w, .host h' :: rest, .fault e, used⟩) := by
            simp only [Steps, step, hostFault, hpending]
          obtain ⟨w', hends⟩ := hrest
          exact ⟨w', .of_steps hs hends⟩

/-- A step raises a fault. -/
structure Raises (m m' : Machine) (e : Fault) : Prop where
  step : m.Steps m'
  calm : ∀ e, m.control ≠ .fault e
  fault : m'.control = .fault e

/-- A run that ends with a fault raised it at a step, or began with it. -/
theorem exists_raised {w : World} (h : m.Ends (.error e, w))
    (direct : ∀ m', m.Reaches m' → m'.IsDirect) :
    m.control = .fault e ∨ ∃ m₁ m₂, m.Reaches m₁ ∧ m₁.Raises m₂ e := by
  have hlast {m : Machine} {e' : Fault} (h : m.Ends (.error e, w)) (direct : m.IsDirect)
      (hfault : m.control = .fault e') : m.control = .fault e := by
    obtain ⟨w', hends⟩ := direct.ends hfault
    cases hends.unique h
    exact hfault
  obtain ⟨n, hrun⟩ := h
  induction n generalizing m with
  | zero => cases hrun
  | succ n ih =>
      by_cases hfault : ∃ e', m.control = .fault e'
      · obtain ⟨e', he'⟩ := hfault
        exact .inl (hlast ⟨n + 1, hrun⟩ (direct m .refl) he')
      · have calm (e' : Fault) : m.control ≠ .fault e' := fun he' => hfault ⟨e', he'⟩
        cases hstep : m.step with
        | inl m' =>
            have hs : m.Steps m' := hstep
            rw [run_succ hs] at hrun
            rcases ih (fun m'' hr => direct m'' (.head hs hr)) hrun with he | ⟨m₁, m₂, hr, hraised⟩
            · exact .inr ⟨m, m', .refl, ⟨hs, calm, he⟩⟩
            · exact .inr ⟨m₁, m₂, .head hs hr, hraised⟩
        | inr r =>
            have hend : r = (.error e, w) := by simpa [run, hstep] using hrun
            obtain ⟨v, stack, control, used⟩ := m
            cases stack_of_end hstep
            subst hend
            cases control with
            | fault e' => exact absurd rfl (calm e')
            | run | back => cases hstep

/-! ## The frames that a fault shows -/

/-- A fault that comes of something else than code leaves the frames below it. -/
theorem Turn.below (ht : Turn m m') (stack : m.stack = a :: rest) (ha : a.kind ≠ .code)
    (hfault : m'.control = .fault e) (hf : .code f ∈ m'.stack) : .code f ∈ rest := by
  have hpop {b : Activation} (hs : m.stack = b :: m'.stack) : .code f ∈ rest := by
    cases stack.symm.trans hs
    exact hf
  cases ht with
  | onward _ _ _ control => cases control.symm.trans hfault
  | called hs entered kind =>
      cases stack.symm.trans hs
      cases entered with
      | pushed _ _ control => cases control.symm.trans hfault
      | gave _ _ control => cases control.symm.trans hfault
      | raised w c same => exact mem_of_kind (kind ▸ ha) (same ▸ hf)
  | returned _ _ control => cases control.symm.trans hfault
  | failed hs => exact hpop hs
  | unwound hs => exact hpop hs

/-- A step of a frame traps, and the frame shows where it was. -/
structure Trapped (m m' : Machine) (g f : CodeFrame) : Prop where
  stack : ∃ rest, m.stack = .code g :: rest ∧ m'.stack = .code f :: rest
  control : m.control = .run
  step : ∃ c w, g.step m.world = .trap c f w
  kin : g.Kin f
  pc : f.pc = g.pc

/-- When a fault is raised all frames are at calls, but for one that raised it by itself. -/
theorem frames_of_raises (h : m.Raises m' e) (native : m.Native) (typed : m.Typed final) :
    (∀ f ∈ m'.frames, f.AtCall) ∨
      ∃ g f, Trapped m m' g f ∧ m'.frames.head? = some f ∧ ∀ f ∈ m'.frames.tail, f.AtCall := by
  obtain ⟨hs, calm, hfault⟩ := h
  have hbelow {a : Activation} {rest : List Activation} {f : CodeFrame} (stack : m.stack = a :: rest)
      (hf : .code f ∈ rest) : f.AtCall := by
    refine native.suspended f (mem_suspended_of_tail ?_)
    rwa [stack]
  have hturn := turn_of_steps hs
  cases step_sound hs with
  | next | exit | resume => cases hfault
  | @trap w w' g f rest _ _ out =>
      have hremains := (typed.frame rfl rfl).remains
      rw [out] at hremains
      refine .inr ⟨g, f, ⟨⟨rest, rfl, rfl⟩, rfl, ⟨_, _, out⟩, hremains.1, hremains.2⟩, rfl,
        fun f hf => ?_⟩
      obtain ⟨b, hb, hframe⟩ := List.mem_filterMap.mp hf
      rw [Activation.frame?_eq_some.mp hframe] at hb
      exact hbelow rfl hb
  | @call w w' g f rest used func args out =>
      have hremains := (typed.frame rfl rfl).remains
      rw [out] at hremains
      refine .inl fun f' hf => ?_
      have hentered := entered_enter (m := ⟨w', .code f :: rest, .run, used⟩) rfl func args
        (some f.owner)
      cases hentered with
      | pushed _ _ control => cases control.symm.trans hfault
      | gave _ _ control => cases control.symm.trans hfault
      | raised v c same =>
          have hmem := mem_frames.mp hf
          rw [same] at hmem
          rcases List.mem_cons.mp hmem with heq | hmem
          · cases heq
            exact hremains.2.2
          · exact hbelow rfl hmem
  | unwind => exact absurd rfl (calm _)
  | _ =>
      exact .inl fun f hf => hbelow rfl (hturn.below rfl (by simp [Activation.kind]) hfault
        (mem_frames.mp hf))

end Machine

end WasmHost

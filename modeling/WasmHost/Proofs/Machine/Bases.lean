import WasmHost.Proofs.Machine.Escapes

/-!
# What is at work above a stack

A call does not look at what was at work before it, but for two things: a trace and a collection go
through the frames of code on the whole stack. So what is at work above two stacks with the same
frames of code does the same above both.
-/

namespace WasmHost

namespace Machine

/-- The frames of code on a stack. -/
def codeFrames (stack : List Activation) : List CodeFrame :=
  stack.filterMap fun a => match a with
    | .code f => some f
    | .host _ | .command _ => none

/-- The bytes of stack that some activations are taken to need. -/
def bytesOf (stack : List Activation) : Nat := stack.foldr (fun a n => a.size + n) 0

/-- The machine in which some activations are at work above a stack that needs so many bytes. -/
def atop (base : List Activation) (n : Nat) (w : World) (above : List Activation)
    (c : Control) : Machine := ⟨w, above ++ base, c, n + bytesOf above⟩

variable {base base' above : List Activation} {n : Nat} {w w' : World} {c c' : Control}
  {a : Activation} {m m' : Machine}

@[simp] theorem codeFrames_append (s s' : List Activation) :
    codeFrames (s ++ s') = codeFrames s ++ codeFrames s' := List.filterMap_append

@[simp] theorem bytesOf_nil : bytesOf [] = 0 := rfl

@[simp] theorem bytesOf_cons (a : Activation) (s : List Activation) :
    bytesOf (a :: s) = a.size + bytesOf s := rfl

theorem trace_eq (w : World) (stack : List Activation) :
    w.trace stack = (codeFrames stack).map w.frameInfo := by
  rw [World.trace, codeFrames, List.map_filterMap]
  congr 1
  funext a
  cases a <;> rfl

theorem liveBoxes_eq (m : Machine) :
    m.liveBoxes = (codeFrames m.stack).flatMap CodeFrame.boxes := by
  rw [liveBoxes]
  induction m.stack with
  | nil => rfl
  | cons a rest ih =>
      rw [List.flatMap_cons, ih]
      cases a <;> rfl

@[simp] theorem atop_world : (atop base n w above c).world = w := rfl

@[simp] theorem atop_stack : (atop base n w above c).stack = above ++ base := rfl

@[simp] theorem atop_control : (atop base n w above c).control = c := rfl

/-- Two machines in which the same is at work above two stacks. -/
def Alike (base base' : List Activation) (n : Nat) (m m' : Machine) : Prop :=
  ∃ w above c, m = atop base n w above c ∧ m' = atop base' n w above c

namespace Alike

theorem refl (w : World) (above : List Activation) (c : Control) :
    Alike base base' n (atop base n w above c) (atop base' n w above c) :=
  ⟨w, above, c, rfl, rfl⟩

theorem symm (h : Alike base base' n m m') : Alike base' base n m' m := by
  obtain ⟨w, above, c, h, h'⟩ := h
  exact ⟨w, above, c, h', h⟩

theorem world (h : Alike base base' n m m') : m.world = m'.world := by
  obtain ⟨w, above, c, rfl, rfl⟩ := h
  rfl

theorem hasStack (h : Alike base base' n m m') : m.hasStack = m'.hasStack := by
  obtain ⟨w, above, c, rfl, rfl⟩ := h
  rfl

theorem withWorld (h : Alike base base' n m m') (w : World) :
    Alike base base' n { m with world := w } { m' with world := w } := by
  obtain ⟨v, above, c, rfl, rfl⟩ := h
  exact ⟨w, above, c, rfl, rfl⟩

theorem giveBack (h : Alike base base' n m m') (vals : List StoreVal) :
    Alike base base' n (m.giveBack vals) (m'.giveBack vals) := by
  obtain ⟨w, above, c, rfl, rfl⟩ := h
  exact ⟨w, above, .back vals, rfl, rfl⟩

theorem push (h : Alike base base' n m m') (a : Activation) :
    Alike base base' n (m.pushActivation a) (m'.pushActivation a) := by
  obtain ⟨w, above, c, rfl, rfl⟩ := h
  refine ⟨w, a :: above, .run, ?_, ?_⟩ <;>
    simp [pushActivation, atop, Nat.add_assoc, Nat.add_comm a.size]

theorem pop (w : World) (a : Activation) (above : List Activation) (c : Control) :
    Alike base base' n (atop base n w (a :: above) c).popActivation
      (atop base' n w (a :: above) c).popActivation := by
  refine ⟨w, above, c, ?_, ?_⟩ <;> simp [popActivation, atop] <;> omega

end Alike

section SameCode

/-! The two stacks have the same frames of code. -/

variable (same : codeFrames base = codeFrames base')

include same

namespace Alike

theorem raise (h : Alike base base' n m m') (c : Cause) :
    Alike base base' n (m.raise c) (m'.raise c) := by
  obtain ⟨w, above, d, rfl, rfl⟩ := h
  refine ⟨w, above, .fault { cause := c, trace := w.trace (above ++ base) }, rfl, ?_⟩
  simp [Machine.raise, atop, trace_eq, same]

theorem enterWasi (h : Alike base base' n m m') (func : Wasi.Func) (args : List StoreVal)
    (caller : Option InstanceAddr) :
    Alike base base' n (m.enterWasi func args caller) (m'.enterWasi func args caller) := by
  unfold Machine.enterWasi
  rw [← h.world]
  split
  · exact h.raise same _
  · dsimp only
    split
    · exact (h.withWorld _).raise same _
    · exact (h.withWorld _).giveBack _

theorem enter (h : Alike base base' n m m') (func : FuncAddr) (args : List StoreVal)
    (caller : Option InstanceAddr) :
    Alike base base' n (m.enter func args caller) (m'.enter func args caller) := by
  unfold Machine.enter
  rw [← h.world, ← h.hasStack]
  split
  · exact h.giveBack []
  · dsimp only
    split
    · split
      · exact h.raise same _
      · exact h.push _
    · exact (h.withWorld _).push _
    · split
      · exact (h.withWorld _).push _
      · exact (h.withWorld _).raise same _
    · exact h.enterWasi same _ args caller
    · exact h.giveBack []

end Alike

/-! A host function is on top. -/

section HostFunctions

variable {h h' : HostFrame}

omit same in
theorem alike_onHost (w' : World) : Alike base base' n
    ((atop base n w (.host h :: above) c).onHost h' (above ++ base) w')
    ((atop base' n w (.host h :: above) c).onHost h' (above ++ base') w') :=
  ⟨w', .host h' :: above, .run, rfl, rfl⟩

theorem alike_failHost (t : Trap) : Alike base base' n
    ((atop base n w (.host h :: above) c).failHost t h')
    ((atop base' n w (.host h :: above) c).failHost t h') :=
  (Alike.pop (h'.close w) _ above c).raise same (.host t)

theorem alike_afterFailure (f : Failure) (catches : Bool) : Alike base base' n
    ((atop base n w (.host h :: above) c).afterFailure f catches h' (above ++ base))
    ((atop base' n w (.host h :: above) c).afterFailure f catches h' (above ++ base')) := by
  unfold afterFailure
  split
  · exact alike_onHost _
  · exact alike_failHost same _

theorem alike_finishHost : Alike base base' n
    ((atop base n w (.host h :: above) c).finishHost h')
    ((atop base' n w (.host h :: above) c).finishHost h') := by
  simp only [finishHost, atop_world]
  split
  · exact alike_failHost same _
  · exact (Alike.pop (h'.close _) _ above c).giveBack _

theorem alike_hostCall (func : FuncAddr) (args : List HostVal) (result : Option Nat)
    (catches : Bool) : Alike base base' n
    ((atop base n w (.host h :: above) c).hostCall func args result catches h' (above ++ base))
    ((atop base' n w (.host h :: above) c).hostCall func args result catches h'
      (above ++ base')) := by
  simp only [hostCall, atop_world]
  split
  · exact alike_afterFailure same _ catches
  · refine Alike.enter same ?_ func _ none
    exact ⟨_, .host { h' with pending := _ } :: above, c, rfl, rfl⟩

theorem alike_hostOp (op : HostOp) : Alike base base' n
    ((atop base n w (.host h :: above) .run).hostOp op h' (above ++ base))
    ((atop base' n w (.host h :: above) .run).hostOp op h' (above ++ base')) := by
  have hworld : (atop base n w (.host h :: above) .run).world = w := rfl
  have hworld' : (atop base' n w (.host h :: above) .run).world = w := rfl
  have hboxes : (atop base n w (.host h :: above) .run).liveBoxes =
      (atop base' n w (.host h :: above) .run).liveBoxes := by
    simp only [liveBoxes_eq, atop_stack, codeFrames_append, same]
  have goes (g : HostFrame) (v : World) : Alike base base' n
      ((atop base n w (.host h :: above) .run).onHost g (above ++ base) v)
      ((atop base' n w (.host h :: above) .run).onHost g (above ++ base') v) := alike_onHost v
  have fails (t : Trap) : Alike base base' n
      ((atop base n w (.host h :: above) .run).failHost t h')
      ((atop base' n w (.host h :: above) .run).failHost t h') := alike_failHost same t
  have calls (func : FuncAddr) (args : List HostVal) (result : Option Nat) (catches : Bool) :
      Alike base base' n
        ((atop base n w (.host h :: above) .run).hostCall func args result catches h'
          (above ++ base))
        ((atop base' n w (.host h :: above) .run).hostCall func args result catches h'
          (above ++ base')) := alike_hostCall same func args result catches
  -- what an operation does is told by the world, the boxes in use and these three
  generalize atop base n w (.host h :: above) .run = m at *
  generalize atop base' n w (.host h :: above) .run = m' at *
  cases op
  case trap => exact fails _
  case gc =>
    rw [hostOp, hostOp, hboxes, hworld, hworld']
    exact goes _ _
  all_goals rw [hostOp, hostOp, hworld, hworld']
  case peek | poke =>
    split
    · exact fails _
    · split
      · exact fails _
      · split
        · exact goes _ _
        · exact fails _
  case grow | setGlobal =>
    split
    · exact fails _
    · split
      · exact goes _ _
      · exact fails _
  case size =>
    split
    · exact fails _
    · exact goes _ _
  case addFuel =>
    split
    · exact goes _ _
    · exact fails _
  case call =>
    split
    · exact fails _
    · exact calls _ _ _ _
  all_goals exact goes _ _

theorem alike_hostStep : Alike base base' n
    ((atop base n w (.host h :: above) .run).hostStep h (above ++ base))
    ((atop base' n w (.host h :: above) .run).hostStep h (above ++ base')) := by
  unfold hostStep
  split
  · exact alike_finishHost same
  · exact alike_hostOp same _

omit same in
theorem alike_hostResume (vals : List StoreVal) (p : PendingCall) : Alike base base' n
    ((atop base n w (.host h :: above) c).hostResume vals p h (above ++ base))
    ((atop base' n w (.host h :: above) c).hostResume vals p h (above ++ base')) :=
  alike_onHost _

theorem alike_hostFault (f : Fault) : Alike base base' n
    ((atop base n w (.host h :: above) c).hostFault f h (above ++ base))
    ((atop base' n w (.host h :: above) c).hostFault f h (above ++ base')) := by
  unfold hostFault
  split
  · exact alike_afterFailure (w := World.unholdAll _ w) same _ _
  · exact .pop (h.close w) _ above c

end HostFunctions

theorem alike_commandStep {f : CommandFrame} : Alike base base' n
    ((atop base n w (.command f :: above) c).commandStep f (above ++ base))
    ((atop base' n w (.command f :: above) c).commandStep f (above ++ base')) := by
  have starting : Alike base base' n
      (atop base n w (.command { f with stage := .starting } :: above) c)
      (atop base' n w (.command { f with stage := .starting } :: above) c) :=
    .refl w _ c
  simp only [commandStep, atop_world]
  split
  · exact starting.enter same _ _ _
  · exact starting.giveBack _

theorem alike_commandResume {f : CommandFrame} (vals : List StoreVal) : Alike base base' n
    ((atop base n w (.command f :: above) c).commandResume vals f (above ++ base))
    ((atop base' n w (.command f :: above) c).commandResume vals f (above ++ base')) := by
  have calling : Alike base base' n
      (atop base n w (.command { f with stage := .calling } :: above) c)
      (atop base' n w (.command { f with stage := .calling } :: above) c) :=
    .refl w _ c
  unfold commandResume
  split
  · exact (Alike.pop (World.unholdAll f.held (World.exposeAll vals w)) _ above c).giveBack vals
  · simp only [atop_world]
    split
    · exact (calling.withWorld _).enter same _ _ _
    · exact calling.giveBack _

/-- What is at work does the same above both stacks. -/
theorem alike_step : ∃ m m', (atop base n w (a :: above) c).Steps m ∧
    (atop base' n w (a :: above) c).Steps m' ∧ Alike base base' n m m' := by
  cases a with
  | code f =>
      cases c with
      | run =>
          cases hstep : f.step w with
          | next g w' =>
              exact ⟨_, _, step_complete (.next hstep), step_complete (.next hstep),
                .refl w' (.code g :: above) .run⟩
          | trap code g w' =>
              exact ⟨_, _, step_complete (.trap hstep), step_complete (.trap hstep),
                (Alike.refl w' (.code g :: above) .run).raise same (.code code)⟩
          | call func args g w' =>
              exact ⟨_, _, step_complete (.call hstep), step_complete (.call hstep),
                (Alike.refl w' (.code g :: above) .run).enter same func args (some g.owner)⟩
          | exit vals w' =>
              exact ⟨_, _, step_complete (.exit hstep), step_complete (.exit hstep),
                (Alike.pop w' (.code f) above .run).giveBack vals⟩
      | back vals => exact ⟨_, _, rfl, rfl, .refl w (.code (f.pushAll vals).advance :: above) .run⟩
      | fault e => exact ⟨_, _, rfl, rfl, .pop w _ above _⟩
  | host h =>
      cases c with
      | run => exact ⟨_, _, rfl, rfl, alike_hostStep same⟩
      | back vals =>
          cases hp : h.pending with
          | none =>
              exact ⟨_, _, step_complete (.hostLeft hp), step_complete (.hostLeft hp),
                .refl w (.host h :: above) .run⟩
          | some p =>
              exact ⟨_, _, step_complete (.hostBack hp), step_complete (.hostBack hp),
                alike_hostResume vals p⟩
      | fault f => exact ⟨_, _, rfl, rfl, alike_hostFault same f⟩
  | command f =>
      cases c with
      | run => exact ⟨_, _, rfl, rfl, alike_commandStep same⟩
      | back vals => exact ⟨_, _, rfl, rfl, alike_commandResume same vals⟩
      | fault e => exact ⟨_, _, rfl, rfl, .pop (w.unholdAll f.held) _ above _⟩

end SameCode

end Machine

end WasmHost

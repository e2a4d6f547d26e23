import WasmHost.Proofs.Embedding.Usage
import WasmHost.Proofs.Machine.Echoes

/-!
# Calls of host functions

However a host function comes to be called, it begins with what was passed and with zeros and nulls
for its results, all of the declared kinds. Whatever it does then, its caller gets its results as
they are or learns of a trap, and results of other kinds than were declared are never handed over.
-/

namespace WasmHost

open World

/-- The values that a host function passes on. -/
def HostFrame.passed (h : HostFrame) (args : List HostArg) : List HostVal :=
  args.map fun a => match a with
    | .arg k => h.arg k
    | .value v => v

namespace Machine

end Machine

namespace Usage

/-- What is under way in the store, the innermost first. -/
def stack (u : Usage) : List Activation := u.task.elim [] Task.stack

theorem stack_of_task {u : Usage} {t : Task} (task : u.task = some t) : u.stack = t.stack := by
  rw [stack, task, Option.elim_some]

/-- The next step begins a call of a function: the values that are passed as they look from outside,
the instance whose code makes the call, and the usage right afterwards. -/
inductive Calls (u : Usage) (func : FuncAddr) : List HostVal → Option InstanceAddr → Usage → Prop
  /-- The embedder calls the function. -/
  | outside {args : List HostVal} (idle : u.task = none)
      (fits : checkArgs (u.world.funcType func) args = .ok ()) :
      Calls u func args none
        (u.goto (newTask (u.world.acceptAll args).1 true) (u.world.begin func args))
  /-- The embedder runs the start function of an instance. -/
  | start {addr : InstanceAddr} (idle : u.task = none)
      (start : u.world.startFunc? addr = some func) :
      Calls u func [] (some addr)
        (u.goto (newTask [] false) ((Machine.idle u.world).enter func [] (some addr)))
  /-- An instruction calls the function. -/
  | code {t : Task} {f g : CodeFrame} {rest : List Activation} {args : List StoreVal} {w : World}
      (task : u.task = some t) (stack : t.stack = .code f :: rest) (running : t.control = .run)
      (step : f.step u.world = .call func args g w) :
      Calls u func (args.map w.view) (some g.owner)
        (u.goto t (Machine.enter func args (some g.owner) ⟨w, .code g :: rest, .run, t.used⟩))
  /-- An operation of a host function calls the function. -/
  | op {t : Task} {h : HostFrame} {rest : List Activation} {todo : List HostOp} {name : String}
      {args : List HostArg} {result : Option Nat} {catches : Bool} (task : u.task = some t)
      (at_host : t.AtHost h rest) (next : h.todo = .call name args result catches :: todo)
      (known : (h.export? u.world name).bind Item.func? = some func)
      (fits : checkArgs (u.world.funcType func) (h.passed args) = .ok ()) :
      Calls u func (h.passed args) none
        (u.goto t ((t.machine u.world).hostCall func (h.passed args) result catches { h with todo }
          rest))
  /-- A host function calls the function. -/
  | host {t : Task} {h : HostFrame} {rest : List Activation} {args : List HostVal}
      {result : Option Nat} {catches : Bool} (task : u.task = some t) (at_host : t.AtHost h rest)
      (fits : checkArgs (u.world.funcType func) args = .ok ()) :
      Calls u func args none
        (u.goto t ((t.machine u.world).hostCall func args result catches h rest))
  /-- A host function runs the start function of an instance. -/
  | hostStart {t : Task} {h : HostFrame} {rest : List Activation} {addr : InstanceAddr}
      {catches : Bool} (task : u.task = some t) (at_host : t.AtHost h rest)
      (start : u.world.startFunc? addr = some func) :
      Calls u func [] (some addr)
        (u.goto t ((HostMove.start addr catches).run h rest (t.machine u.world)))
  /-- A command runs its start function. -/
  | commandStart {t : Task} {c : CommandFrame} {rest : List Activation} (task : u.task = some t)
      (stack : t.stack = .command c :: rest) (running : t.control = .run)
      (start : u.world.startFunc? c.owner = some func) :
      Calls u func [] (some c.owner) (u.goto t ((t.machine u.world).commandStep c rest))
  /-- A command calls its export. -/
  | commandEntry {t : Task} {c : CommandFrame} {rest : List Activation} {vals : List StoreVal}
      (task : u.task = some t) (stack : t.stack = .command c :: rest)
      (back : t.control = .back vals) (stage : c.stage ≠ .calling)
      (entry : (u.world.getExport c.owner c.entry).bind Item.func? = some func) :
      Calls u func (c.held.map u.world.view) none
        (u.goto t ((t.machine u.world).commandResume vals c rest))

variable {u u' : Usage} {func : FuncAddr} {seen : List HostVal} {caller : Option InstanceAddr}

/-- A call is a step. -/
theorem Calls.step (h : u.Calls func seen caller u') : u.Step u' := by
  have work {t : Task} {m m' : Machine} (task : u.task = some t) (hm : t.machine u.world = m)
      (hs : m.step = .inl m') : u.Step (u.goto t m') := .work task (hm ▸ hs)
  cases h with
  | outside idle fits => exact .call idle fits
  | start idle start => exact .start idle start
  | @code t f g rest args w task stack running step =>
      refine work task (m := ⟨u.world, .code f :: rest, .run, t.used⟩) ?_ ?_
      · rw [Task.machine, stack, running]
      · exact Machine.step_complete (.call step)
  | @op t h rest todo name args result catches task at_host next known fits =>
      obtain ⟨hstack, hcontrol⟩ := at_host
      refine work task (m := ⟨u.world, .host h :: rest, .run, t.used⟩) ?_ ?_
      · rw [Task.machine, hstack, hcontrol]
      · have hknown :
            (HostFrame.export? { h with todo } u.world name).bind Item.func? = some func := known
        simp only [Machine.step, Machine.hostStep, next, Machine.hostOp, hknown, Task.machine,
          hstack, hcontrol]
        rfl
  | @host t h rest args result catches task at_host fits =>
      exact .move task at_host (.call func seen result catches)
  | hostStart task at_host start => exact .move task at_host (.start _ _)
  | @commandStart t c rest task stack running start =>
      refine work task (m := ⟨u.world, .command c :: rest, .run, t.used⟩) ?_ ?_
      · rw [Task.machine, stack, running]
      · simp only [Machine.step, Task.machine, stack, running]
  | @commandEntry t c rest vals task stack back stage entry =>
      refine work task (m := ⟨u.world, .command c :: rest, .back vals, t.used⟩) ?_ ?_
      · rw [Task.machine, stack, back]
      · simp only [Machine.step, Task.machine, stack, back]

theorem length_failHost {m : Machine} {a : Activation} {rest : List Activation}
    (hstack : m.stack = a :: rest) (trap : Trap) (h : HostFrame) :
    (m.failHost trap h).stack.length = rest.length := by
  simp [Machine.failHost, Machine.raise, Machine.leaveHost, hstack]

theorem length_afterFailure {m : Machine} {a : Activation} {rest : List Activation}
    (hstack : m.stack = a :: rest) (f : Failure) (catches : Bool) (h : HostFrame) :
    (m.afterFailure f catches h rest).stack.length ≤ m.stack.length := by
  unfold Machine.afterFailure
  split
  · exact hstack ▸ Nat.le_refl _
  · rw [length_failHost hstack, hstack]
    exact Nat.le_succ _

theorem length_finishHost {m : Machine} {a : Activation} {rest : List Activation}
    (hstack : m.stack = a :: rest) (h : HostFrame) :
    (m.finishHost h).stack.length = rest.length := by
  unfold Machine.finishHost
  dsimp only
  split
  · exact length_failHost (by exact hstack) _ h
  · simp [Machine.giveBack, Machine.leaveHost, hstack]

/-- A call with arguments that do not fit puts nothing on the stack. -/
theorem length_hostCall {m : Machine} {a : Activation} {rest : List Activation}
    {args : List HostVal} (hstack : m.stack = a :: rest)
    (hne : checkArgs (m.world.funcType func) args ≠ .ok ()) (result : Option Nat) (catches : Bool)
    (h : HostFrame) :
    (m.hostCall func args result catches h rest).stack.length ≤ m.stack.length := by
  unfold Machine.hostCall
  split
  · exact length_afterFailure hstack _ _ _
  · exact absurd ‹_› hne

/-- An operation of a host function that puts something on the stack begins a call. -/
theorem exists_calls_of_hostStep {t : Task} {h : HostFrame} {rest : List Activation}
    (task : u.task = some t) (at_host : t.AtHost h rest)
    (grown : t.stack.length < ((t.machine u.world).hostStep h rest).stack.length) :
    ∃ func seen caller,
      u.Calls func seen caller (u.goto t ((t.machine u.world).hostStep h rest)) := by
  have hstack : (t.machine u.world).stack = .host h :: rest := at_host.1
  have hlength : t.stack.length = rest.length + 1 := congrArg List.length at_host.1
  unfold Machine.hostStep at grown ⊢
  cases next : h.todo with
  | nil =>
      simp only [next, length_finishHost hstack] at grown
      omega
  | cons op todo =>
      simp only [next] at grown ⊢
      have houtcome := Machine.hostOp_outcome (t.machine u.world) { h with todo } rest op
      generalize (t.machine u.world).hostOp op { h with todo } rest = m' at houtcome grown ⊢
      cases houtcome with
      | @called name args result catches func known =>
          have known : (h.export? u.world name).bind Item.func? = some func := known
          cases fits : checkArgs (u.world.funcType func) (h.passed args) with
          | ok => exact ⟨func, _, _, .op (h := h) task at_host next known fits⟩
          | error e =>
              refine absurd grown (Nat.not_lt.mpr (length_hostCall hstack ?_ _ _ _))
              intro hok
              cases fits.symm.trans hok
      | trapped | refused | unfueled =>
          rw [length_failHost hstack] at grown
          omega
      | _ =>
          rw [hlength] at grown
          exact absurd grown (Nat.lt_irrefl _)

/-- A step of a machine that puts something on the stack begins a call. -/
theorem exists_calls_of_steps {t : Task} {m : Machine} (task : u.task = some t)
    (hs : (t.machine u.world).Steps m) (grown : t.stack.length < m.stack.length) :
    ∃ func seen caller, u.Calls func seen caller (u.goto t m) := by
  generalize hm : t.machine u.world = m₀ at hs
  have hgrown : m₀.stack.length < m.stack.length := hm ▸ grown
  -- all but a call leave the stack as long as it was, or make it shorter
  cases Machine.step_sound hs with
  | next | trap | resume | hostBack | hostLeft => exact absurd hgrown (Nat.lt_irrefl _)
  | exit | unwind | commandFault => exact absurd hgrown (Nat.not_lt.mpr (Nat.le_succ _))
  | call out =>
      obtain ⟨rfl, stack, control, rfl⟩ := Machine.mk.inj hm
      exact ⟨_, _, _, .code task stack control out⟩
  | hostRun =>
      obtain ⟨rfl, stack, control, rfl⟩ := Machine.mk.inj hm
      rw [← hm] at hgrown ⊢
      exact exists_calls_of_hostStep task ⟨stack, control⟩ hgrown
  | @hostFault _ h =>
      unfold Machine.hostFault at hgrown
      split at hgrown
      · exact absurd hgrown (Nat.not_lt.mpr (length_afterFailure (a := .host h) rfl _ _ _))
      · simp only [Machine.leaveHost, Machine.popActivation, List.length_cons] at hgrown
        omega
  | @commandRun _ c =>
      obtain ⟨rfl, stack, control, rfl⟩ := Machine.mk.inj hm
      cases hstart : u.world.startFunc? c.owner with
      | none =>
          simp only [Machine.commandStep, hstart] at hgrown
          exact absurd hgrown (Nat.lt_irrefl _)
      | some func =>
          rw [← hm]
          exact ⟨func, _, _, .commandStart task stack control hstart⟩
  | @commandBack _ c =>
      obtain ⟨rfl, stack, control, rfl⟩ := Machine.mk.inj hm
      by_cases hstage : c.stage = .calling
      · simp only [Machine.commandResume, hstage, if_true, Machine.giveBack,
          Machine.popActivation, List.length_cons] at hgrown
        omega
      · cases hentry : (u.world.getExport c.owner c.entry).bind Item.func? with
        | none =>
            simp only [Machine.commandResume, hstage, if_false, hentry] at hgrown
            exact absurd hgrown (Nat.lt_irrefl _)
        | some func =>
            rw [← hm]
            exact ⟨func, _, _, .commandEntry task stack control hstage hentry⟩

/-- Something is put on the stack by a call only. -/
theorem Step.exists_calls (h : u.Step u') {t' : Task} (task' : u'.task = some t')
    (grown : ∀ t ∈ u.task, t.stack.length < t'.stack.length) :
    (∃ func seen caller, u.Calls func seen caller u') := by
  have same {u'' : Usage} (htask : u''.task = u.task) (ht : u''.task = some t') : False := by
    exact absurd (grown t' (htask ▸ ht)) (Nat.lt_irrefl _)
  cases h with
  | shared | store | newLinker | dropLinker | link | resolve => exact (same (by rfl) task').elim
  | answer => cases task'
  | call idle fits => exact ⟨_, _, _, .outside idle fits⟩
  | start idle start => exact ⟨_, _, _, .start idle start⟩
  | work task step =>
      cases task'
      exact exists_calls_of_steps task step (grown _ task)
  | @move t h rest task at_host c =>
      cases task'
      have grown := grown t task
      have hstack : (t.machine u.world).stack = .host h :: rest := at_host.1
      have hlength : t.stack.length = rest.length + 1 := congrArg List.length at_host.1
      cases c with
      | call func args result catches =>
          cases fits : checkArgs (u.world.funcType func) args with
          | ok => exact ⟨func, _, _, .host task at_host fits⟩
          | error e =>
              refine absurd grown (Nat.not_lt.mpr (length_hostCall hstack ?_ _ _ _))
              intro hok
              cases fits.symm.trans hok
      | start addr catches =>
          cases hstart : u.world.startFunc? addr with
          | some func => exact ⟨func, _, _, .hostStart task at_host hstart⟩
          | none =>
              have hstart : (t.machine u.world).world.startFunc? addr = none := hstart
              simp only [HostMove.run, hstart] at grown
              exact absurd grown (Nat.lt_irrefl _)
      | setResult i v =>
          rw [hlength] at grown
          exact absurd grown (Nat.lt_irrefl _)
      | fail trap =>
          have hshort := length_failHost hstack trap h
          exact absurd (hlength ▸ grown) (by rw [Nat.not_lt]; exact hshort ▸ Nat.le_succ _)
      | finish =>
          have hshort := length_finishHost hstack h
          exact absurd (hlength ▸ grown) (by rw [Nat.not_lt]; exact hshort ▸ Nat.le_succ _)

/-- The usage goes on in a function that is entered, with arguments that look like `seen` from
outside, above a stack that is as long as the one of before. -/
def Enters (u : Usage) (func : FuncAddr) (seen : List HostVal) (caller : Option InstanceAddr)
    (u' : Usage) : Prop :=
  ∃ t m args, u' = u.goto t (Machine.enter func args caller m) ∧ u.world.Extends m.world ∧
    args.map m.world.view = seen ∧ m.stack.length = u.stack.length

/-- Values that come from outside look as they did there. -/
theorem view_taken (args : List HostVal) (w : World) :
    (w.acceptAll args).1.map ((w.acceptAll args).2.exposeAll (w.acceptAll args).1).view = args := by
  rw [view_exposeAll, view_acceptAll]

theorem enters_hostCall {t : Task} {h h' : HostFrame} {rest : List Activation}
    {args : List HostVal} (task : u.task = some t) (at_host : t.AtHost h rest)
    (fits : checkArgs (u.world.funcType func) args = .ok ()) (result : Option Nat)
    (catches : Bool) : u.Enters func args none
      (u.goto t ((t.machine u.world).hostCall func args result catches h' rest)) := by
  have hfits : checkArgs ((t.machine u.world).world.funcType func) args = .ok () := fits
  simp only [Machine.hostCall, hfits]
  refine ⟨t, _, _, rfl, .of_objects (objects_taken args _), view_taken args _, ?_⟩
  rw [stack_of_task task, at_host.1]
  rfl

/-- A call enters a function, with the values that are passed. -/
theorem Calls.enters (h : u.Calls func seen caller u') : u.Enters func seen caller u' := by
  have hidle (idle : u.task = none) : 0 = u.stack.length := by
    rw [stack, idle]
    rfl
  have htop {t : Task} {a b : Activation} {rest : List Activation} (task : u.task = some t)
      (stack : t.stack = a :: rest) : (b :: rest).length = u.stack.length := by
    rw [stack_of_task task, stack]
    rfl
  cases h with
  | outside idle fits =>
      exact ⟨newTask _ true, Machine.idle _, _, rfl, .of_objects (objects_taken seen _),
        view_taken seen _, hidle idle⟩
  | start idle start =>
      exact ⟨newTask [] false, Machine.idle u.world, [], rfl, .refl _, rfl, hidle idle⟩
  | @code t f g rest args w task stack running step =>
      have hext : u.world.Extends w := by
        have hstep := (f.changes_step u.world).extends_
        rwa [step] at hstep
      exact ⟨t, ⟨w, .code g :: rest, .run, t.used⟩, args, rfl, hext, rfl, htop task stack⟩
  | op task at_host next known fits => exact enters_hostCall task at_host fits _ _
  | host task at_host fits => exact enters_hostCall task at_host fits _ _
  | @hostStart t h rest addr catches task at_host start =>
      have hstart : (t.machine u.world).world.startFunc? addr = some func := start
      let waiting : HostFrame :=
        { h with pending := some { held := [], result := none, catches } }
      refine ⟨t, { t.machine u.world with stack := .host waiting :: rest }, [], ?_, .refl _, rfl,
        htop task at_host.1⟩
      simp only [HostMove.run, hstart]
      rfl
  | @commandStart t c rest task stack running start =>
      have hstart : (t.machine u.world).world.startFunc? c.owner = some func := start
      let starting : Activation := .command { c with stage := .starting }
      refine ⟨t, { t.machine u.world with stack := starting :: rest }, [], ?_, .refl _, rfl,
        htop task stack⟩
      simp only [Machine.commandStep, hstart]
      rfl
  | @commandEntry t c rest vals task stack back stage entry =>
      have hentry : ((t.machine u.world).world.getExport c.owner c.entry).bind Item.func? =
        some func := entry
      let calling : Activation := .command { c with stage := .calling }
      refine ⟨t, ⟨u.world.exposeAll c.held, calling :: rest, t.control, t.used⟩, c.held, ?_,
        .of_objects (objects_exposeAll _ _), ?_, htop task stack⟩
      · simp only [Machine.commandResume, stage, if_false, hentry]
        rfl
      · rw [view_exposeAll]

/-- A call of a host function puts it at work, with what was passed and with zeros and nulls for its
results. -/
theorem Calls.begins (h : u.Calls func seen caller u') {type : FuncType} {ops : List HostOp}
    (known : u.world.store.funcs[func]? = some ⟨type, .host ops⟩) :
    ∃ t held rest, u'.task = some t ∧ t.AtHost
      { type, caller, held, args := seen, results := type.results.map Val.default, todo := ops }
      rest := by
  obtain ⟨t, m, args, rfl, hext, rfl, -⟩ := h.enters
  refine ⟨_, args, m.stack, rfl, ?_⟩
  rw [Machine.enter_host (hext.funcs_known known)]
  exact ⟨rfl, rfl⟩

end Usage

end WasmHost

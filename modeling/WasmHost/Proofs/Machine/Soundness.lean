import WasmHost.Proofs.Machine.Arguments
import WasmHost.Proofs.Machine.Control
import WasmHost.Proofs.Machine.HostCalls
import WasmHost.Proofs.World.Exports

/-!
# Machines that are well typed

Each activation on a stack waits for results of certain kinds and gives results of certain kinds
itself; in a well typed machine what one gives is what the next one waits for. Every step keeps a
machine well typed, with the kinds of what it gives in the end.
-/

namespace WasmHost

open World

/-- A host function has arguments of the kinds that are declared, and a slot for each result. -/
structure HostFrame.Fits (h : HostFrame) : Prop where
  args : h.args.map Val.type = h.type.params
  results : h.results.length = h.type.results.length

/-- A command works as a function of a type: the arguments are of its kinds, and the instance
exports a function of the type under the name that is to be called. -/
def CommandFrame.Serves (w : World) (c : CommandFrame) (t : FuncType) : Prop :=
  c.held.map Val.type = t.params ∧ ∃ i, w.store.instances[c.owner]? = some i ∧ i.Linked w ∧
    ∃ e ∈ i.module.signature.exports, e.name = c.entry ∧ e.type = .func t

namespace Activation

/-- The activation can go on, and gives results of the kinds `ts` in the end. -/
def Runs (w : World) : Activation → List ValType → Prop
  | .code f, ts => f.Typed w ∧ ts = f.code.type.results
  | .host h, ts => h.Fits ∧ ts = h.type.results
  | .command c, ts => ∃ t, c.Serves w t ∧ ts = t.results

/-- The activation can go on with results of the kinds `us`, and gives results of the kinds `ts` in
the end. A host function takes results as they are. -/
def Awaits (w : World) : Activation → List ValType → List ValType → Prop
  | .code f, us, ts => f.Awaits w us ∧ ts = f.code.type.results
  | .host h, _, ts => h.Fits ∧ ts = h.type.results
  | .command c, us, ts => ∃ t, c.Serves w t ∧ ts = t.results ∧ (c.stage = .calling → us = t.results)

end Activation

/-- A stack that waits for results of the kinds `us`, and gives results of the kinds `final` in the
end. -/
inductive World.Waiting (w : World) (final : List ValType) : List Activation → List ValType → Prop
  | done : Waiting w final [] final
  | call {a : Activation} {rest : List Activation} {us ts : List ValType}
      (awaits : a.Awaits w us ts) (below : Waiting w final rest ts) :
      Waiting w final (a :: rest) us

/-- A stack that is unwound. Only a host function can stop that. -/
inductive World.Unwinds (w : World) (final : List ValType) : List Activation → Prop
  | done : Unwinds w final []
  | code {f : CodeFrame} {rest : List Activation} (below : Unwinds w final rest) :
      Unwinds w final (.code f :: rest)
  | host {h : HostFrame} {rest : List Activation} (fits : h.Fits)
      (below : Waiting w final rest h.type.results) : Unwinds w final (.host h :: rest)
  | command {c : CommandFrame} {rest : List Activation} (below : Unwinds w final rest) :
      Unwinds w final (.command c :: rest)

/-- What a machine does next fits its stack. -/
def Machine.Continues (final : List ValType) (m : Machine) : Prop :=
  match m.control with
  | .run => ∃ a rest ts, m.stack = a :: rest ∧ a.Runs m.world ts ∧ m.world.Waiting final rest ts
  | .back vals => m.world.Waiting final m.stack (vals.map Val.type)
  | .fault _ => m.world.Unwinds final m.stack

/-- A well typed machine, which gives results of the kinds `final` in the end. -/
structure Machine.Typed (final : List ValType) (m : Machine) : Prop where
  world : m.world.Typed
  continues : m.Continues final

variable {w w' : World} {final us ts : List ValType} {rest : List Activation}

/-! ## Later on -/

theorem CommandFrame.Serves.extends {c : CommandFrame} {t : FuncType} (h : c.Serves w t)
    (hw : w.Extends w') : c.Serves w' t := by
  obtain ⟨hargs, i, hi, linked, hexport⟩ := h
  obtain ⟨i', hi', hbecomes⟩ := hw.instances _ i hi
  refine ⟨hargs, i', hi', linked.extends hw hbecomes, ?_⟩
  rw [hbecomes]
  exact hexport

theorem Activation.Runs.extends {a : Activation} (h : a.Runs w ts) (hw : w.Extends w') :
    a.Runs w' ts := by
  cases a with
  | code f => exact ⟨h.1.extends hw, h.2⟩
  | host h' => exact h
  | command c =>
      obtain ⟨t, serves, hts⟩ := h
      exact ⟨t, serves.extends hw, hts⟩

theorem Activation.Awaits.extends {a : Activation} (h : a.Awaits w us ts) (hw : w.Extends w') :
    a.Awaits w' us ts := by
  cases a with
  | code f => exact ⟨h.1.extends hw, h.2⟩
  | host h' => exact h
  | command c =>
      obtain ⟨t, serves, hrest⟩ := h
      exact ⟨t, serves.extends hw, hrest⟩

namespace World

theorem Waiting.extends (h : w.Waiting final rest us) (hw : w.Extends w') :
    w'.Waiting final rest us := by
  induction h with
  | done => exact .done
  | call awaits _ ih => exact .call (awaits.extends hw) ih

theorem Unwinds.extends (h : w.Unwinds final rest) (hw : w.Extends w') :
    w'.Unwinds final rest := by
  induction h with
  | done => exact .done
  | code _ ih => exact .code ih
  | host fits below => exact .host fits (below.extends hw)
  | command _ ih => exact .command ih

/-- A stack that waits for results can be unwound instead. -/
theorem Waiting.unwinds (h : w.Waiting final rest us) : w.Unwinds final rest := by
  induction h with
  | done => exact .done
  | @call a rest us ts awaits below ih =>
      cases a with
      | code f => exact .code ih
      | host h =>
          obtain ⟨fits, rfl⟩ := awaits
          exact .host fits below
      | command c => exact .command ih

end World

namespace Machine

variable {m m' : Machine} {h : HostFrame}

theorem Typed.raise (hw : m.world.Typed) (hstack : m.world.Unwinds final m.stack) (c : Cause) :
    (m.raise c).Typed final := ⟨hw, hstack⟩

theorem Typed.giveBack (hw : m.world.Typed) {vals : List StoreVal}
    (hstack : m.world.Waiting final m.stack (vals.map Val.type)) :
    (m.giveBack vals).Typed final := ⟨hw, hstack⟩

/-! ## Calls -/

/-- A function of the system interface respects what the world has. -/
theorem respects_served (w : World) (g : Wasi.Func) (args : List StoreVal) (addr : Nat) :
    w.Respects (w.served g args addr).2 := by
  have hbecomes := Wasi.becomes_run g (args.map Val.toBits) (w.guest addr)
  have hwritten : w.Respects
      (w.mapMemory addr fun _ => (g.run (args.map Val.toBits) (w.guest addr)).2.memory) :=
    respects_mapMemory hbecomes
  exact hwritten.then_objects rfl

/-- The instance that is made for a command whose arguments are held. -/
theorem typed_held_instantiate (hw : w.Typed) (args : List StoreVal) {module : CompiledModule}
    {imports : List Item} (compiled : module.IsCompiled) (provided : w.ProvidesAll module imports) :
    ((w.holdAll args).instantiate module imports).2.Typed ∧
      w.Extends ((w.holdAll args).instantiate module imports).2 := by
  have hheld : w.Extends (w.holdAll args) := .of_objects (objects_holdAll args w)
  have htyped : (w.holdAll args).Typed := hw.of_objects (objects_holdAll args w)
  exact ⟨htyped.instantiate compiled (provided.extends hheld),
    hheld.trans (alters_instantiate module imports _).extends_⟩

/-- A call with arguments of the kinds that are declared, made on a stack that waits for the kinds
of the results. -/
theorem typed_enter (hw : m.world.Typed) {func : FuncAddr} {args : List StoreVal}
    {caller : Option InstanceAddr}
    (hstack : m.world.Waiting final m.stack (m.world.funcType func).results)
    (hargs : args.map Val.type = (m.world.funcType func).params) :
    (m.enter func args caller).Typed final := by
  have hknown {f : Func} (known : m.world.store.funcs[func]? = some f) :
      m.world.funcType func = f.type := by
    rw [funcType, known, Option.map_some, Option.getD_some]
  have houtcome := enter_outcome m func args caller
  generalize m.enter func args caller = m' at houtcome ⊢
  cases houtcome with
  | unknown unknown =>
      rw [funcType, unknown] at hstack
      exact .giveBack hw hstack
  | full => exact .raise hw hstack.unwinds _
  | code known =>
      rw [hknown known] at hstack hargs
      obtain ⟨rfl, i, hi, hcode⟩ := hw.funcs _ (Array.mem_of_getElem? known)
      have linked := hw.instances i (Array.mem_of_getElem? hi)
      exact ⟨hw, _, _, _, rfl, ⟨CodeFrame.typed_begin hi linked hcode hargs, rfl⟩, hstack⟩
  | host known =>
      rw [hknown known] at hstack hargs
      have hobjects : ((m.world.holdAll args).revealAll args).2.objects = m.world.objects :=
        (objects_revealAll args _).trans (objects_holdAll args _)
      refine ⟨hw.of_objects hobjects, _, _, _, rfl, ⟨⟨?_, ?_⟩, rfl⟩,
        hstack.extends (.of_objects hobjects)⟩
      · rw [revealAll_fst, List.map_map]
        exact (List.map_congr_left fun v _ => type_view v _).trans hargs
      · rw [List.length_map]
  | @command type module imports entry owner w known made =>
      rw [hknown known] at hstack hargs
      obtain ⟨compiled, provided, e, he, hname, htype⟩ := hw.funcs _ (Array.mem_of_getElem? known)
      obtain ⟨hmade, hext⟩ := typed_held_instantiate hw args compiled provided
      rw [made] at hmade hext
      obtain ⟨i, hi, rfl, -⟩ := exists_instantiated made
      have linked := hmade.instances i (Array.mem_of_getElem? hi)
      exact ⟨hmade, _, _, _, rfl, ⟨type, ⟨hargs, i, hi, linked, e, he, hname, htype⟩, rfl⟩,
        hstack.extends hext⟩
  | refused known refused =>
      obtain ⟨compiled, provided, -⟩ := hw.funcs _ (Array.mem_of_getElem? known)
      obtain ⟨hmade, hext⟩ := typed_held_instantiate hw args compiled provided
      rw [refused] at hmade hext
      refine .raise (hmade.of_objects (objects_unholdAll args _)) ?_ _
      exact (hstack.extends (hext.then_objects (objects_unholdAll args _))).unwinds
  | @wasi type g _ known outcome =>
      rw [hknown known] at hstack
      obtain rfl : type = g.type := hw.funcs _ (Array.mem_of_getElem? known)
      have hserved (addr : Nat) := respects_served m.world g args addr
      cases outcome with
      | unattended => exact .raise hw hstack.unwinds _
      | failed =>
          exact .raise ((hserved _).typed hw) (hstack.extends (hserved _).grown).unwinds _
      | @gave addr =>
          refine .giveBack ((hserved addr).typed hw) ?_
          have hwaits := hstack.extends (hserved addr).grown
          simpa [Function.comp_def] using hwaits
  | idle known =>
      rw [hknown known] at hstack
      obtain rfl := hw.funcs _ (Array.mem_of_getElem? known)
      exact .giveBack hw hstack

/-! ## Host functions -/

theorem fits_putResult (fits : h.Fits) (i : Nat) (v : HostVal) (w : World) :
    (h.putResult i v w).1.Fits ∧ (h.putResult i v w).1.type = h.type := by
  unfold HostFrame.putResult
  split
  · exact ⟨⟨fits.args, by rw [List.length_set, fits.results]⟩, rfl⟩
  · exact ⟨fits, rfl⟩

theorem fits_setResult (fits : h.Fits) (i : Nat) (v : HostVal) (w : World) :
    (h.setResult i v w).1.Fits ∧ (h.setResult i v w).1.type = h.type := fits_putResult fits i v _

theorem typed_onHost (hw : w.Typed) (fits : h.Fits) (below : w.Waiting final rest h.type.results)
    (m : Machine) : (m.onHost h rest w).Typed final :=
  ⟨hw, _, _, _, rfl, ⟨fits, rfl⟩, below⟩

theorem typed_onHost_result {r : HostFrame × World} (hr : r.1.Fits ∧ r.1.type = h.type)
    (hw : m.world.Typed) (below : m.world.Waiting final rest h.type.results)
    (hobjects : r.2.objects = m.world.objects) : (m.onHost r.1 rest r.2).Typed final :=
  typed_onHost (hw.of_objects hobjects) hr.1 (hr.2 ▸ below.extends (.of_objects hobjects)) m

theorem typed_failHost {a : Activation} (hw : m.world.Typed) (hstack : m.stack = a :: rest)
    (below : m.world.Waiting final rest ts) (t : Trap) : (m.failHost t h).Typed final := by
  have hobjects := objects_failHost m h t
  refine ⟨hw.of_objects hobjects, ?_⟩
  have hrest : (m.failHost t h).stack = rest := by
    simp only [failHost, leaveHost, popActivation, hstack]
    rfl
  have hcontrol : ∃ f, (m.failHost t h).control = .fault f := ⟨_, rfl⟩
  obtain ⟨f, hcontrol⟩ := hcontrol
  rw [Continues, hcontrol]
  dsimp only
  rw [hrest]
  exact (below.extends (.of_objects hobjects)).unwinds

theorem typed_finishHost (hw : m.world.Typed) (hstack : m.stack = .host h :: rest) (fits : h.Fits)
    (below : m.world.Waiting final rest h.type.results) : (m.finishHost h).Typed final := by
  have hobjects := objects_finishHost m h
  have hw := hw.of_objects hobjects
  have below := below.extends (.of_objects hobjects)
  rcases fits_or_firstMisfit fits.results with hfits | ⟨k, hmisfit⟩
  · obtain ⟨vals, w, heq, hlook, -⟩ := finishHost_of_fits hstack hfits
    have htypes : vals.map Val.type = h.type.results := by
      rw [← hfits, ← hlook, List.map_map]
      exact (List.map_congr_left fun v _ => type_view v w).symm
    rw [heq] at hw below ⊢
    refine ⟨hw, ?_⟩
    dsimp only [Continues]
    rw [htypes]
    exact below
  · obtain ⟨t, v, w, -, -, heq, -⟩ := finishHost_of_misfit hstack hmisfit
    rw [heq] at hw below ⊢
    exact ⟨hw, below.unwinds⟩

theorem typed_afterFailure {a : Activation} (hw : m.world.Typed) (hstack : m.stack = a :: rest)
    (fits : h.Fits) (below : m.world.Waiting final rest h.type.results) (f : Failure)
    (catches : Bool) : (m.afterFailure f catches h rest).Typed final := by
  unfold afterFailure
  split
  · refine typed_onHost ?_ fits ?_ m
    · exact hw.of_objects rfl
    · exact below.extends (.of_objects rfl)
  · exact typed_failHost hw hstack below _

theorem typed_hostCall {a : Activation} (hw : m.world.Typed) (hstack : m.stack = a :: rest)
    (fits : h.Fits) (below : m.world.Waiting final rest h.type.results) (func : FuncAddr)
    (args : List HostVal) (result : Option Nat) (catches : Bool) :
    (m.hostCall func args result catches h rest).Typed final := by
  unfold hostCall
  split
  · exact typed_afterFailure hw hstack fits below _ catches
  · rename_i hargs
    rw [checkArgs_eq_ok_iff] at hargs
    dsimp only
    have hobjects := objects_taken args m.world
    refine typed_enter (hw.of_objects hobjects)
      (.call ⟨⟨fits.args, fits.results⟩, (rfl : h.type.results = h.type.results)⟩ ?_) ?_
    · exact below.extends (.of_objects hobjects)
    · rw [types_acceptAll, hargs, funcType_of_objects hobjects]

/-- A host function that gets the results of its call has the same type and may have another result.
-/
theorem exists_hostResume (fits : h.Fits) (vals : List StoreVal) (p : PendingCall)
    (rest : List Activation) (m : Machine) :
    ∃ h' w, m.hostResume vals p h rest = m.onHost h' rest w ∧ h'.Fits ∧ h'.type = h.type := by
  have fits : HostFrame.Fits { h with pending := none } := ⟨fits.args, fits.results⟩
  refine ⟨_, _, rfl, ?_⟩
  split
  · exact fits_setResult fits _ _ _
  · exact ⟨fits, rfl⟩

theorem typed_hostResume (hw : m.world.Typed) (fits : h.Fits)
    (below : m.world.Waiting final rest h.type.results) (vals : List StoreVal) (p : PendingCall) :
    (m.hostResume vals p h rest).Typed final := by
  have hobjects := objects_hostResume m h rest vals p
  obtain ⟨h', w, heq, hfits⟩ := exists_hostResume fits vals p rest m
  rw [heq] at hobjects ⊢
  exact typed_onHost_result (r := (h', w)) hfits hw below hobjects

theorem typed_hostFault {f : Fault} (hw : m.world.Typed) (hstack : m.stack = .host h :: rest)
    (hcontrol : m.control = .fault f) (fits : h.Fits)
    (below : m.world.Waiting final rest h.type.results) : (m.hostFault f h rest).Typed final := by
  unfold hostFault
  split
  · rename_i p _
    have hobjects := objects_unholdAll p.held m.world
    exact typed_afterFailure (m := { m with world := m.world.unholdAll p.held })
      (h := { h with pending := none }) (hw.of_objects hobjects) hstack
      ⟨fits.args, fits.results⟩ (below.extends (.of_objects hobjects)) _ _
  · have hobjects := objects_leaveHost m h
    refine ⟨hw.of_objects hobjects, ?_⟩
    have hrest : (m.leaveHost h).stack = rest ∧ (m.leaveHost h).control = .fault f := by
      simp only [leaveHost, popActivation, hstack, hcontrol, and_self]
    rw [Continues, hrest.2, hrest.1]
    exact (below.extends (.of_objects hobjects)).unwinds

theorem typed_hostOp {h₀ : HostFrame} (hw : m.world.Typed) (hstack : m.stack = .host h₀ :: rest)
    (fits : h.Fits) (below : m.world.Waiting final rest h.type.results) (op : HostOp) :
    (m.hostOp op h rest).Typed final := by
  have houtcome := hostOp_outcome m h rest op
  generalize m.hostOp op h rest = m' at houtcome ⊢
  have hgo {w : World} (hrespects : m.world.Respects w) : (m.onHost h rest w).Typed final :=
    typed_onHost (hrespects.typed hw) fits (below.extends hrespects.grown) m
  cases houtcome with
  | set i v =>
      exact typed_onHost_result (fits_setResult fits i v _) hw below (objects_setResult h i v _)
  | copy i k =>
      exact typed_onHost_result (fits_setResult fits i _ _) hw below (objects_setResult h i _ _)
  | added i =>
      exact typed_onHost_result (fits_putResult fits i _ _) hw below (objects_putResult h i _ _)
  | peeked =>
      exact typed_onHost_result (fits_putResult fits _ _ _) hw below (objects_putResult h _ _ _)
  | trapped | refused | unfueled => exact typed_failHost hw hstack below _
  | logged | interrupted => exact hgo (.of_objects rfl)
  | poked _ _ written => exact hgo (respects_writeMemory written)
  | grown _ grown => exact hgo ((respects_growMemory grown).then_objects rfl)
  | globalSet _ set => exact hgo (respects_setGlobal set)
  | called => exact typed_hostCall hw hstack fits below _ _ _ _
  | fueled added => exact hgo (.of_objects (objects_addFuel added))
  | collected => exact hgo (.of_objects (objects_collect _ _))
  | branched k zero nonzero =>
      exact typed_onHost
        (h := { h with todo := (if h.arg k = .i32 0 then zero else nonzero) ++ h.todo }) hw
        ⟨fits.args, fits.results⟩ below m

/-! ## Commands -/

/-- The start function of an instance is called without arguments and gives nothing. -/
theorem funcType_start (hw : w.Typed) {addr : InstanceAddr} {func : FuncAddr}
    (hs : w.startFunc? addr = some func) : w.funcType func = ⟨[], []⟩ := by
  obtain ⟨i, hi, -⟩ := Option.bind_eq_some_iff.mp hs
  obtain ⟨f, hf, htype⟩ := (hw.instances i (Array.mem_of_getElem? hi)).type_start hi hs
  rw [funcType, hf, Option.map_some, Option.getD_some, htype]

theorem typed_commandStep {c : CommandFrame} {t : FuncType} (hw : m.world.Typed)
    (serves : c.Serves m.world t) (below : m.world.Waiting final rest t.results) :
    (m.commandStep c rest).Typed final := by
  -- what a start function gives is of no use to the command
  have hstack (us : List ValType) : m.world.Waiting final
      (.command { c with stage := .starting } :: rest) us :=
    .call ⟨t, serves, rfl, fun h => absurd h (by simp)⟩ below
  unfold commandStep
  dsimp only
  split
  · rename_i func hs
    refine typed_enter ?_ ?_ ?_
    · exact hw
    · exact hstack _
    · exact congrArg FuncType.params (funcType_start hw hs).symm
  · exact ⟨hw, hstack _⟩

theorem typed_commandResume {c : CommandFrame} {t : FuncType} {vals : List StoreVal}
    {a : Activation} (hw : m.world.Typed) (hstack : m.stack = a :: rest)
    (serves : c.Serves m.world t) (hvals : c.stage = .calling → vals.map Val.type = t.results)
    (below : m.world.Waiting final rest t.results) :
    (m.commandResume vals c rest).Typed final := by
  unfold commandResume
  split
  · rename_i hcalling
    have hobjects : ((m.world.exposeAll vals).unholdAll c.held).objects = m.world.objects :=
      (objects_unholdAll _ _).trans (objects_exposeAll _ _)
    refine .giveBack ?_ ?_ <;> rw [popActivation_world]
    · exact hw.of_objects hobjects
    · have hrest : ({ m with world := (m.world.exposeAll vals).unholdAll c.held } :
          Machine).popActivation.stack = rest := by
        simp only [popActivation, hstack]
      rw [hrest, hvals hcalling]
      exact below.extends (.of_objects hobjects)
  · obtain ⟨hargs, i, hi, linked, e, he, hname, htype⟩ := serves
    obtain ⟨func, hfunc⟩ := linked.exists_exported hi he htype
    obtain ⟨f, hf, rfl⟩ := linked.type_exported hi he htype hfunc
    rw [hname] at hfunc
    have hobjects := objects_exposeAll c.held m.world
    have htype' : (m.world.exposeAll c.held).funcType func = f.type := by
      rw [funcType_of_objects hobjects, funcType, hf, Option.map_some, Option.getD_some]
    simp only [hfunc]
    refine typed_enter (hw.of_objects hobjects) ?_
      (hargs.trans (congrArg FuncType.params htype'.symm))
    have serves : CommandFrame.Serves m.world { c with stage := .calling } f.type :=
      ⟨hargs, i, hi, linked, e, he, hname, htype⟩
    refine .call ⟨f.type, serves.extends (.of_objects hobjects), rfl, fun _ => ?_⟩
      (below.extends (.of_objects hobjects))
    exact congrArg FuncType.results htype'

/-! ## Steps and runs -/

/-- What is at work can go on, and what is below waits for its results. -/
theorem Typed.runs {a : Activation} (h : m.Typed final) (stack : m.stack = a :: rest)
    (control : m.control = .run) : ∃ ts, a.Runs m.world ts ∧ m.world.Waiting final rest ts := by
  have hcontinues := h.continues
  rw [Continues, control] at hcontinues
  obtain ⟨_, _, ts, hstack, hruns, below⟩ := hcontinues
  cases stack.symm.trans hstack
  exact ⟨ts, hruns, below⟩

/-- What gets results waits for them, and what is below waits for its own. -/
theorem Typed.awaits {a : Activation} {vals : List StoreVal} (h : m.Typed final)
    (stack : m.stack = a :: rest) (control : m.control = .back vals) :
    ∃ ts, a.Awaits m.world (vals.map Val.type) ts ∧ m.world.Waiting final rest ts := by
  have hcontinues := h.continues
  rw [Continues, control] at hcontinues
  dsimp only at hcontinues
  rw [stack] at hcontinues
  cases hcontinues with
  | call awaits below => exact ⟨_, awaits, below⟩

theorem Typed.unwinds {e : Fault} (h : m.Typed final) (control : m.control = .fault e) :
    m.world.Unwinds final m.stack := by
  have hcontinues := h.continues
  rwa [Continues, control] at hcontinues

/-- What code does next is well typed. -/
theorem Typed.frame {f : CodeFrame} (h : m.Typed final) (stack : m.stack = .code f :: rest)
    (control : m.control = .run) : f.Typed m.world := by
  obtain ⟨_, hruns, -⟩ := h.runs stack control
  exact hruns.1

/-- A step keeps a machine well typed. -/
theorem Typed.step (h : m.Typed final) (hs : m.Steps m') : m'.Typed final := by
  have hw := h.world
  cases step_sound hs with
  | next out =>
      obtain ⟨_, ⟨htyped, rfl⟩, below⟩ := h.runs rfl rfl
      have hstep := htyped.step hw.toValued
      rw [out] at hstep
      obtain ⟨hrespects, hcode, hnext⟩ := hstep
      exact ⟨hrespects.typed hw, _, _, _, rfl, ⟨hnext, by rw [hcode]⟩,
        below.extends hrespects.grown⟩
  | trap out =>
      obtain ⟨_, ⟨htyped, rfl⟩, below⟩ := h.runs rfl rfl
      have hstep := htyped.step hw.toValued
      rw [out] at hstep
      exact .raise (hstep.1.typed hw) (.code (below.extends hstep.1.grown).unwinds) _
  | @call _ w' _ _ _ _ func _ out =>
      obtain ⟨_, ⟨htyped, rfl⟩, below⟩ := h.runs rfl rfl
      have hstep := htyped.step hw.toValued
      rw [out] at hstep
      obtain ⟨hrespects, hcode, g, hg, hargs, hawaits⟩ := hstep
      have htype : w'.funcType func = g.type := by
        rw [funcType, hg, Option.map_some, Option.getD_some]
      refine typed_enter (hrespects.typed hw) ?_ (by rw [htype]; exact hargs)
      rw [htype]
      exact .call ⟨hawaits, by rw [hcode]⟩ (below.extends hrespects.grown)
  | exit out =>
      obtain ⟨_, ⟨htyped, rfl⟩, below⟩ := h.runs rfl rfl
      have hstep := htyped.step hw.toValued
      rw [out] at hstep
      obtain ⟨hrespects, hresults⟩ := hstep
      refine ⟨hrespects.typed hw, ?_⟩
      dsimp only [Continues]
      rw [hresults]
      exact below.extends hrespects.grown
  | @resume _ f _ _ vals =>
      obtain ⟨_, ⟨hawaits, rfl⟩, below⟩ := h.awaits rfl rfl
      refine ⟨hw, _, _, _, rfl, ⟨hawaits.resume rfl, ?_⟩, below⟩
      exact congrArg (·.type.results) (CodeFrame.code_pushAll vals f).symm
  | unwind =>
      obtain - | below := h.unwinds rfl
      exact ⟨hw, below⟩
  | @hostRun _ f =>
      obtain ⟨_, ⟨fits, rfl⟩, below⟩ := h.runs rfl rfl
      unfold hostStep
      split
      · exact typed_finishHost hw rfl fits below
      · rename_i op todo _
        exact typed_hostOp (h := { f with todo }) hw rfl ⟨fits.args, fits.results⟩ below op
  | @hostBack _ _ _ _ vals =>
      obtain ⟨_, ⟨fits, rfl⟩, below⟩ := h.awaits rfl rfl
      exact typed_hostResume hw fits below vals _
  | hostLeft =>
      obtain ⟨_, ⟨fits, rfl⟩, below⟩ := h.awaits rfl rfl
      exact ⟨hw, _, _, _, rfl, ⟨fits, rfl⟩, below⟩
  | hostFault =>
      obtain - | - | ⟨fits, below⟩ := h.unwinds rfl
      exact typed_hostFault hw rfl rfl fits below
  | commandRun =>
      obtain ⟨_, ⟨t, serves, rfl⟩, below⟩ := h.runs rfl rfl
      exact typed_commandStep hw serves below
  | commandBack =>
      obtain ⟨_, ⟨t, serves, rfl, hvals⟩, below⟩ := h.awaits rfl rfl
      exact typed_commandResume hw rfl serves hvals below
  | @commandFault w c =>
      obtain - | - | - | below := h.unwinds rfl
      have hobjects := objects_unholdAll c.held w
      exact ⟨hw.of_objects hobjects, below.extends (.of_objects hobjects)⟩

end Machine

end WasmHost

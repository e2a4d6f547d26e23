import WasmHost.Linker
import WasmHost.Proofs.Machine.Runs

/-!
# Unwinding

A fault takes the activations off the stack one by one. Code and commands let it pass as it is; a
host function that does not catch failures raises the trap anew, with the frames that are left. What
a trap says apart from its trace stays the same all the way to the embedder.
-/

namespace WasmHost

/-- A trap without its trace. -/
def Trap.bare (t : Trap) : Trap := { t with trace := [] }

/-- The fault is a trap, and says what `t` says. -/
def Fault.Carries (f : Fault) (t : Trap) : Prop := f.trap?.map Trap.bare = some t.bare

/-- Whether an activation lets every fault of what it called go on. A host function does unless the
call that it has under way catches failures. -/
def Activation.rethrows : Activation → Bool
  | .host h => h.pending.all fun p => !p.catches
  | .code _ | .command _ => true

/-! ## Faults -/

theorem Trap.fields_of_bare {t t' : Trap} (h : t'.bare = t.bare) :
    t'.message = t.message ∧ t'.exit = t.exit ∧ t'.code = t.code := by
  simpa [Trap.bare] using h

theorem Fault.carries_of_trap? {f : Fault} {t : Trap} (h : f.trap? = some t) : f.Carries t := by
  simp [Fault.Carries, h]

theorem Fault.Carries.trap? {f : Fault} {t : Trap} (h : f.Carries t) :
    ∃ t', f.trap? = some t' ∧ t'.bare = t.bare := Option.map_eq_some_iff.mp h

/-- A host function that raises the trap it heard of adds nothing to it. -/
theorem Fault.Carries.rethrown {f : Fault} {t : Trap} (h : f.Carries t)
    (otherwise : String → Error) (trace : List FrameInfo) :
    Fault.Carries { cause := .host (f.failure otherwise).toTrap, trace } t := by
  obtain ⟨t', ht', hb⟩ := h.trap?
  have hf : (f.failure otherwise).toTrap = t' := by simp [Fault.failure, ht', Failure.toTrap]
  rw [hf, Fault.Carries, ← hb]
  rfl

/-! ## Steps of a machine that unwinds -/

namespace Machine

/-- The machine is unwound by a trap that says what `t` says, and nothing on its stack stops it. -/
structure Unwinding (t : Trap) (m : Machine) : Prop where
  fault : ∃ f, m.control = .fault f ∧ f.Carries t
  rethrows : m.stack.all Activation.rethrows

variable {t : Trap} {m : Machine}

/-- Each step takes one activation off the stack. -/
theorem Unwinding.step {a : Activation} {rest : List Activation} (h : m.Unwinding t)
    (hs : m.stack = a :: rest) : ∃ m', m.Steps m' ∧ m'.stack = rest ∧ m'.Unwinding t := by
  obtain ⟨⟨f, hc, hf⟩, hr⟩ := h
  obtain ⟨w, stack, control, used⟩ := m
  cases hs
  cases hc
  obtain ⟨ha, hrest⟩ : a.rethrows ∧ rest.all Activation.rethrows := by simpa using hr
  cases a with
  | code c => exact ⟨_, rfl, rfl, ⟨f, rfl, hf⟩, hrest⟩
  | command c => exact ⟨_, rfl, rfl, ⟨f, rfl, hf⟩, hrest⟩
  | host hst =>
      cases hp : hst.pending with
      | none =>
          refine ⟨_, rfl, ?_⟩
          simp only [hostFault, hp]
          exact ⟨rfl, ⟨f, rfl, hf⟩, hrest⟩
      | some p =>
          have hcatch : p.catches = false := by simpa [Activation.rethrows, hp] using ha
          refine ⟨_, rfl, ?_⟩
          simp only [hostFault, hp, afterFailure, hcatch, Bool.false_eq_true, if_false]
          exact ⟨rfl, ⟨_, rfl, hf.rethrown _ _⟩, hrest⟩

/-- A machine that is unwound ends with the trap. -/
theorem Unwinding.ends (h : m.Unwinding t) : ∃ f w, m.Ends (.error f, w) ∧ f.Carries t := by
  generalize hs : m.stack = stack
  induction stack generalizing m with
  | nil =>
      obtain ⟨⟨f, hc, hf⟩, -⟩ := h
      obtain ⟨w, stack, control, used⟩ := m
      cases hs
      cases hc
      exact ⟨f, w, ⟨1, rfl⟩, hf⟩
  | cons a rest ih =>
      obtain ⟨m', hstep, hs', h'⟩ := h.step hs
      obtain ⟨f, w, hends, hf⟩ := ih h' hs'
      exact ⟨f, w, hends.of_steps hstep, hf⟩

end Machine

/-! ## What the embedder is told -/

/-- The operations of an embedder that can run code. -/
inductive Operation where
  | call (func : FuncAddr) (args : List HostVal)
  | instantiateWith (module : CompiledModule) (items : List Item)
  | instantiate (linker : Linker) (module : CompiledModule)

namespace Operation

/-- Carries the operation out. What it gives when it succeeds is left out. -/
def perform (limit : Nat) (w : World) : Operation → Option (Except Failure Unit × World)
  | call func args => (w.callFunc limit func args).map fun (r, w) => (r.map fun _ => (), w)
  | instantiateWith m items =>
    (w.instantiateWith limit m items).map fun (r, w) => (r.map fun _ => (), w)
  | instantiate l m => (l.instantiate limit m w).map fun (r, w) => (r.map fun _ => (), w)

/-- The machine that an operation sets going, once all its checks are passed: the call of a function
or of the start function of a new instance. -/
inductive Starts (w : World) : Operation → Machine → Prop
  | call {func args vals w₁} (fits : checkArgs (w.funcType func) args = .ok ())
      (taken : w.acceptAll args = (vals, w₁)) :
      Starts w (.call func args) ((Machine.idle (w₁.exposeAll vals)).enter func vals none)
  | instantiateWith {m items addr w₁ func}
      (kinds : World.positionalError? m.signature.imports items = none)
      (fits : w.fit m.signature.imports items = .ok ())
      (made : w.instantiate m items = (.ok addr, w₁)) (start : w₁.startFunc? addr = some func) :
      Starts w (.instantiateWith m items) ((Machine.idle w₁).enter func [] (some addr))
  | instantiate {l m ds items w₀ addr w₁ func} (fits : l.resolve m (·.currentType w) = .ok ds)
      (taken : Definition.toItems ds w = (items, w₀))
      (made : w₀.instantiate m items = (.ok addr, w₁)) (start : w₁.startFunc? addr = some func) :
      Starts w (.instantiate l m) ((Machine.idle w₁).enter func [] (some addr))

variable {w : World} {o : Operation} {m : Machine}

/-- An operation has no answer before its machine has ended. -/
theorem Starts.perform_none {limit : Nat} (h : o.Starts w m) (hr : m.run limit = none) :
    o.perform limit w = none := by
  cases h with
  | call fits taken => simp [perform, World.callFunc, World.callOr, fits, taken, hr]
  | instantiateWith kinds fits made start =>
      simp [perform, World.instantiateWith, World.newInstance, kinds, fits, made, start, hr]
  | instantiate fits taken made start =>
      simp [perform, Linker.instantiate, World.newInstance, fits, taken, made, start, hr]

end Operation

/-- A store in which the function 0 traps, the function 1 calls it through an export of its caller,
and the function 2 is code that calls the function 1. -/
def relay : World :=
  let code : FuncCode :=
    { index := 1, type := ⟨[], []⟩, locals := [], ops := #[.call 0, .done], partners := #[0, 0],
      layout := ⟨0, 0, #[]⟩ }
  { store :=
      { engine := .default 0, signal := 0
        funcs := #[⟨⟨[], []⟩, .host [.trap "deep"]⟩,
          ⟨⟨[], []⟩, .host [.call "inner" [] none false]⟩, ⟨⟨[], []⟩, .code 0 code⟩]
        instances := #[{
          module := .make {} [] {} [], funcs := #[1, 2], globals := #[], tables := #[],
          memories := #[], exports := [("inner", .func 0)], droppedElems := #[],
          droppedDatas := #[] }] }
    shared := { files := ⟨[], #[]⟩ } }

end WasmHost

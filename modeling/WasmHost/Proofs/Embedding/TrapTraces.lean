import WasmHost.Proofs.Embedding.Usage
import WasmHost.Proofs.Machine.MoreFuel
import WasmHost.Proofs.Machine.Traces
import WasmHost.Proofs.Machine.Unwinding
import WasmHost.Proofs.Wasm.Places

/-!
# Traces are exact

The trace of a trap has one frame for each activation of code that is at work when the trap is
raised, innermost first. A frame tells the index of the function in its module, its names, where its
body stands in the binary of the module, and where the instruction stands that the activation is at:
the one that trapped, or a call.
-/

namespace WasmHost

open World Wasm

/-! ## Places in the binary of a module -/

/-- The names that stand in the binary of a module. -/
def CompiledModule.HasNames (m : CompiledModule) (names : Names) : Prop :=
  ∃ ss, Sections m.binary 8 ss ∧ names = ss.foldl (Section.addNames m.binary) {}

/-- The code of a function of a module is what stands in its binary as the body with a number. -/
structure CompiledModule.HasBody (m : CompiledModule) (k : Nat) (code : FuncCode) (body : Span)
    (ops : List (Nat × Op)) : Prop where
  known : ∃ bodies, BodiesOf m.binary bodies ∧ bodies[k]? = some body
  holds : ∃ groups, body.Holds m.binary groups ops
  ops : code.ops.toList = ops.map (·.2)

theorem CompiledModule.IsCompiled.decoded {m : CompiledModule} (h : m.IsCompiled) :
    ∃ layouts, Module.decode m.binary = some (m.module, layouts) ∧
      ∀ (k : Nat) (code : FuncCode), m.codes[k]? = some code → ∃ type body layout,
        m.module.codes[k]? = some body ∧ layouts[k]? = some layout ∧
          code = .make (m.module.importedFuncs + k) type body layout := by
  obtain ⟨o, bytes, hm⟩ := h
  obtain ⟨layouts, hdecode, rfl⟩ :
      ∃ layouts, Module.decode m.binary = some (m.module, layouts) ∧ m.binary = bytes := by
    obtain ⟨module, layouts, hdecode, -, -, rfl⟩ := ofBinary_eq_ok.mp hm
    exact ⟨layouts, hdecode, rfl⟩
  refine ⟨layouts, hdecode, fun k code hk => ?_⟩
  obtain ⟨type, body, layout, hbody, ⟨layouts', hdecode', hlayout⟩, hcode, -⟩ :=
    made_of_ofBinary hm hk
  cases hdecode.symm.trans hdecode'
  exact ⟨type, body, layout, hbody, hlayout, hcode⟩

theorem CompiledModule.IsCompiled.hasNames {m : CompiledModule} (h : m.IsCompiled) :
    m.HasNames m.module.names := by
  obtain ⟨layouts, hdecode, -⟩ := h.decoded
  obtain ⟨ss, hsections, hnames, -⟩ := Module.places_of_decode hdecode
  exact ⟨ss, hsections, hnames⟩

/-- Every function of a compiled module has its body in the binary, and its layout is so. -/
theorem CompiledModule.IsCompiled.hasBody {m : CompiledModule} (h : m.IsCompiled) {k : Nat}
    {code : FuncCode} (hk : m.codes[k]? = some code) :
    ∃ body ops, m.HasBody k code body ops ∧ code.index = m.module.importedFuncs + k ∧
      code.layout.start = body.start ∧ body.start ≤ code.layout.lastLocals ∧
      code.layout.places.toList = ops.map (·.1) ∧ ∀ o ∈ ops, body.start ≤ o.1 := by
  obtain ⟨layouts, hdecode, hmade⟩ := h.decoded
  obtain ⟨type, code', layout, hcode, hlayout, rfl⟩ := hmade k code hk
  obtain ⟨ss, -, -, ⟨-, rfl⟩ | ⟨bodies, entries, hbodies, hall, hcodes, rfl⟩⟩ :=
    Module.places_of_decode hdecode
  · cases hlayout
  · rw [hcodes, List.getElem?_map, Option.map_eq_some_iff] at hcode
    obtain ⟨entry, hentry, rfl⟩ := hcode
    rw [List.getElem?_map, hentry] at hlayout
    cases hlayout
    obtain ⟨hlt, rfl⟩ := List.getElem?_eq_some_iff.mp hentry
    have hlt' : k < bodies.length := hall.length_eq ▸ hlt
    obtain ⟨groups, ops, hholds, hbody, hlayout⟩ := List.Forall₂.get hall hlt' hlt
    have hbody : entries[k].1 = ⟨groups.map (·.2), ops.map (·.2)⟩ := hbody
    obtain ⟨hgroups, hops⟩ := hholds.le
    refine ⟨bodies[k], ops, ⟨⟨bodies, hbodies, List.getElem?_eq_getElem hlt'⟩, ⟨groups, hholds⟩, ?_⟩,
      rfl, congrArg Layout.start hlayout, ?_, ?_, hops⟩
    · simp only [FuncCode.make, hbody]
    · refine (congrArg Layout.lastLocals hlayout).symm ▸ ?_
      cases hlast : groups.getLast? with
      | none => exact Nat.le_refl _
      | some g => exact hgroups g (List.mem_of_getLast? hlast)
    · exact congrArg (fun l => l.places.toList) hlayout

/-! ## Frames -/

/-- What a frame of a trace says of a frame of code is so. -/
def FrameInfo.Exact (info : FrameInfo) (w : World) (f : CodeFrame) : Prop :=
  ∃ (i : Instance) (k : Nat) (names : Names) (body : Span) (ops : List (Nat × Op)),
    w.store.instances[f.owner]? = some i ∧ i.module.codes[k]? = some f.code ∧
    info.funcIndex = i.module.module.importedFuncs + k ∧
    i.module.HasNames names ∧ info.moduleName = names.module ∧
    info.funcName = ((names.funcs.filter (·.1 == info.funcIndex)).getLast?).map (·.2) ∧
    i.module.HasBody k f.code body ops ∧ info.moduleOffset = body.start + info.funcOffset ∧
    (f.entered → ∃ op, f.code.ops[f.pc]? = some op ∧ ops[f.pc]? = some (info.moduleOffset, op))

/-- The name of a function is the last that is given to its index. -/
theorem CompiledModule.funcName_eq (m : CompiledModule) (index : Nat) : m.funcName index =
    ((m.module.names.funcs.filter (·.1 == index)).getLast?).map (·.2) := by
  rw [funcName, ← List.head?_filter, List.filter_reverse, List.head?_reverse]

theorem CodeFrame.exact_frameInfo {w : World} {f : CodeFrame} (hw : w.Typed) (native : f.Native w)
    (entered : f.entered → ∃ op, f.code.ops[f.pc]? = some op) : (w.frameInfo f).Exact w f := by
  obtain ⟨i, hi, hmem⟩ := native
  have compiled := (hw.instances i (Array.mem_of_getElem? hi)).compiled
  obtain ⟨k, hk⟩ := Array.getElem?_of_mem hmem
  obtain ⟨body, ops, hbody, hindex, hstart, hlocals, hplaces, hops⟩ := compiled.hasBody hk
  have hat (hentered : f.entered) {op : Op} (hop : f.code.ops[f.pc]? = some op) :
      ∃ place, ops[f.pc]? = some (place, op) ∧ f.place = place := by
    have hop' : f.code.ops.toList[f.pc]? = some op := by rwa [Array.getElem?_toList]
    rw [hbody.ops, List.getElem?_map, Option.map_eq_some_iff] at hop'
    obtain ⟨⟨place, op'⟩, hget, rfl⟩ := hop'
    refine ⟨place, hget, ?_⟩
    have hplace : f.code.layout.places[f.pc]? = some place := by
      rw [← Array.getElem?_toList, hplaces, List.getElem?_map, hget]
      rfl
    rw [CodeFrame.place, if_pos hentered, Array.getD_eq_getD_getElem?, hplace, Option.getD_some]
  have hle : body.start ≤ f.place := by
    by_cases hentered : f.entered
    · obtain ⟨op, hop⟩ := entered hentered
      obtain ⟨place, hget, hplace⟩ := hat hentered hop
      rw [hplace]
      exact hops _ (List.mem_of_getElem? hget)
    · rw [CodeFrame.place, if_neg hentered]
      exact hlocals
  refine ⟨i, k, i.module.module.names, body, ops, hi, hk, hindex, compiled.hasNames, ?_, ?_, hbody,
    ?_, fun hentered => ?_⟩
  · simp only [frameInfo, hi, Option.map_some, Option.bind_some]
    rfl
  · simp only [frameInfo, hi, Option.map_some, Option.bind_some]
    exact i.module.funcName_eq _
  · simp only [frameInfo, hstart]
    omega
  · obtain ⟨op, hop⟩ := entered hentered
    obtain ⟨place, hget, hplace⟩ := hat hentered hop
    exact ⟨op, hop, hget.trans (by rw [frameInfo, hplace])⟩

theorem Fault.trace_of_trap? {e : Fault} {t : Trap} (h : e.trap? = some t) : t.trace = e.trace := by
  obtain ⟨cause, trace⟩ := e
  cases cause with
  | other text =>
      unfold Fault.trap? at h
      dsimp only at h
      split at h <;> cases h
      rfl
  | exit | code | host =>
      cases h
      rfl

/-! ## Operations -/

namespace Operation

/-- What an embedder passes to an operation are things of the store that it uses. -/
def Genuine (u : Usage) : Operation → Prop
  | .call .. => True
  | .instantiateWith m items => m.IsCompiled ∧ ∀ i ∈ items, u.world.IsGenuine i
  | .instantiate l m => l ∈ u.linkers ∧ m.IsCompiled

variable {u : Usage} {o : Operation} {m : Machine}

/-- What an operation sets going is well typed. -/
theorem Starts.typed (hu : u.Typed) (genuine : o.Genuine u) (h : o.Starts u.world m) :
    ∃ final w func args caller, m = (Machine.idle w).enter func args caller ∧ m.Typed final := by
  have begun {w : World} {addr : InstanceAddr} {func : FuncAddr} (hw : w.Typed)
      (start : w.startFunc? addr = some func) : ∃ final w' func' args' caller',
        (Machine.idle w).enter func [] (some addr) = (Machine.idle w').enter func' args' caller' ∧
        ((Machine.idle w).enter func [] (some addr)).Typed final := by
    have hv : ({ world := w } : Usage).Typed :=
      ⟨hw, fun _ ht => (by cases ht), fun _ hl => (by cases hl)⟩
    exact ⟨_, _, _, _, _, rfl, hv.start start⟩
  cases h with
  | @call func args vals w₁ fits taken =>
      have htyped := (hu.call fits).1
      rw [World.begin, taken] at htyped
      exact ⟨_, _, _, _, _, rfl, htyped⟩
  | @instantiateWith module items addr w₁ func kinds fits made start =>
      have provided := providesAll_of_checks genuine.2 kinds fits
      have hw : w₁.Typed := by
        have hw := hu.world.instantiate genuine.1 provided
        rwa [made] at hw
      exact begun hw start
  | @instantiate l module ds items w₀ addr w₁ func fits taken made start =>
      have hl := hu.linkers l genuine.1
      have provided := Linker.providesAll_of_currentTypes hu.world hl fits
      have htaken := (Definition.typed_toItems hu.world (Linker.genuine_of_resolve hl fits)).1
      rw [taken] at provided htaken
      have hw : w₁.Typed := by
        have hw := htaken.instantiate genuine.2 provided
        rwa [made] at hw
      exact begun hw start

/-- An operation fails with a trap if its machine ends with it. -/
theorem Starts.run_of_trap {limit : Nat} {t : Trap} {w' : World} (h : o.Starts u.world m)
    (trapped : o.perform limit u.world = some (.error (.trap t), w')) :
    ∃ f w₁, m.Ends (.error f, w₁) ∧ f.trap? = some t := by
  have hfailure {f : Fault} {otherwise : String → Error} (hf : f.failure otherwise = .trap t) :
      f.trap? = some t := by
    unfold Fault.failure at hf
    split at hf
    · rename_i ht
      cases hf
      exact ht
    · cases hf
  cases hr : m.run limit with
  | none =>
      rw [h.perform_none hr] at trapped
      cases trapped
  | some r =>
      obtain ⟨r, w₁⟩ := r
      have hends : m.Ends (r, w₁) := ⟨limit, hr⟩
      cases h with
      | call fits taken =>
          cases r <;> simp [perform, World.callFunc, World.callOr, fits, taken, hr, Except.map]
            at trapped
          exact ⟨_, w₁, hends, hfailure trapped.1⟩
      | instantiateWith kinds fits made start =>
          cases r <;> simp [perform, World.instantiateWith, World.newInstance, kinds, fits, made,
            start, hr, Except.map] at trapped
          exact ⟨_, w₁, hends, hfailure trapped.1⟩
      | instantiate fits taken made start =>
          cases r <;> simp [perform, Linker.instantiate, World.newInstance, fits, taken, made, start,
            hr, Except.map] at trapped
          exact ⟨_, w₁, hends, hfailure trapped.1⟩

end Operation

namespace Usage

/-- Traces are exact. When an operation in which no host function calls anything fails with a trap,
no code had been at work, or the trap was raised at some step. Then its trace has one frame for each
activation of code that was at work, innermost first. What a frame says is so: the index of the
function in its module, its names in the binary of the module, the place of its body in the binary,
and the place of the instruction that the activation was at. That is a call for every frame, but for
the innermost one where a step of its own raised the trap: an instruction, or a check at the
beginning of its function. -/
theorem traces_are_exact {u : Usage} {o : Operation} {m₀ : Machine} {limit : Nat} {t : Trap}
    {w' : World} (hu : u.Reachable) (genuine : o.Genuine u) (starts : o.Starts u.world m₀)
    (direct : ∀ m, m₀.Reaches m → m.IsDirect)
    (trapped : o.perform limit u.world = some (.error (.trap t), w')) :
    (t.trace = [] ∧ m₀.frames = [] ∧ ∃ e, m₀.control = .fault e ∧ e.trap? = some t) ∨
      ∃ m₁ m e, m₀.Reaches m₁ ∧ m₁.Raises m e ∧ e.trap? = some t ∧
        t.trace = m.frames.map m.world.frameInfo ∧
        (∀ f ∈ m.frames, (m.world.frameInfo f).Exact m.world f) ∧
        ((∀ f ∈ m.frames, f.AtCall) ∨ ∃ g f, m₁.Trapped m g f ∧ m.frames.head? = some f ∧
          ∀ f ∈ m.frames.tail, f.AtCall) := by
  obtain ⟨final, w, func, args, caller, rfl, typed⟩ := starts.typed hu.typed genuine
  obtain ⟨e, w₁, ends, htrap⟩ := starts.run_of_trap trapped
  have native := Machine.native_enter typed.world
  rcases Machine.exists_raised ends direct with hfault | ⟨m₁, m, hr, raised⟩
  · have hnone : ((Machine.idle w).enter func args caller).frames = [] := by
      have hentered : Machine.Entered [] ((Machine.idle w).enter func args caller) :=
        Machine.entered_enter (by rfl) _ _ _
      cases hentered with
      | pushed _ _ control => cases control.symm.trans hfault
      | gave _ _ control => cases control.symm.trans hfault
      | raised v c same => rw [Machine.frames, same, List.filterMap_nil]
    refine .inl ⟨?_, hnone, e, hfault, htrap⟩
    rw [Fault.trace_of_trap? htrap, Machine.shows_enter func args caller _ e hfault, hnone,
      List.map_nil]
  · obtain ⟨native₁, typed₁⟩ := native.reaches typed hr
    have native₂ := native₁.step typed₁ raised.step
    have typed₂ := typed₁.step raised.step
    have hexact (f : CodeFrame) (hf : f ∈ m.frames)
        (entered : f.entered → ∃ op, f.code.ops[f.pc]? = some op) :
        (m.world.frameInfo f).Exact m.world f :=
      f.exact_frameInfo typed₂.world (native₂.frames f (Machine.mem_frames.mp hf)) entered
    have hcalls (f : CodeFrame) (hf : f ∈ m.frames) (hcall : f.AtCall) :
        (m.world.frameInfo f).Exact m.world f := by
      obtain ⟨-, op, hop, -⟩ := hcall
      exact hexact f hf fun _ => ⟨op, hop⟩
    refine .inr ⟨m₁, m, e, hr, raised, htrap, ?_, ?_⟩
    · exact (Fault.trace_of_trap? htrap).trans
        (Machine.shows_of_steps raised.calm raised.step e raised.fault)
    rcases Machine.frames_of_raises raised native₁ typed₁ with hall | ⟨g, f, trapped, hhead, htail⟩
    · exact ⟨fun f hf => hcalls f hf (hall f hf), .inl hall⟩
    · refine ⟨fun f' hf' => ?_, .inr ⟨g, f, trapped, hhead, htail⟩⟩
      obtain ⟨fs, hfs⟩ := List.head?_eq_some_iff.mp hhead
      rw [hfs] at hf' htail
      rcases List.mem_cons.mp hf' with rfl | hmem
      · refine hexact f' (hfs ▸ List.mem_cons_self) fun _ => ?_
        obtain ⟨rest, hstack, -⟩ := trapped.stack
        obtain ⟨op, hop⟩ := (typed₁.frame hstack trapped.control).exists_instruction
        exact ⟨op, by rw [trapped.kin.code, trapped.pc, hop]⟩
      · exact hcalls f' (hfs ▸ hf') (htail f' hmem)

/-! A module whose function 0 calls its function 1, which traps, with names for all of them. -/

/-- The binary. -/
def namedBinary : Bytes :=
  [0x00, 0x61, 0x73, 0x6d, 0x01, 0x00, 0x00, 0x00, 0x01, 0x04, 0x01, 0x60, 0x00, 0x00, 0x03, 0x03,
    0x02, 0x00, 0x00, 0x07, 0x05, 0x01, 0x01, 0x66, 0x00, 0x00, 0x0a, 0x0a, 0x02, 0x04, 0x00, 0x10,
    0x01, 0x0b, 0x03, 0x00, 0x00, 0x0b, 0x00, 0x12, 0x04, 0x6e, 0x61, 0x6d, 0x65, 0x00, 0x02, 0x01,
    0x6d, 0x01, 0x07, 0x02, 0x00, 0x01, 0x66, 0x01, 0x01, 0x67]

/-- The module. -/
def named : CompiledModule :=
  { compatibility := ({} : EngineOptions).compatibility, binary := namedBinary
    module :=
      { types := [⟨[], []⟩], funcs := [0, 0], exports := [⟨"f", .func, 0⟩]
        codes := [⟨[], [.call 1, .done]⟩, ⟨[], [.unreachable, .done]⟩]
        names := { module := some "m", funcs := [(0, "f"), (1, "g")] } }
    codes := #[.make 0 ⟨[], []⟩ ⟨[], [.call 1, .done]⟩ ⟨30, 30, #[31, 33]⟩,
      .make 1 ⟨[], []⟩ ⟨[], [.unreachable, .done]⟩ ⟨35, 35, #[36, 37]⟩] }

theorem isCompiled_named : named.IsCompiled := ⟨{}, namedBinary, by decide +kernel⟩

/-- A store with an instance of the module. -/
def withNamed : Usage :=
  { world := ((World.create (.default 0) { files := ⟨[], #[]⟩ }).instantiate named []).2 }

theorem reachable_withNamed : withNamed.Reachable := by
  have free : ({ world := World.create (.default 0) { files := ⟨[], #[]⟩ } } : Usage).IsFree :=
    fun _ ht => by cases ht
  refine .step (.start (.default 0) { files := ⟨[], #[]⟩ })
    (.store (c := .instantiate named []) [] free ⟨isCompiled_named, ?_, rfl, rfl⟩)
  exact fun i hi => absurd hi List.not_mem_nil

/-- The trap of the function 1, when it is called by the function 0. -/
def namedTrap : Trap :=
  { message := TrapCode.unreachable.message, code := some .unreachable
    trace := [⟨1, some "g", some "m", 1, 36⟩, ⟨0, some "f", some "m", 1, 31⟩] }

theorem trace_of_named :
    (∃ w', (Operation.call 0 []).perform 20 withNamed.world = some (.error (.trap namedTrap), w')) ∧
      ∃ m : Machine, namedTrap.trace = m.frames.map m.world.frameInfo ∧
        ∀ f ∈ m.frames, (m.world.frameInfo f).Exact m.world f := by
  have starts : (Operation.call 0 []).Starts withNamed.world (withNamed.world.begin 0 []) :=
    .call (by decide +kernel) rfl
  have direct (m : Machine) (hr : (withNamed.world.begin 0 []).Reaches m) : m.IsDirect := by
    have hall : (withNamed.world.begin 0 []).allAlong
        (fun m => m.stack.all fun a => a.frame?.isSome) 20 := by decide +kernel
    intro h hm
    cases List.all_eq_true.mp (Machine.passes_of_allAlong hall hr) _ hm
  have failed : ((Operation.call 0 []).perform 20 withNamed.world).map (·.1) =
      some (.error (.trap namedTrap)) := by decide +kernel
  obtain ⟨⟨r, w'⟩, trapped, rfl⟩ := Option.map_eq_some_iff.mp failed
  refine ⟨⟨w', trapped⟩, ?_⟩
  have genuine : (Operation.call 0 []).Genuine withNamed := trivial
  rcases traces_are_exact reachable_withNamed genuine starts direct trapped with
    ⟨hnone, -⟩ | ⟨m₁, m, e, -, -, -, htrace, hexact, -⟩
  · cases hnone
  · exact ⟨m, htrace, hexact⟩

end Usage

end WasmHost

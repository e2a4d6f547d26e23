import WasmHost.Proofs.Machine.Escapes
import WasmHost.Proofs.Machine.Outlines
import WasmHost.Proofs.Machine.Soundness

/-!
# Frames of code on a stack

Every frame of code runs a function of a module in an instance of it. A frame that is not at work is
at the call that it has under way. Both hold of a machine that begins, and every step keeps them.
-/

namespace WasmHost

open World

namespace CodeFrame

/-- The frame runs code of a module, in an instance of the module. -/
def Native (w : World) (f : CodeFrame) : Prop :=
  ∃ i, w.store.instances[f.owner]? = some i ∧ f.code ∈ i.module.codes

/-- The frame runs a function of the store. -/
def Serves (w : World) (f : CodeFrame) : Prop :=
  ∃ (func : FuncAddr) (type : FuncType), w.store.funcs[func]? = some ⟨type, .code f.owner f.code⟩

/-- The frame is at a call. -/
def AtCall (f : CodeFrame) : Prop :=
  f.entered ∧ ∃ op, f.code.ops[f.pc]? = some op ∧ op.IsCall

variable {w w' : World} {f g : CodeFrame}

theorem Native.extends (h : f.Native w) (hw : w.Extends w') : f.Native w' := by
  obtain ⟨i, hi, hcode⟩ := h
  obtain ⟨i', hi', hbecomes⟩ := hw.instances _ i hi
  exact ⟨i', hi', by rwa [hbecomes]⟩

theorem Native.congr (h : f.Native w) (owner : g.owner = f.owner) (code : g.code = f.code) :
    g.Native w := by
  obtain ⟨i, hi, hcode⟩ := h
  exact ⟨i, by rwa [owner], by rwa [code]⟩

theorem Serves.extends (h : f.Serves w) (hw : w.Extends w') : f.Serves w' := by
  obtain ⟨func, type, hknown⟩ := h
  exact ⟨func, type, hw.funcs_known hknown⟩

theorem Serves.congr (h : f.Serves w) (owner : g.owner = f.owner) (code : g.code = f.code) :
    g.Serves w := by
  rwa [Serves, owner, code]

theorem Serves.native (h : f.Serves w) (hw : w.Typed) : f.Native w := by
  obtain ⟨func, type, hknown⟩ := h
  obtain ⟨-, i, hi, hcode⟩ := hw.funcs _ (Array.mem_of_getElem? hknown)
  exact ⟨i, hi, hcode⟩

theorem Begins.native (h : f.Begins w) (hw : w.Typed) : f.Native w := Serves.native h.known hw

theorem kin_resumed (vals : List StoreVal) (f : CodeFrame) : f.Kin (f.pushAll vals).advance := by
  obtain ⟨owner, code, entered⟩ := Kin.of_outline (f.outline_pushAll vals)
  exact ⟨owner, code, entered⟩

theorem Typed.exists_instruction (h : f.Typed w) : ∃ op, f.code.ops[f.pc]? = some op := by
  obtain ⟨i, c, o, os, b, bs, belongs, hat, -⟩ := h
  obtain ⟨op, -, hop, -⟩ := belongs.code.instruction hat
  exact ⟨op, hop⟩

/-- What a step of a frame leads to belongs to the same code; a frame that traps stays where it is,
and one that calls is at a call. -/
def Remains (f : CodeFrame) : Outcome → Prop
  | .next g _ => g.owner = f.owner ∧ g.code = f.code
  | .trap _ g _ => f.Kin g ∧ g.pc = f.pc
  | .call _ _ g _ => f.Kin g ∧ g.pc = f.pc ∧ g.AtCall
  | .exit .. => True

theorem Typed.remains (h : f.Typed w) : f.Remains (f.step w) := by
  by_cases hentered : f.entered
  · obtain ⟨op, hop⟩ := h.exists_instruction
    obtain ⟨owed, burned, w', hstep, -⟩ := step_exec hentered hop w
    have hfollows := follows_exec { f with owed, burned } w' op
    rw [hstep]
    generalize exec op { f with owed, burned } w' = o at hfollows
    cases hfollows with
    | next kin => exact ⟨kin.owner, kin.code⟩
    | trap kin pc => exact ⟨⟨kin.owner, kin.code, kin.entered⟩, pc⟩
    | @call _ _ g _ calls same =>
        obtain ⟨owner, code, entered⟩ := Kin.of_outline same
        have hpc : g.pc = f.pc := (congrArg CodeFrame.pc same :)
        refine ⟨⟨owner, code, entered⟩, hpc, entered.trans hentered, op, ?_, calls⟩
        rw [code, hpc, hop]
    | exit => trivial
  · simp only [CodeFrame.step, hentered, Bool.not_false, if_true]
    rcases check_frame f.reckon w with ⟨w', hcheck⟩ | ⟨c, g, w', hcheck, kin, pc, -⟩ <;> rw [hcheck]
    · exact ⟨rfl, rfl⟩
    · exact ⟨⟨kin.owner, kin.code, kin.entered⟩, pc⟩

/-- Code that calls is at the call. -/
theorem Typed.atCall {func : FuncAddr} {args : List StoreVal} (h : f.Typed w)
    (step : f.step w = .call func args g w') : g.owner = f.owner ∧ f.AtCall := by
  have hremains := h.remains
  rw [step] at hremains
  obtain ⟨kin, pc, entered, op, hop, calls⟩ := hremains
  exact ⟨kin.owner, kin.entered.symm.trans entered, op, by rw [← kin.code, ← pc, hop], calls⟩

end CodeFrame

namespace Machine

variable {m m' : Machine} {f : CodeFrame} {a b : Activation} {rest : List Activation}
  {final : List ValType}

/-- The activations that are not at work. One that raises a fault may have been. -/
def suspended (m : Machine) : List Activation :=
  match m.control with
  | .run => m.stack.tail
  | .back _ => m.stack
  | .fault _ => m.stack.tail

theorem mem_suspended (h : a ∈ m.suspended) : a ∈ m.stack := by
  unfold suspended at h
  split at h
  · exact List.mem_of_mem_tail h
  · exact h
  · exact List.mem_of_mem_tail h

theorem mem_suspended_of_tail (h : a ∈ m.stack.tail) : a ∈ m.suspended := by
  unfold suspended
  split
  · exact h
  · exact List.mem_of_mem_tail h
  · exact h

/-! ## What a step makes of the frames -/

/-- A frame comes of another one that is on top of the stack. -/
inductive Yields (m : Machine) (f : CodeFrame) : Prop
  | next {g : CodeFrame} {w : World} {rest : List Activation}
      (stack : m.stack = .code g :: rest) (control : m.control = .run)
      (step : g.step m.world = .next f w) : Yields m f
  | trap {g : CodeFrame} {c : TrapCode} {w : World} {rest : List Activation}
      (stack : m.stack = .code g :: rest) (control : m.control = .run)
      (step : g.step m.world = .trap c f w) : Yields m f
  | call {g : CodeFrame} {func : FuncAddr} {args : List StoreVal} {w : World}
      {rest : List Activation} (stack : m.stack = .code g :: rest) (control : m.control = .run)
      (step : g.step m.world = .call func args f w) : Yields m f
  | resume {g : CodeFrame} {vals : List StoreVal} {rest : List Activation}
      (stack : m.stack = .code g :: rest) (control : m.control = .back vals)
      (resumed : f = (g.pushAll vals).advance) : Yields m f

/-- What stands on the stack after a call has begun was there before, or is at its beginning. -/
theorem Entered.frame {stack : List Activation} (h : Entered stack m) (hf : .code f ∈ m.stack) :
    .code f ∈ stack ∨ f.Begins m.world := by
  cases h with
  | pushed a hpushed control begins =>
      rw [hpushed] at hf
      rcases List.mem_cons.mp hf with rfl | hf
      · exact .inr begins
      · exact .inl hf
  | gave vals same => exact .inl (same ▸ hf)
  | raised w c same => exact .inl (same ▸ hf)

theorem Entered.suspended {stack : List Activation} (h : Entered stack m)
    (hf : .code f ∈ m.suspended) : .code f ∈ stack := by
  cases h with
  | pushed a hpushed control begins =>
      rwa [Machine.suspended, control, hpushed] at hf
  | gave vals same => exact same ▸ mem_suspended hf
  | raised w c same => exact same ▸ mem_suspended hf

theorem mem_of_kind (hb : b.kind ≠ .code) (hf : .code f ∈ b :: rest) : .code f ∈ rest :=
  (List.mem_cons.mp hf).resolve_left fun h => hb (h ▸ rfl)

/-- A step of a host function or of a command changes no frame, and none is suspended by it. -/
theorem Turn.frame (ht : Turn m m') (stack : m.stack = a :: rest) (ha : a.kind ≠ .code) :
    (.code f ∈ m'.stack → .code f ∈ m.stack ∨ f.Begins m'.world) ∧
      (.code f ∈ m'.suspended → .code f ∈ m.suspended) := by
  have hbelow (h : .code f ∈ rest) : .code f ∈ m.stack ∧ .code f ∈ m.suspended := by
    have htail : .code f ∈ m.stack.tail := by rwa [stack]
    exact ⟨List.mem_of_mem_tail htail, mem_suspended_of_tail htail⟩
  have hpop {b : Activation} (hs : m.stack = b :: m'.stack) (h : .code f ∈ m'.stack) :
      .code f ∈ rest := by
    cases stack.symm.trans hs
    exact h
  cases ht with
  | onward hs stack' kind =>
      cases stack.symm.trans hs
      have hb := @mem_of_kind f _ rest (kind ▸ ha)
      exact ⟨fun h => .inl (hbelow (hb (stack' ▸ h))).1,
        fun h => (hbelow (hb (stack' ▸ mem_suspended h))).2⟩
  | called hs entered kind =>
      cases stack.symm.trans hs
      have hb := @mem_of_kind f _ rest (kind ▸ ha)
      exact ⟨fun h => (entered.frame h).imp_left fun h => (hbelow (hb h)).1,
        fun h => (hbelow (hb (entered.suspended h))).2⟩
  | returned hs =>
      exact ⟨fun h => .inl (hbelow (hpop hs h)).1,
        fun h => (hbelow (hpop hs (mem_suspended h))).2⟩
  | failed hs =>
      exact ⟨fun h => .inl (hbelow (hpop hs h)).1,
        fun h => (hbelow (hpop hs (mem_suspended h))).2⟩
  | unwound hs =>
      exact ⟨fun h => .inl (hbelow (hpop hs h)).1,
        fun h => (hbelow (hpop hs (mem_suspended h))).2⟩

/-- A frame after a step was there before, is new, or comes of the one that was on top. -/
theorem frame_of_steps (hs : m.Steps m') (hf : .code f ∈ m'.stack) :
    .code f ∈ m.stack ∨ f.Begins m'.world ∨ m.Yields f := by
  have hturn := turn_of_steps hs
  have hcons {g g' : CodeFrame} {rest : List Activation} (hg : .code f ∈ Activation.code g :: rest) :
      f = g ∨ .code f ∈ Activation.code g' :: rest :=
    (List.mem_cons.mp hg).imp Activation.code.inj fun hg => List.mem_cons_of_mem _ hg
  cases step_sound hs with
  | next out =>
      rcases hcons hf with rfl | hf
      · exact .inr (.inr (.next rfl rfl out))
      · exact .inl hf
  | trap out =>
      rcases hcons hf with rfl | hf
      · exact .inr (.inr (.trap rfl rfl out))
      · exact .inl hf
  | call out =>
      rcases (entered_enter rfl _ _ _).frame hf with hf | hf
      · rcases hcons hf with rfl | hf
        · exact .inr (.inr (.call rfl rfl out))
        · exact .inl hf
      · exact .inr (.inl hf)
  | resume =>
      rcases hcons hf with rfl | hf
      · exact .inr (.inr (.resume rfl rfl rfl))
      · exact .inl hf
  | exit | unwind => exact .inl (List.mem_cons_of_mem _ hf)
  | _ => exact ((hturn.frame rfl (by simp [Activation.kind])).1 hf).imp_right .inl

/-- A frame that is suspended after a step was so before, or has called something. -/
theorem suspended_of_steps (hs : m.Steps m') (hf : .code f ∈ m'.suspended) :
    .code f ∈ m.suspended ∨ ∃ g rest func args w, m.stack = .code g :: rest ∧ m.control = .run ∧
      g.step m.world = .call func args f w := by
  have hturn := turn_of_steps hs
  cases step_sound hs with
  | next | trap | exit => exact .inl hf
  | call out =>
      rcases List.mem_cons.mp ((entered_enter rfl _ _ _).suspended hf) with heq | hf
      · cases heq
        exact .inr ⟨_, _, _, _, _, rfl, rfl, out⟩
      · exact .inl hf
  | resume => exact .inl (List.mem_cons_of_mem _ hf)
  | unwind => exact .inl (mem_suspended hf)
  | _ => exact .inl ((hturn.frame rfl (by simp [Activation.kind])).2 hf)

/-- A frame after a step is at the beginning of a function, or runs the code of one before it. -/
theorem code_of_steps (ht : m.Typed final) (hs : m.Steps m') (hf : .code f ∈ m'.stack) :
    f.Begins m'.world ∨ ∃ g, .code g ∈ m.stack ∧ f.owner = g.owner ∧ f.code = g.code := by
  rcases frame_of_steps hs hf with hf | hbegins | hyields
  · exact .inr ⟨f, hf, rfl, rfl⟩
  · exact .inl hbegins
  · cases hyields with
    | next stack control hstep =>
        have hremains := (ht.frame stack control).remains
        rw [hstep] at hremains
        exact .inr ⟨_, stack ▸ List.mem_cons_self, hremains⟩
    | trap stack control hstep =>
        have hremains := (ht.frame stack control).remains
        rw [hstep] at hremains
        exact .inr ⟨_, stack ▸ List.mem_cons_self, hremains.1.owner, hremains.1.code⟩
    | call stack control hstep =>
        have hremains := (ht.frame stack control).remains
        rw [hstep] at hremains
        exact .inr ⟨_, stack ▸ List.mem_cons_self, hremains.1.owner, hremains.1.code⟩
    | @resume g vals _ stack control resumed =>
        have kin := CodeFrame.kin_resumed vals g
        exact .inr ⟨g, stack ▸ List.mem_cons_self, resumed ▸ kin.owner, resumed ▸ kin.code⟩

/-! ## Native frames -/

/-- Every frame of code is one of a module; what is not at work is at a call. -/
structure Native (m : Machine) : Prop where
  frames : ∀ f, .code f ∈ m.stack → f.Native m.world
  suspended : ∀ f, .code f ∈ m.suspended → f.AtCall

theorem Native.step (h : m.Native) (ht : m.Typed final) (hs : m.Steps m') : m'.Native := by
  refine ⟨fun f hf => ?_, fun f hf => ?_⟩
  · rcases code_of_steps ht hs hf with hbegins | ⟨g, hg, owner, code⟩
    · exact hbegins.native (ht.step hs).world
    · exact ((h.frames g hg).extends (alters_step hs).extends_).congr owner code
  · rcases suspended_of_steps hs hf with hf | ⟨g, rest, func, args, w, stack, control, hstep⟩
    · exact h.suspended f hf
    · have hremains := (ht.frame stack control).remains
      rw [hstep] at hremains
      exact hremains.2.2

theorem native_enter {func : FuncAddr} {args : List StoreVal} {caller : Option InstanceAddr}
    {w : World} (hw : ((idle w).enter func args caller).world.Typed) :
    ((idle w).enter func args caller).Native := by
  have hentered : Entered [] ((idle w).enter func args caller) := entered_enter (by rfl) _ _ _
  refine ⟨fun f hf => ?_, fun f hf => absurd (hentered.suspended hf) List.not_mem_nil⟩
  exact ((hentered.frame hf).resolve_left List.not_mem_nil).native hw

theorem Native.reaches (h : m.Native) (ht : m.Typed final) (hr : m.Reaches m') :
    m'.Native ∧ m'.Typed final := by
  induction hr with
  | refl => exact ⟨h, ht⟩
  | tail _ hs ih => exact ⟨ih.1.step ih.2 hs, ih.2.step hs⟩

end Machine

end WasmHost

import WasmHost.Proofs.Machine.Arguments
import WasmHost.Proofs.Machine.HostCalls
import WasmHost.Proofs.Machine.Operands
import WasmHost.Proofs.Machine.Unwinding

/-!
# How a call is answered

A call ends in one of two ways: it gives back values, or it is stopped by its store, which has no
stack or fuel left for it or which was told to interrupt it. Code that begins by reading its
arguments comes to have them as its operands, or is stopped.
-/

namespace WasmHost

/-- The instructions that read the first locals, in order. -/
def Wasm.readLocals (n : Nat) : List Wasm.Op := (List.range n).map .localGet

/-- The ways in which a store stops a call that takes so many bytes of stack in all. -/
def World.Stops (w : World) (room : Nat) : TrapCode → Prop
  | .stackExhausted => w.store.engine.options.maxWasmStack < room
  | .outOfFuel => w.usesFuel
  | .interrupt => w.store.engine.isInterruptable
  | _ => False

variable {w w' : World}

theorem World.Stops.mono {room room' : Nat} {c : TrapCode} (h : w.Stops room c)
    (hroom : room ≤ room') (hw : w'.store.engine = w.store.engine) : w'.Stops room' c := by
  cases c <;> simp only [World.Stops, World.usesFuel, hw] at h ⊢
  · exact Nat.lt_of_lt_of_le h hroom
  · exact h
  · exact h

namespace Machine

open World

/-- The call has ended and gives back values that look like `args` did. -/
inductive GaveBack (w : World) (rest : List Activation) (used : Nat) (args : List StoreVal) :
    Machine → Prop
  | intro {w' : World} {vals : List StoreVal} (look : vals.map w'.view = args.map w.view)
      (boxed : ∀ v ∈ vals, w'.Boxed v) (retains : w.Retains w') :
      GaveBack w rest used args ⟨w', rest, .back vals, used⟩

/-- The call was stopped by the store, and is being unwound. -/
structure Stopped (w : World) (rest : List Activation) (room : Nat) (m : Machine) : Prop where
  stack : ∃ above, m.stack = above ++ rest ∧ above.all Activation.rethrows
  fault : ∃ f t c, m.control = .fault f ∧ f.Carries t ∧ t.code = some c ∧ w.Stops room c

/-- The call has ended, in one way or the other. -/
def Answered (w : World) (rest : List Activation) (used room : Nat) (args : List StoreVal)
    (m : Machine) : Prop := GaveBack w rest used args m ∨ Stopped w rest room m

variable {m m' : Machine} {rest : List Activation} {room : Nat} {args : List StoreVal}

theorem Stopped.mono {room' : Nat} (h : Stopped w rest room m) (hroom : room ≤ room')
    (hw : w'.store.engine = w.store.engine) : Stopped w' rest room' m := by
  obtain ⟨f, t, c, hf, ht, hc, hstops⟩ := h.fault
  exact ⟨h.stack, f, t, c, hf, ht, hc, hstops.mono hroom hw⟩

/-- What called a function that was stopped is being unwound as well. -/
theorem Stopped.below {a : Activation} (h : Stopped w (a :: rest) room m) (ha : a.rethrows) :
    Stopped w rest room m := by
  obtain ⟨above, hstack, hall⟩ := h.stack
  exact ⟨⟨above ++ [a], by simp [hstack], by simp_all⟩, h.fault⟩

theorem stopped_raise {c : TrapCode} (hstack : m.stack = rest) (h : w.Stops room c) :
    Stopped w rest room (m.raise (.code c)) :=
  ⟨⟨[], hstack, rfl⟩, _, _, c, rfl, Fault.carries_of_trap? rfl, rfl, h⟩

end Machine

/-! ## Code -/

/-- The frame is at a place of a function, with one open block and the given operands in it. -/
structure CodeFrame.IsAt (f : CodeFrame) (owner : InstanceAddr) (code : FuncCode)
    (locals : Array StoreVal) (pc : Nat) (stack : List StoreVal) : Prop where
  owner : f.owner = owner
  code : f.code = code
  locals : f.locals = locals
  entered : f.entered = true
  pc : f.pc = pc
  blocks : ∃ b, f.blocks = [b] ∧ b.stack = stack

open World

/-- The checks at a checkpoint are passed, or the store stops the code. -/
theorem CodeFrame.check_cases (f : CodeFrame) (w : World) :
    (∃ w', f.check w = .next f w' ∧ w.Retains w') ∨
      ∃ c g w', f.check w = .trap c g w' ∧ w.Retains w' ∧ ∀ room, w.Stops room c := by
  have hmet : w.Retains w.meetDeadline.2 := by
    refine .of_objects (objects_meetDeadline w) (.of_boxes ?_)
    unfold meetDeadline
    split <;> rfl
  unfold check
  split
  · rename_i hfuel
    exact .inr ⟨_, _, _, rfl, .of_objects rfl (.of_boxes rfl), fun _ => hfuel.1⟩
  · split
    · rename_i hdue
      split <;> rename_i hmeet <;> rw [hmeet] at hmet
      · exact .inr ⟨_, _, _, rfl, hmet, fun _ => hdue.1⟩
      · exact .inl ⟨_, rfl, hmet⟩
    · exact .inl ⟨w, rfl, .refl w⟩

namespace CodeFrame.IsAt

variable {f : CodeFrame} {owner : InstanceAddr} {code : FuncCode} {locals : Array StoreVal}
  {pc : Nat} {stack : List StoreVal} {v : StoreVal}

/-- The step is that of the instruction, on a frame and in a world that differ in fuel only. -/
theorem step_exec (h : f.IsAt owner code locals pc stack) {op : Wasm.Op}
    (hop : code.ops[pc]? = some op) (w : World) :
    ∃ g w', f.step w = exec op g w' ∧ g.IsAt owner code locals pc stack ∧
      w'.objects = w.objects ∧ w'.store.boxes = w.store.boxes := by
  obtain ⟨rfl, rfl, rfl, hentered, rfl, b, hb, rfl⟩ := h
  obtain ⟨owed, burned, w', hstep, hobjects, hboxes, -⟩ := CodeFrame.step_exec hentered hop w
  exact ⟨_, w', hstep, ⟨rfl, rfl, rfl, hentered, rfl, b, hb, rfl⟩, hobjects, hboxes⟩

theorem step_localGet (h : f.IsAt owner code locals pc stack) {i : Nat}
    (hop : code.ops[pc]? = some (.localGet i)) (hv : locals[i]? = some v) (w : World) :
    ∃ g w', f.step w = .next g w' ∧ g.IsAt owner code locals (pc + 1) (v :: stack) ∧
      w.Retains w' := by
  obtain ⟨g, w', hstep, ⟨rfl, rfl, rfl, hentered, rfl, b, hb, rfl⟩, hobjects, hboxes⟩ :=
    h.step_exec hop w
  have hlocal : g.locals.getD i default = v := by simp [Array.getD_eq_getD_getElem?, hv]
  refine ⟨(g.push v).advance, w', ?_, ?_, .of_objects hobjects (.of_boxes hboxes)⟩
  · rw [hstep, exec, hlocal, proceed]
  · rw [push_eq hb]
    exact ⟨rfl, rfl, rfl, hentered, rfl, _, rfl, rfl⟩

theorem step_done (h : f.IsAt owner code locals pc stack) (hop : code.ops[pc]? = some .done)
    (w : World) : ∃ w', f.step w = .exit stack.reverse w' ∧ w.Retains w' := by
  obtain ⟨g, w', hstep, ⟨rfl, rfl, rfl, hentered, rfl, b, hb, rfl⟩, hobjects, hboxes⟩ :=
    h.step_exec hop w
  refine ⟨(g.save w').2, ?_, .of_objects hobjects (.of_boxes hboxes)⟩
  rw [hstep, exec, hb]
  rfl

/-- What a call hands over is taken off, and what it gives back is put on. -/
theorem step_call (h : f.IsAt owner code locals pc stack) {k callee : Nat} {i : Instance}
    {type : FuncType} {body : FuncBody} {args : List StoreVal}
    (hop : code.ops[pc]? = some (.call k)) {w : World}
    (instance_ : w.store.instances[owner]? = some i) (target : i.funcs[k]? = some callee)
    (known : w.store.funcs[callee]? = some ⟨type, body⟩)
    (hargs : args.length = type.params.length) (hstack : stack = args.reverse) :
    ∃ g w', f.step w = .call callee args g w' ∧ g.owner = owner ∧ w.Retains w' ∧
      ∀ vals, (g.pushAll vals).advance.IsAt owner code locals (pc + 1) vals.reverse := by
  obtain ⟨g, w', hstep, ⟨rfl, rfl, rfl, hentered, rfl, b, hb, rfl⟩, hobjects, hboxes⟩ :=
    h.step_exec hop w
  have hinstances : w'.store.instances = w.store.instances := (congrArg Store.instances hobjects :)
  have hfuncs : w'.store.funcs = w.store.funcs := (congrArg Store.funcs hobjects :)
  have haddress : g.address w' (·.funcs) k = callee := by
    simp [address, ownerOf, hinstances, instance_, Array.getD_eq_getD_getElem?, target]
  have hpop : g.popMany args.length = (args, g.withTop [] b []) :=
    popMany_eq hb (by rw [hstack, List.append_nil])
  refine ⟨g.withTop [] b [], w', ?_, rfl, .of_objects hobjects (.of_boxes hboxes), fun vals => ?_⟩
  · simp only [hstep, exec, haddress, hfuncs, known, Option.map_some, Option.getD_some, ← hargs,
      hpop]
  · have hblocks : (g.withTop [] b []).blocks = [{ b with stack := [] }] := rfl
    rw [pushAll_eq hblocks]
    exact ⟨rfl, rfl, rfl, hentered, rfl, _, rfl, List.append_nil _⟩

end CodeFrame.IsAt

theorem Wasm.getElem?_readLocals {ops : Array Wasm.Op} {n : Nat} {tail : List Wasm.Op}
    (h : ops.toList = Wasm.readLocals n ++ tail) :
    (∀ i < n, ops[i]? = some (.localGet i)) ∧ ∀ j, ops[n + j]? = tail[j]? := by
  have hlength : (Wasm.readLocals n).length = n := by simp [Wasm.readLocals]
  constructor
  · intro i hi
    rw [← Array.getElem?_toList, h, List.getElem?_append_left (by omega)]
    simp [Wasm.readLocals, hi]
  · intro j
    rw [← Array.getElem?_toList, h, List.getElem?_append_right (by omega), hlength,
      Nat.add_sub_cancel_left]

namespace Machine

variable {owner : InstanceAddr} {code : FuncCode} {tail : List Wasm.Op} {args : List StoreVal}

/-- Code that begins by reading its arguments comes to have them as its operands. -/
theorem reaches_reads (hops : code.ops.toList = Wasm.readLocals args.length ++ tail)
    {locals : Array StoreVal} (hlocals : ∀ i < args.length, locals[i]? = args[i]?) {n : Nat}
    (hn : n ≤ args.length) {f : CodeFrame} {w : World}
    (hf : f.IsAt owner code locals n (args.take n).reverse) (rest : List Activation) (used : Nat) :
    ∃ g w', Reaches ⟨w, .code f :: rest, .run, used⟩ ⟨w', .code g :: rest, .run, used⟩ ∧
      g.IsAt owner code locals args.length args.reverse ∧ w.Retains w' := by
  obtain ⟨d, hd⟩ := Nat.exists_eq_add_of_le hn
  induction d generalizing n f w with
  | zero =>
      obtain rfl : n = args.length := hd.symm
      rw [List.take_length] at hf
      exact ⟨f, w, .refl, hf, .refl w⟩
  | succ d ih =>
      have hlt : n < args.length := by omega
      have hv : locals[n]? = some args[n] := by rw [hlocals n hlt, List.getElem?_eq_getElem hlt]
      obtain ⟨g, w', hstep, hg, hw⟩ :=
        hf.step_localGet ((Wasm.getElem?_readLocals hops).1 n hlt) hv w
      have htake : args[n] :: (args.take n).reverse = (args.take (n + 1)).reverse := by
        rw [List.take_succ_eq_append_getElem hlt, List.reverse_append]
        rfl
      rw [htake] at hg
      obtain ⟨g', w'', hreach, hg', hw'⟩ := ih (by omega) hg (by omega)
      refine ⟨g', w'', .head ?_ hreach, hg', hw.trans hw'⟩
      simp only [Steps, step, hstep]

/-- A call of code comes to where its arguments are its operands, or the store stops it. -/
theorem enter_reads {func : FuncAddr} {type : FuncType} {caller : Option InstanceAddr} {m : Machine}
    (known : m.world.store.funcs[func]? = some ⟨type, .code owner code⟩)
    (hops : code.ops.toList = Wasm.readLocals args.length ++ tail) {room : Nat}
    (hroom : m.used + Activation.codeSize ≤ room) :
    (∃ g w locals, (m.enter func args caller).Reaches
        ⟨w, .code g :: m.stack, .run, m.used + Activation.codeSize⟩ ∧
      g.IsAt owner code locals args.length args.reverse ∧ m.world.Retains w) ∨
    ∃ m', (m.enter func args caller).Reaches m' ∧ Stopped m.world m.stack room m' := by
  simp only [enter, known]
  by_cases hstack : m.hasStack
  · simp only [hstack, Bool.not_true, Bool.false_eq_true, if_false, pushActivation]
    generalize hf : ({ owner, code, locals := (args ++ code.locals.map Val.default).toArray
                       blocks := [{ next := code.ops.size, arity := type.results.length }] } :
      CodeFrame) = f
    rcases f.reckon.check_cases m.world with ⟨w, hcheck, hw⟩ | ⟨c, g, w, hcheck, hw, hstops⟩
    · have hentered : { f.reckon with entered := true }.IsAt owner code f.locals 0
          (args.take 0).reverse := by
        subst hf
        exact ⟨rfl, rfl, rfl, rfl, rfl, _, rfl, rfl⟩
      have hlocals : ∀ i < args.length, f.locals[i]? = args[i]? := by
        subst hf
        intro i hi
        simp [List.getElem?_append_left hi]
      obtain ⟨g, w', hreach, hg, hw'⟩ := reaches_reads (w := w) hops hlocals (Nat.zero_le _)
        hentered m.stack (m.used + Activation.codeSize)
      refine .inl ⟨g, w', f.locals, .head ?_ hreach, hg, hw.trans hw'⟩
      subst hf
      simp only [Steps, step, CodeFrame.step, Bool.not_false, if_true, hcheck]
      rfl
    · refine .inr ⟨raise (.code c) ⟨w, .code g :: m.stack, .run, m.used + Activation.codeSize⟩,
        .single ?_, ?_⟩
      · subst hf
        simp only [Steps, step, CodeFrame.step, Bool.not_false, if_true, hcheck]
        rfl
      · have hstopped : Stopped m.world (.code g :: m.stack) room
            (raise (.code c) ⟨w, .code g :: m.stack, .run, m.used + Activation.codeSize⟩) :=
          stopped_raise rfl (hstops room)
        exact hstopped.below rfl
  · simp only [hstack, Bool.not_false, if_true]
    refine .inr ⟨_, .refl, stopped_raise rfl ?_⟩
    simp only [hasStack, decide_eq_true_eq, Nat.not_le] at hstack
    exact Nat.lt_of_lt_of_le hstack hroom

end Machine

end WasmHost

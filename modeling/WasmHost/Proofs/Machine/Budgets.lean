import WasmHost.Proofs.Machine.Accounts
import WasmHost.Proofs.Machine.Aims
import WasmHost.Proofs.Machine.Suspension

/-!
# The budget of a frame

The budget of a frame is the fuel of its store less what the frame burned and owes. No instruction
adds to it. An instruction that goes back to the head of a loop takes one unit away, a call hands on
no more than is left, and a frame without budget goes no further than the next loop.
-/

namespace WasmHost

open World

/-- An instruction or a check leaves no more fuel than there was. -/
theorem Outcome.Tallies.remaining_le {o : Outcome} {w : World} (h : o.Tallies w) :
    o.world.store.fuel.remaining ≤ w.store.fuel.remaining := by
  have hmet : w.meetDeadline.2.store.fuel = w.store.fuel := by
    unfold meetDeadline
    split <;> rfl
  cases h with
  | burns hb =>
      obtain ⟨n, hn⟩ := hb.accounts
      have hfuel : o.world.store.fuel = w.store.fuel.burn n := congrArg (·.fuel) hn
      rw [hfuel]
      exact Nat.sub_le _ _
  | renewed _ accounts | interrupted _ accounts =>
      have hfuel : o.world.store.fuel = w.meetDeadline.2.store.fuel := congrArg (·.fuel) accounts
      rw [hfuel, hmet]

theorem tallies_exec (f : CodeFrame) (w : World) (op : Wasm.Op) : (exec op f w).Tallies w := by
  by_cases hloop : ∃ t, op = .loop t
  · obtain ⟨t, rfl⟩ := hloop
    exact tallies_loop f w t
  · exact .burns (burns_exec f w (not_exists.mp hloop))

namespace CodeFrame

/-- The fuel of the store less what the frame burned and owes. -/
def budget (w : World) (f : CodeFrame) : Nat := w.store.fuel.remaining - (f.burned + f.owed)

/-- The frame is at the head of a loop. -/
def AtLoop (f : CodeFrame) : Prop := ∃ t, f.code.ops[f.pc]? = some (.loop t)

variable {f g : CodeFrame} {w w' : World} {op : Wasm.Op}

/-- Besides its instruction, a step of a function that was entered takes its fuel from the budget.
-/
theorem step_spends (entered : f.entered) (hop : f.code.ops[f.pc]? = some op) (w : World) :
    ∃ owed burned w', f.step w = exec op { f with owed, burned } w' ∧
      w'.store.engine = w.store.engine ∧
      w'.store.fuel.remaining - (burned + owed) = f.budget w - op.cost ∧
      (op.reckons → owed = 0) ∧ (op.saves → burned = 0) := by
  have hget : f.code.ops.getD f.pc .unreachable = op := by
    simp [Array.getD_eq_getD_getElem?, hop]
  simp only [step, entered, hget, Bool.not_true, Bool.false_eq_true, if_false]
  cases op.reckons <;> cases op.saves <;> simp only [reduceIte, Bool.false_eq_true] <;>
    refine ⟨_, _, _, rfl, rfl, ?_, by simp [reckon], by simp⟩ <;>
    simp only [budget, save, mapFuel, mapStore, Fuel.burn, reckon] <;> omega

/-- What comes of a frame that was entered, as far as its budget goes. -/
inductive Spends (f : CodeFrame) (w : World) : Outcome → Prop
  | next {g : CodeFrame} {w' : World} (kin : f.Kin g) (le : g.budget w' ≤ f.budget w)
      (progress : f.pc < g.pc ∨ g.AtLoop ∧ g.budget w' ≤ f.budget w - 1) : Spends f w (.next g w')
  | trap {c : TrapCode} {g : CodeFrame} {w' : World} : Spends f w (.trap c g w')
  | call {func : FuncAddr} {args : List StoreVal} {g : CodeFrame} {w' : World}
      (same : f.Kin g) (pc : g.pc = f.pc) (le : w'.store.fuel.remaining ≤ f.budget w - 1) :
      Spends f w (.call func args g w')
  | exit {vals : List StoreVal} {w' : World} : Spends f w (.exit vals w')

theorem Typed.spends_step (typed : f.Typed w) (aimed : f.Aimed) (entered : f.entered) :
    f.Spends w (f.step w) := by
  obtain ⟨op, hop⟩ := typed.exists_instruction
  obtain ⟨owed, burned, w', hstep, -, hbudget, hreckons, hsaves⟩ := step_spends entered hop w
  rw [hstep]
  have hfollows := follows_exec { f with owed, burned } w' op
  have hremaining := (tallies_exec { f with owed, burned } w' op).remaining_le
  generalize exec op { f with owed, burned } w' = o at hfollows hremaining ⊢
  have hkept : w'.store.fuel.remaining - (burned + owed) ≤ f.budget w := by omega
  cases hfollows with
  | @next g w'' kin howed hburned moves =>
      have hle : g.budget w'' ≤ w'.store.fuel.remaining - (burned + owed) := by
        rw [budget, howed, hburned]
        exact Nat.sub_le_sub_right hremaining _
      have hmoves : f.Moves op g.pc g.targets := moves.refuel f.owed f.burned
      refine .next ⟨kin.owner, kin.code, kin.entered⟩ (Nat.le_trans hle hkept) ?_
      refine (hmoves.aims aimed typed hop).2.imp id fun ⟨hcost, t, hloop⟩ => ?_
      refine ⟨⟨t, ?_⟩, ?_⟩
      · have hcode : g.code = f.code := kin.code
        rw [hcode]
        exact hloop
      · omega
  | trap => exact .trap
  | @call func args g w'' calls same =>
      have hcost : op.cost = 1 ∧ op.reckons ∧ op.saves := by
        cases op <;> first | exact ⟨rfl, rfl, rfl⟩ | exact calls.elim
      obtain ⟨owner, code, hentered⟩ := Kin.of_outline same
      refine .call ⟨owner, code, hentered⟩ (congrArg CodeFrame.pc same :) ?_
      have howed := hreckons hcost.2.1
      have hburned := hsaves hcost.2.2
      have hle : w''.store.fuel.remaining ≤ w'.store.fuel.remaining := hremaining
      omega
  | exit => exact .exit

/-- Without budget a frame stops at a loop. -/
theorem step_at_loop (entered : f.entered) (h : f.AtLoop) (uses : w.usesFuel)
    (hbudget : f.budget w = 0) : ∃ g w', f.step w = .trap .outOfFuel g w' := by
  obtain ⟨t, hop⟩ := h
  obtain ⟨owed, burned, w', hstep, hengine, hspent, hreckons, -⟩ := step_spends entered hop w
  obtain rfl := hreckons rfl
  have hout : w'.usesFuel ∧ w'.store.fuel.remaining ≤ burned := by
    refine ⟨?_, by omega⟩
    rw [usesFuel, hengine]
    exact uses
  have hcheck : ∃ g w'', check { f with owed := 0, burned } w' = .trap .outOfFuel g w'' :=
    ⟨_, _, by rw [check, if_pos hout]⟩
  obtain ⟨g, w'', hcheck⟩ := hcheck
  rw [hstep]
  exact ⟨g, w'', by simp only [exec, hcheck]⟩

/-- A frame enters its function with a budget that is less than the fuel there was, or not at all.
-/
theorem step_enters (hbegins : f.Begins w) (uses : w.usesFuel) :
    (∃ c g w', f.step w = .trap c g w') ∨ ∃ w', f.step w = .next
      { f.reckon with entered := true } w' ∧ w'.store.fuel.remaining ≤ w.store.fuel.remaining ∧
        1 < w.store.fuel.remaining := by
  have hremaining := (tallies_check f.reckon w).remaining_le
  simp only [step, hbegins.entered, Bool.not_false, if_true]
  rcases check_frame f.reckon w with ⟨w', hcheck⟩ | ⟨c, g, w', hcheck, -⟩
  · rw [hcheck] at hremaining ⊢
    refine .inr ⟨w', rfl, hremaining, ?_⟩
    by_contra hle
    have hburned : f.reckon.burned = 1 := by
      simp only [reckon, hbegins.burned, hbegins.owed]
    have hout : w.usesFuel ∧ w.store.fuel.remaining ≤ f.reckon.burned :=
      ⟨uses, by omega⟩
    rw [check, if_pos hout] at hcheck
    cases hcheck
  · rw [hcheck]
    exact .inl ⟨c, g, w', rfl⟩

/-! ## Aims -/

theorem Aimed.congr (h : f.Aimed) (code : g.code = f.code) (pc : g.pc = f.pc)
    (targets : g.targets = f.targets) : g.Aimed := by
  refine ⟨code ▸ h.enclosed, ?_⟩
  rw [pc, targets]
  intro n ns hn hne
  rw [code]
  exact h.aims n ns hn hne

/-- There is nothing to aim at but the end of the function. -/
theorem Begins.aimed (h : f.Begins w) (hw : w.Typed) : f.Aimed := by
  obtain ⟨i, hi, hcode⟩ := h.native hw
  have linked := hw.instances i (Array.mem_of_getElem? hi)
  refine ⟨linked.compiled.enclosed f.code hcode, fun n ns hn hne => ?_⟩
  obtain ⟨b, hb⟩ := h.blocks
  rw [targets, hb] at hn
  have hlength := hn.length_le
  have hpos := List.length_pos_of_ne_nil hne
  simp only [List.length_cons, List.length_map, List.length_nil] at hlength
  omega

theorem Typed.aimed_step (typed : f.Typed w) (aimed : f.Aimed) :
    match f.step w with
    | .next g _ | .trap _ g _ | .call _ _ g _ => g.Aimed
    | .exit .. => True := by
  by_cases hentered : f.entered
  · obtain ⟨op, hop⟩ := typed.exists_instruction
    obtain ⟨owed, burned, w', hstep, -⟩ := step_spends hentered hop w
    have hfollows := follows_exec { f with owed, burned } w' op
    rw [hstep]
    generalize exec op { f with owed, burned } w' = o at hfollows
    cases hfollows with
    | @next g w'' kin _ _ moves =>
        have hmoves : f.Moves op g.pc g.targets := moves.refuel f.owed f.burned
        have hcode : g.code = f.code := kin.code
        refine ⟨hcode ▸ aimed.enclosed, fun n ns hn hne => ?_⟩
        rw [hcode]
        exact (hmoves.aims aimed typed hop).1 n ns hn hne
    | trap kin pc targets => exact aimed.congr kin.code pc targets
    | call calls same =>
        have htargets := targets_of_outline same
        exact aimed.congr (Kin.of_outline same).code (congrArg CodeFrame.pc same :) htargets
    | exit => trivial
  · rcases check_frame f.reckon w with ⟨w', hcheck⟩ | ⟨c, g, w', hcheck, kin, pc, targets⟩
    · have hstep : f.step w = .next { f.reckon with entered := true } w' := by
        simp only [CodeFrame.step, hentered, Bool.not_false, if_true, hcheck]
      rw [hstep]
      exact aimed.congr rfl rfl rfl
    · have hstep : f.step w = .trap c g w' := by
        simp only [CodeFrame.step, hentered, Bool.not_false, if_true, hcheck]
      rw [hstep]
      exact aimed.congr kin.code pc targets

/-- Behind a call a frame aims where it did. -/
theorem Aimed.resume (aimed : f.Aimed) (calls : f.AtCall) (vals : List StoreVal)
    (typed : (f.pushAll vals).advance.Typed w) : (f.pushAll vals).advance.Aimed := by
  obtain ⟨-, op, hop, hcall⟩ := calls
  have hpushed := f.outline_pushAll vals
  have hcode : (f.pushAll vals).code = f.code := (Kin.of_outline hpushed).code
  have hpc : (f.pushAll vals).pc = f.pc := (congrArg CodeFrame.pc hpushed :)
  have htargets : (f.pushAll vals).targets = f.targets := targets_of_outline hpushed
  have hdepth := typed.depth
  have hflat : f.code.depth (f.pc + 1) = f.code.depth f.pc := by
    rw [FuncCode.depth_succ hop]
    cases op <;> first | rfl | exact hcall.elim
  change (f.pushAll vals).code.depth ((f.pushAll vals).pc + 1) = (f.pushAll vals).targets.length
    at hdepth
  rw [hcode, hpc, htargets] at hdepth
  have haims : f.AimsAt (f.pc + 1) f.targets := by
    refine aimed.aims.forward (Nat.le_succ _) (Wasm.StaysIn.next ?_ ?_)
    · exact Nat.le_of_eq (hdepth.symm.trans hflat)
    · exact Nat.le_of_eq hdepth.symm
  refine ⟨?_, fun n ns hn hne => ?_⟩
  · change (f.pushAll vals).code.Enclosed
    rw [hcode]
    exact aimed.enclosed
  · change (f.pushAll vals).code.Aims ((f.pushAll vals).pc + 1) ns.length n
    rw [hcode, hpc]
    exact haims n ns (htargets ▸ hn) hne

end CodeFrame

namespace Machine

variable {m m' : Machine} {final : List ValType}

/-- All branches of all frames lead somewhere. -/
def Aimed (m : Machine) : Prop := ∀ f, .code f ∈ m.stack → f.Aimed

theorem Aimed.step (h : m.Aimed) (native : m.Native) (typed : m.Typed final) (hs : m.Steps m') :
    m'.Aimed := by
  have typed' := typed.step hs
  intro f hf
  rcases frame_of_steps hs hf with hf | hbegins | hyields
  · exact h f hf
  · exact hbegins.aimed typed'.world
  · -- what is on top of the stack takes a step
    have hstep {g : CodeFrame} {rest : List Activation} (stack : m.stack = .code g :: rest)
        (control : m.control = .run) := (typed.frame stack control).aimed_step
          (h g (stack ▸ List.mem_cons_self))
    cases hyields with
    | next stack control step =>
        have haimed := hstep stack control
        rw [step] at haimed
        exact haimed
    | trap stack control step =>
        have haimed := hstep stack control
        rw [step] at haimed
        exact haimed
    | call stack control step =>
        have haimed := hstep stack control
        rw [step] at haimed
        exact haimed
    | @resume g vals rest stack control resumed =>
        subst resumed
        have hg : .code g ∈ m.stack := stack ▸ List.mem_cons_self
        have hcalls : g.AtCall := by
          refine native.suspended g ?_
          rw [suspended, control]
          exact hg
        have hsteps : m' = ⟨m.world, .code (g.pushAll vals).advance :: rest, .run, m.used⟩ := by
          obtain ⟨w, stack, control, used⟩ := m
          cases stack
          cases control
          exact (Sum.inl.inj hs).symm
        subst hsteps
        exact (h g hg).resume hcalls vals (typed'.frame rfl rfl)

theorem aimed_enter {func : FuncAddr} {args : List StoreVal} {caller : Option InstanceAddr}
    {w : World} (hw : ((idle w).enter func args caller).world.Typed) :
    ((idle w).enter func args caller).Aimed := by
  have hentered : Entered [] ((idle w).enter func args caller) := entered_enter (by rfl) _ _ _
  intro f hf
  exact ((hentered.frame hf).resolve_left List.not_mem_nil).aimed hw

end Machine

end WasmHost

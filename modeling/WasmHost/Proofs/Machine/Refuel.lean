import WasmHost.Proofs.World.Refuel
import WasmHost.Proofs.Machine.Outcomes
import WasmHost.Proofs.Machine.Runs

/-!
# Steps that differ in fuel

What code and host functions do does not depend on the fuel there is, and neither does what they
burn. The exceptions are the two places where code looks for the end of the fuel, and the two
operations of host functions that read the fuel and add to it. Apart from the latter, a step ends in
the trap of exhausted fuel, or any larger amount of fuel gives the same step at the same cost.
-/

namespace WasmHost

namespace Fuel

@[simp] theorem burn_zero (f : Fuel) : f.burn 0 = f := rfl

theorem burn_burn (n k : Nat) (f : Fuel) : (f.burn n).burn k = f.burn (n + k) := by
  simp [burn, Nat.sub_sub]

theorem remaining_burn_mono {f g : Fuel} (h : f.remaining ≤ g.remaining) (n : Nat) :
    (f.burn n).remaining ≤ (g.burn n).remaining := Nat.sub_le_sub_right h n

end Fuel

open World

/-! ## Instructions -/

namespace Outcome

/-- The outcome with other fuel. -/
def withFuel (fuel : Fuel) : Outcome → Outcome
  | next f w => next f (w.withFuel fuel)
  | trap c f w => trap c f (w.withFuel fuel)
  | call func args f w => call func args f (w.withFuel fuel)
  | exit vals w => exit vals (w.withFuel fuel)

end Outcome

section
variable (fuel : Fuel) (f : CodeFrame) (w : World)

namespace CodeFrame

@[simp] theorem address_withFuel (items : Instance → Array Nat) (index : Nat) :
    f.address (w.withFuel fuel) items index = f.address w items index := rfl

@[simp] theorem ownerOf_withFuel : f.ownerOf (w.withFuel fuel) = f.ownerOf w := rfl

@[simp] theorem blockType_withFuel (t : Wasm.BlockType) :
    f.blockType (w.withFuel fuel) t = f.blockType w t := by
  cases t <;> rfl

/-- What is burned is what the frame owes, whatever fuel there is. -/
theorem branch_withFuel (label : Nat) :
    ∃ n, ∀ fuel, f.branch label (w.withFuel fuel) =
      (f.branch label w).withFuel (fuel.burn n) := by
  unfold branch
  split
  · dsimp only
    split
    · exact ⟨0, fun _ => rfl⟩
    · exact ⟨f.burned, fun _ => rfl⟩
  · exact ⟨f.burned, fun _ => rfl⟩

end CodeFrame

theorem execLoad_withFuel (op : Wasm.LoadOp) (arg : Wasm.MemArg) :
    execLoad op arg f (w.withFuel fuel) = (execLoad op arg f w).withFuel fuel := by
  simp only [execLoad, CodeFrame.address_withFuel, readMemory_withFuel]
  cases w.readMemory (f.address w (·.memories) arg.memory) (f.popBits.1 + arg.offset) op.bytes <;>
    rfl

theorem execStore_withFuel (op : Wasm.StoreOp) (arg : Wasm.MemArg) :
    execStore op arg f (w.withFuel fuel) = (execStore op arg f w).withFuel fuel := by
  simp only [execStore, CodeFrame.address_withFuel, memory_withFuel]
  rw [apply_ite (Outcome.withFuel fuel)]
  rfl

@[simp] theorem dropSegment_withFuel (owner : InstanceAddr) (g : Instance → Instance) :
    dropSegment owner g (w.withFuel fuel) = (dropSegment owner g w).withFuel fuel := rfl

theorem execMemory_withFuel (op : Wasm.Op) :
    execMemory op f (w.withFuel fuel) = (execMemory op f w).withFuel fuel := by
  simp only [execMemory, CodeFrame.address_withFuel, CodeFrame.ownerOf_withFuel, memory_withFuel,
    readMemory_withFuel, growPages_withFuel]
  cases op with
  | memoryFill m =>
      dsimp only
      rw [apply_ite (Outcome.withFuel fuel)]
      rfl
  | memoryCopy t s =>
      dsimp only
      cases w.readMemory (f.address w (·.memories) s) (pop3 f).2.1.toBits (pop3 f).2.2.1 with
      | none => rfl
      | some bytes =>
          dsimp only
          rw [apply_ite (Outcome.withFuel fuel)]
          rfl
  | memoryInit data m =>
      dsimp only
      rw [apply_ite (Outcome.withFuel fuel)]
      rfl
  | memoryGrow m =>
      dsimp only
      cases w.growPages (f.address w (·.memories) m) f.popBits.1 <;> rfl
  | _ => rfl

theorem execTable_withFuel (op : Wasm.Op) :
    execTable op f (w.withFuel fuel) = (execTable op f w).withFuel fuel := by
  simp only [execTable, CodeFrame.address_withFuel, CodeFrame.ownerOf_withFuel, table_withFuel,
    tableSize_withFuel, exposeVal_withFuel, putElem_withFuel, growElems_withFuel,
    putElems_withFuel, copyElems_withFuel, elemValues_withFuel]
  cases op with
  | tableGet t =>
      dsimp only
      cases (w.table (f.address w (·.tables) t)).elems[f.popBits.1]? <;> rfl
  | tableGrow t =>
      dsimp only
      obtain ⟨r, w'⟩ := w.growElems (f.address w (·.tables) t) f.popBits.1 f.popBits.2.pop.1
      cases r <;> rfl
  | tableSet | tableFill | tableCopy | tableInit =>
      dsimp only
      rw [apply_ite (Outcome.withFuel fuel)]
      rfl
  | _ => rfl

theorem execCallIndirect_withFuel (type table : Nat) :
    execCallIndirect type table f (w.withFuel fuel) =
      (execCallIndirect type table f w).withFuel fuel := by
  simp only [execCallIndirect, CodeFrame.address_withFuel, CodeFrame.blockType_withFuel,
    table_withFuel, store_withFuel]
  split
  · rfl
  · rw [apply_ite (Outcome.withFuel fuel)]
    rfl
  · rfl

end

section
variable (f : CodeFrame) (w : World)

/-- An instruction that is no loop burns what the frame owes if it leaves the function, and nothing
else; a loop looks for the end of the fuel as well. -/
theorem exec_withFuel {op : Wasm.Op} (h : ∀ t, op ≠ .loop t) :
    ∃ n, ∀ fuel, exec op f (w.withFuel fuel) = (exec op f w).withFuel (fuel.burn n) := by
  cases op with
  | loop t => exact absurd rfl (h t)
  | block t => exact ⟨0, fun fuel => by simp only [exec, CodeFrame.blockType_withFuel]; rfl⟩
  | ifThen t =>
      refine ⟨0, fun fuel => ?_⟩
      simp only [exec, CodeFrame.blockType_withFuel]
      rw [apply_ite (Outcome.withFuel _), apply_ite (Outcome.withFuel _)]
      rfl
  | done =>
      cases hb : f.blocks with
      | nil => exact ⟨f.burned, fun _ => by simp only [exec, hb]; rfl⟩
      | cons b bs =>
          cases bs with
          | nil => exact ⟨f.burned, fun _ => by simp only [exec, hb]; rfl⟩
          | cons b' bs => exact ⟨0, fun _ => by simp only [exec, hb]; rfl⟩
  | br l => exact f.branch_withFuel w l
  | brIf l =>
      simp only [exec]
      split
      · exact CodeFrame.branch_withFuel _ w l
      · exact ⟨0, fun _ => rfl⟩
  | brTable ls l => exact CodeFrame.branch_withFuel _ w _
  | ret => exact f.branch_withFuel w _
  | callIndirect type table => exact ⟨0, fun fuel => execCallIndirect_withFuel fuel f w type table⟩
  | globalGet i => exact ⟨0, fun fuel => by simp [exec, proceed, Outcome.withFuel]⟩
  | globalSet i => exact ⟨0, fun fuel => by simp [exec, proceed, Outcome.withFuel]⟩
  | load op arg => exact ⟨0, fun fuel => execLoad_withFuel fuel f w op arg⟩
  | atomicLoad arg => exact ⟨0, fun fuel => execLoad_withFuel fuel f w _ arg⟩
  | store op arg => exact ⟨0, fun fuel => execStore_withFuel fuel f w op arg⟩
  | numeric op =>
      refine ⟨0, fun fuel => ?_⟩
      simp only [exec]
      split
      · rfl
      · split <;> rfl
  | memorySize | memoryGrow | memoryFill | memoryCopy | memoryInit | dataDrop =>
      exact ⟨0, fun fuel => by simp only [exec]; exact execMemory_withFuel fuel f w _⟩
  | tableGet | tableSet | tableSize | tableGrow | tableFill | tableCopy | tableInit | elemDrop =>
      exact ⟨0, fun fuel => by simp only [exec]; exact execTable_withFuel fuel f w _⟩
  | _ => exact ⟨0, fun _ => rfl⟩

/-- The check finds the fuel at its end, or it does the same with more fuel. -/
theorem check_withFuel : (∃ g w', f.check w = .trap .outOfFuel g w') ∨
    ∀ fuel, w.store.fuel.remaining ≤ fuel.remaining →
      f.check (w.withFuel fuel) = (f.check w).withFuel fuel := by
  by_cases hout : w.usesFuel ∧ w.store.fuel.remaining ≤ f.burned
  · exact .inl ⟨_, _, by rw [CodeFrame.check, if_pos hout]⟩
  · refine .inr fun fuel hle => ?_
    have hmore : ¬((w.withFuel fuel).usesFuel ∧
        (w.withFuel fuel).store.fuel.remaining ≤ f.burned) :=
      fun h => hout ⟨h.1, Nat.le_trans hle h.2⟩
    rw [CodeFrame.check, if_neg hmore, CodeFrame.check, if_neg hout, meetDeadline_withFuel,
      apply_ite (Outcome.withFuel fuel)]
    obtain ⟨due, w'⟩ := w.meetDeadline
    cases due <;> rfl

/-- Any instruction traps for want of fuel, or it does the same with more fuel, at the same cost. -/
theorem exec_uniform (op : Wasm.Op) : (∃ g w', exec op f w = .trap .outOfFuel g w') ∨
    ∃ n, ∀ fuel, w.store.fuel.remaining ≤ fuel.remaining →
      exec op f (w.withFuel fuel) = (exec op f w).withFuel (fuel.burn n) := by
  by_cases hloop : ∃ t, op = .loop t
  · obtain ⟨t, rfl⟩ := hloop
    rcases check_withFuel f w with ⟨g, w', hout⟩ | hsame
    · exact .inl ⟨g, w', by simp only [exec, hout]⟩
    · refine .inr ⟨0, fun fuel hle => ?_⟩
      simp only [exec, hsame fuel hle]
      cases f.check w with
      | next g w' => simp only [Outcome.withFuel, CodeFrame.blockType_withFuel, Fuel.burn_zero]; rfl
      | trap | call | exit => rfl
  · obtain ⟨n, hn⟩ := exec_withFuel f w (not_exists.mp hloop)
    exact .inr ⟨n, fun fuel _ => hn fuel⟩

/-- A frame that was entered burns what it owes, as far as the store gets to know of it, and carries
out an instruction. -/
theorem CodeFrame.step_of_entered (h : f.entered) :
    ∃ op g n, ∀ w, f.step w = exec op g (w.mapFuel (·.burn n)) := by
  simp only [CodeFrame.step, h, Bool.not_true, Bool.false_eq_true, if_false]
  cases (f.code.ops.getD f.pc .unreachable).saves with
  | true => exact ⟨_, _, _, fun _ => rfl⟩
  | false => exact ⟨_, _, 0, fun _ => rfl⟩

/-- A step of code traps for want of fuel, or it does the same with more fuel, at the same cost. -/
theorem frameStep_uniform : (∃ g w', f.step w = .trap .outOfFuel g w') ∨
    ∃ n, ∀ fuel, w.store.fuel.remaining ≤ fuel.remaining →
      f.step (w.withFuel fuel) = (f.step w).withFuel (fuel.burn n) := by
  by_cases hentered : f.entered
  · obtain ⟨op, g, k, hstep⟩ := f.step_of_entered hentered
    rw [hstep]
    rcases exec_uniform g (w.mapFuel (·.burn k)) op with hout | ⟨n, hn⟩
    · exact .inl hout
    · refine .inr ⟨k + n, fun fuel hle => ?_⟩
      rw [hstep, ← Fuel.burn_burn]
      exact hn _ (Fuel.remaining_burn_mono hle k)
  · simp only [CodeFrame.step, hentered, Bool.not_false, if_true]
    rcases check_withFuel f.reckon w with ⟨g, w', hout⟩ | hsame
    · exact .inl ⟨g, w', by rw [hout]⟩
    · refine .inr ⟨0, fun fuel hle => ?_⟩
      rw [hsame fuel hle]
      cases f.reckon.check w <;> rfl

end

/-! ## Calls -/

namespace Machine

/-- The machine with other fuel. -/
def withFuel (fuel : Fuel) (m : Machine) : Machine := { m with world := m.world.withFuel fuel }

section
variable (fuel : Fuel) (m : Machine)

@[simp] theorem world_withFuel : (m.withFuel fuel).world = m.world.withFuel fuel := rfl

@[simp] theorem withFuel_self : m.withFuel m.world.store.fuel = m := rfl

theorem popActivation_withFuel :
    (m.withFuel fuel).popActivation = m.popActivation.withFuel fuel := by
  obtain ⟨w, stack, control, used⟩ := m
  cases stack <;> rfl

theorem enterWasi_withFuel (func : Wasi.Func) (args : List StoreVal)
    (caller : Option InstanceAddr) :
    (m.withFuel fuel).enterWasi func args caller =
      (m.enterWasi func args caller).withFuel fuel := by
  simp only [enterWasi, world_withFuel, getExport_withFuel]
  cases (caller.bind fun c => m.world.getExport c "memory").bind Item.memory? with
  | none => rfl
  | some addr =>
      dsimp only [memory_withFuel, store_withFuel, shared_withFuel]
      obtain ⟨r, guest⟩ := func.run (args.map Val.toBits)
        ⟨m.world.memory addr, m.world.store.wasi, m.world.shared.process, m.world.shared.files⟩
      cases r <;> rfl

theorem enter_withFuel (func : FuncAddr) (args : List StoreVal) (caller : Option InstanceAddr) :
    (m.withFuel fuel).enter func args caller = (m.enter func args caller).withFuel fuel := by
  simp only [enter, world_withFuel, store_withFuel]
  cases m.world.store.funcs[func]? with
  | none => rfl
  | some f =>
      obtain ⟨type, body⟩ := f
      cases body with
      | code owner code =>
          dsimp only
          rw [apply_ite (withFuel fuel)]
          rfl
      | host ops =>
          dsimp only
          rw [holdAll_withFuel, revealAll_withFuel]
          rfl
      | command module imports entry =>
          dsimp only
          rw [holdAll_withFuel, instantiate_withFuel]
          obtain ⟨r, w'⟩ := (m.world.holdAll args).instantiate module imports
          cases r with
          | ok owner => rfl
          | error c =>
              dsimp only
              rw [unholdAll_withFuel]
              rfl
      | wasi f => exact enterWasi_withFuel fuel m f args caller
      | idle => rfl

/-! ## Host functions -/

end

end Machine

section
variable (fuel : Fuel) (h : HostFrame) (w : World)

namespace HostFrame

@[simp] theorem export?_withFuel (name : String) :
    h.export? (w.withFuel fuel) name = h.export? w name := rfl

@[simp] theorem putResult_withFuel (i : Nat) (v : HostVal) :
    h.putResult i v (w.withFuel fuel) =
      ((h.putResult i v w).1, (h.putResult i v w).2.withFuel fuel) := by
  simp only [putResult, discard_withFuel]
  cases h.results[i]? <;> rfl

@[simp] theorem setResult_withFuel (i : Nat) (v : HostVal) :
    h.setResult i v (w.withFuel fuel) =
      ((h.setResult i v w).1, (h.setResult i v w).2.withFuel fuel) := by
  unfold setResult
  cases v.foreign? <;> simp

@[simp] theorem close_withFuel : h.close (w.withFuel fuel) = (h.close w).withFuel fuel := by
  simp [close]

end HostFrame

end

/-- Whether an operation reads the fuel or adds to it. -/
def HostOp.mindsFuel : HostOp → Bool
  | .fuel | .addFuel _ => true
  | _ => false

namespace Machine

section
variable (fuel : Fuel) (m : Machine) (h : HostFrame) (rest : List Activation)

theorem leaveHost_withFuel : (m.withFuel fuel).leaveHost h = (m.leaveHost h).withFuel fuel := by
  unfold leaveHost
  rw [world_withFuel, HostFrame.close_withFuel]
  exact popActivation_withFuel fuel { m with world := h.close m.world }

theorem failHost_withFuel (t : Trap) :
    (m.withFuel fuel).failHost t h = (m.failHost t h).withFuel fuel := by
  unfold failHost
  rw [leaveHost_withFuel]
  rfl

theorem acceptResults_withFuel (w : World) (ts : List ValType) (vs : List HostVal) :
    acceptResults ts vs (w.withFuel fuel) = ((acceptResults ts vs w).1,
      (acceptResults ts vs w).2.1, (acceptResults ts vs w).2.2.withFuel fuel) := by
  induction ts generalizing vs w with
  | nil => rfl
  | cons t ts ih =>
      cases vs with
      | nil => rfl
      | cons v vs =>
          by_cases ht : v.type = t <;> simp [acceptResults, ht, ih]

theorem finishHost_withFuel : (m.withFuel fuel).finishHost h = (m.finishHost h).withFuel fuel := by
  simp only [finishHost, world_withFuel, acceptResults_withFuel]
  obtain ⟨bad, vals, w'⟩ := acceptResults h.type.results h.results m.world
  cases bad with
  | some b =>
      dsimp only
      rw [unholdAll_withFuel]
      exact failHost_withFuel fuel { m with world := w'.unholdAll vals } h _
  | none =>
      dsimp only
      rw [exposeAll_withFuel, unholdAll_withFuel]
      exact congrArg (giveBack vals) (leaveHost_withFuel fuel
        { m with world := (w'.exposeAll vals).unholdAll vals } h)

theorem afterFailure_withFuel (e : Failure) (catches : Bool) :
    (m.withFuel fuel).afterFailure e catches h rest =
      (m.afterFailure e catches h rest).withFuel fuel := by
  cases catches
  · exact failHost_withFuel fuel m h _
  · rfl

theorem hostCall_withFuel (func : FuncAddr) (args : List HostVal) (result : Option Nat)
    (catches : Bool) : (m.withFuel fuel).hostCall func args result catches h rest =
      (m.hostCall func args result catches h rest).withFuel fuel := by
  simp only [hostCall, world_withFuel, show (m.world.withFuel fuel).funcType func =
    m.world.funcType func from rfl, acceptAll_withFuel, exposeAll_withFuel]
  cases checkArgs (m.world.funcType func) args with
  | error e => exact afterFailure_withFuel fuel m h rest _ _
  | ok u => exact enter_withFuel fuel { m with world := _, stack := _ } func _ none

-- The two operations on a byte have an equation each in which nothing but the value of an access is
-- looked at: with the `match` of the definition the kernel would compute the bounds of the memory.

theorem hostOp_peek (name : String) (addr i : Nat) :
    m.hostOp (.peek name addr i) h rest =
      ((h.export? m.world name).bind Item.memory?).elim
        (m.failHost (.ofText "caller has no memory") h) fun a =>
          if twoTo 31 ≤ h.argBits addr then m.failHost (.ofText "negative address") h
          else (m.world.readMemory a (h.argBits addr) 1).elim
            (m.failHost (.ofText "address out of bounds") h) fun bytes =>
              m.onHost (h.putResult i (.ofBits .i32 (Memory.number bytes)) m.world).1 rest
                (h.putResult i (.ofBits .i32 (Memory.number bytes)) m.world).2 := by
  rw [hostOp]
  split
  · rename_i hl
    rw [show (h.export? m.world name).bind Item.memory? = none from hl, Option.elim_none]
  · rename_i a hl
    rw [show (h.export? m.world name).bind Item.memory? = some a from hl, Option.elim_some]
    split
    · rfl
    · split <;> rename_i hr
      · rw [hr, Option.elim_some]
      · rw [hr, Option.elim_none]

theorem hostOp_poke (name : String) (addr value : Nat) :
    m.hostOp (.poke name addr value) h rest =
      ((h.export? m.world name).bind Item.memory?).elim
        (m.failHost (.ofText "caller has no memory") h) fun a =>
          if twoTo 31 ≤ h.argBits addr then m.failHost (.ofText "negative address") h
          else (m.world.writeMemory a (h.argBits addr) [UInt8.ofNat (h.argBits value)]).elim
            (m.failHost (.ofText "address out of bounds") h) (m.onHost h rest) := by
  rw [hostOp]
  split
  · rename_i hl
    rw [show (h.export? m.world name).bind Item.memory? = none from hl, Option.elim_none]
  · rename_i a hl
    rw [show (h.export? m.world name).bind Item.memory? = some a from hl, Option.elim_some]
    split
    · rfl
    · split <;> rename_i hr
      · rw [hr, Option.elim_some]
      · rw [hr, Option.elim_none]

theorem hostOp_withFuel {op : HostOp} (hop : op.mindsFuel = false) :
    (m.withFuel fuel).hostOp op h rest = (m.hostOp op h rest).withFuel fuel := by
  have hfail (text : String) := failHost_withFuel fuel m h (.ofText text)
  cases op with
  | fuel | addFuel n => cases hop
  | set i v | copy i k =>
      simp only [hostOp, world_withFuel, HostFrame.setResult_withFuel]
      rfl
  | add i =>
      simp only [hostOp, world_withFuel, HostFrame.putResult_withFuel]
      rfl
  | trap text => exact failHost_withFuel fuel m h _
  | log | logArgs | logResults | kindOf | branch | interrupt => rfl
  | gc =>
      simp only [hostOp, world_withFuel]
      rw [show (m.withFuel fuel).liveBoxes = m.liveBoxes from rfl, collect_withFuel]
      rfl
  | peek name addr i =>
      rw [hostOp_peek, hostOp_peek, world_withFuel, HostFrame.export?_withFuel]
      cases (h.export? m.world name).bind Item.memory? with
      | none => exact hfail _
      | some a =>
          rw [Option.elim_some, Option.elim_some, readMemory_withFuel, apply_ite (withFuel fuel)]
          refine if_congr Iff.rfl (hfail _) ?_
          cases m.world.readMemory a (h.argBits addr) 1 with
          | none => exact hfail _
          | some bytes =>
              rw [Option.elim_some, HostFrame.putResult_withFuel]
              rfl
  | poke name addr value =>
      rw [hostOp_poke, hostOp_poke, world_withFuel, HostFrame.export?_withFuel]
      cases (h.export? m.world name).bind Item.memory? with
      | none => exact hfail _
      | some a =>
          rw [Option.elim_some, Option.elim_some, writeMemory_withFuel, apply_ite (withFuel fuel)]
          refine if_congr Iff.rfl (hfail _) ?_
          cases m.world.writeMemory a (h.argBits addr) [UInt8.ofNat (h.argBits value)] with
          | none => exact hfail _
          | some w => rfl
  | grow name delta =>
      simp only [hostOp, world_withFuel, HostFrame.export?_withFuel, growMemory_withFuel]
      cases (h.export? m.world name).bind Item.memory? with
      | none => exact hfail _
      | some a =>
          dsimp only
          cases m.world.growMemory a delta with
          | error e => exact hfail _
          | ok r => rfl
  | size name =>
      simp only [hostOp, world_withFuel, HostFrame.export?_withFuel]
      cases (h.export? m.world name).bind Item.memory? with
      | none => exact hfail _
      | some a => rfl
  | setGlobal name v =>
      simp only [hostOp, world_withFuel, HostFrame.export?_withFuel, setGlobal_withFuel]
      cases (h.export? m.world name).bind Item.global? with
      | none => exact hfail _
      | some a =>
          dsimp only
          cases m.world.setGlobal a v with
          | error e => exact hfail _
          | ok w => rfl
  | call name args result catches =>
      simp only [hostOp, world_withFuel, HostFrame.export?_withFuel]
      cases (h.export? m.world name).bind Item.func? with
      | none => exact hfail _
      | some func => exact hostCall_withFuel fuel m h rest func _ result catches

theorem hostResume_withFuel (vals : List StoreVal) (p : PendingCall) :
    (m.withFuel fuel).hostResume vals p h rest =
      (m.hostResume vals p h rest).withFuel fuel := by
  simp only [hostResume, world_withFuel, revealAll_withFuel, log_withFuel]
  obtain ⟨results, w'⟩ := m.world.revealAll vals
  have hrest (r : HostFrame × World) :
      (m.withFuel fuel).onHost r.1 rest
          (((r.2.withFuel fuel).discardAll results).unholdAll p.held) =
        (m.onHost r.1 rest ((r.2.discardAll results).unholdAll p.held)).withFuel fuel := by
    simp only [discardAll_withFuel, unholdAll_withFuel]
    rfl
  cases p.result with
  | none => exact hrest ({ h with pending := none }, w'.log (.values results))
  | some i =>
      cases results with
      | nil => exact hrest ({ h with pending := none }, w'.log (.values []))
      | cons v vs =>
          dsimp only
          rw [HostFrame.setResult_withFuel]
          exact hrest (HostFrame.setResult i v { h with pending := none }
            (w'.log (.values (v :: vs))))

theorem hostFault_withFuel (f : Fault) :
    (m.withFuel fuel).hostFault f h rest = (m.hostFault f h rest).withFuel fuel := by
  simp only [hostFault, world_withFuel]
  cases h.pending with
  | none => exact leaveHost_withFuel fuel m h
  | some p =>
      dsimp only
      rw [unholdAll_withFuel]
      exact afterFailure_withFuel fuel { m with world := m.world.unholdAll p.held } _ rest _ _

/-! ## Commands -/

theorem commandStep_withFuel (c : CommandFrame) :
    (m.withFuel fuel).commandStep c rest = (m.commandStep c rest).withFuel fuel := by
  simp only [commandStep, world_withFuel, startFunc?_withFuel]
  cases m.world.startFunc? c.owner with
  | none => rfl
  | some func =>
      exact enter_withFuel fuel { m with stack := .command { c with stage := .starting } :: rest }
        func [] (some c.owner)

theorem commandResume_withFuel (vals : List StoreVal) (c : CommandFrame) :
    (m.withFuel fuel).commandResume vals c rest =
      (m.commandResume vals c rest).withFuel fuel := by
  simp only [commandResume, world_withFuel, exposeAll_withFuel, unholdAll_withFuel,
    getExport_withFuel]
  rw [apply_ite (withFuel fuel)]
  congr 1
  · exact congrArg (giveBack vals) (popActivation_withFuel fuel
      { m with world := (m.world.exposeAll vals).unholdAll c.held })
  · cases (m.world.getExport c.owner c.entry).bind Item.func? with
    | none => rfl
    | some func => exact enter_withFuel fuel { m with world := _, stack := _ } func c.held none

end

/-! ## Steps -/

/-- Whether the next thing to be done is an operation of a host function that reads the fuel or adds
to it. -/
def asksForFuel (m : Machine) : Bool :=
  match m.stack, m.control with
  | .host h :: _, .run => h.todo.head?.any HostOp.mindsFuel
  | _, _ => false

/-- Whether the machine is unwound because the fuel is at its end. -/
def isExhausted (m : Machine) : Bool :=
  match m.control with
  | .fault f => f.trap?.any Trap.isOutOfFuel
  | .run | .back _ => false

/-- What a step leads to, with other fuel. -/
def refueled (fuel : Fuel) : Machine ⊕ RunResult → Machine ⊕ RunResult :=
  Sum.map (withFuel fuel) (Prod.map id (World.withFuel fuel))

/-- A step of a host function or a command that has nothing to do with fuel. -/
theorem step_withFuel {m : Machine} (h : m.asksForFuel = false)
    (hcode : ∀ f rest, m.stack = .code f :: rest → m.control ≠ .run) (fuel : Fuel) :
    (m.withFuel fuel).step = refueled fuel m.step := by
  obtain ⟨w, stack, control, used⟩ := m
  cases stack with
  | nil => cases control <;> rfl
  | cons a rest =>
      cases a with
      | code f =>
          cases control with
          | run => exact absurd rfl (hcode f rest rfl)
          | back vals => rfl
          | fault e => rfl
      | host hst =>
          cases control with
          | run =>
              refine congrArg Sum.inl ?_
              cases htodo : hst.todo with
              | nil =>
                  simp only [hostStep, htodo]
                  exact finishHost_withFuel fuel ⟨w, _, _, _⟩ hst
              | cons op todo =>
                  have hop : op.mindsFuel = false := by simpa [asksForFuel, htodo] using h
                  simp only [hostStep, htodo]
                  exact hostOp_withFuel fuel ⟨w, _, _, _⟩ { hst with todo } rest hop
          | back vals =>
              simp only [withFuel, step]
              cases hst.pending with
              | none => rfl
              | some p =>
                  exact congrArg Sum.inl (hostResume_withFuel fuel
                    ⟨w, .host hst :: rest, .back vals, used⟩ hst rest vals p)
          | fault e => exact congrArg Sum.inl (hostFault_withFuel fuel ⟨w, _, _, _⟩ hst rest e)
      | command c =>
          cases control with
          | run => exact congrArg Sum.inl (commandStep_withFuel fuel ⟨w, _, _, _⟩ rest c)
          | back vals => exact congrArg Sum.inl (commandResume_withFuel fuel ⟨w, _, _, _⟩ rest vals c)
          | fault e =>
              simp only [withFuel, step, unholdAll_withFuel]
              rfl

/-- A step that has nothing to do with fuel but to use it up ends in the trap of exhausted fuel, or
it is the same with more fuel, at the same cost. -/
theorem step_uniform {m : Machine} (h : m.asksForFuel = false) :
    (∃ m', m.Steps m' ∧ m'.isExhausted) ∨
      ∃ n, ∀ fuel, m.world.store.fuel.remaining ≤ fuel.remaining →
        (m.withFuel fuel).step = refueled (fuel.burn n) m.step := by
  by_cases hcode : ∀ f rest, m.stack = .code f :: rest → m.control ≠ .run
  · exact .inr ⟨0, fun fuel _ => step_withFuel h hcode fuel⟩
  · obtain ⟨w, stack, control, used⟩ := m
    push Not at hcode
    obtain ⟨f, rest, rfl, rfl⟩ := hcode
    rcases frameStep_uniform f w with ⟨g, w', hout⟩ | ⟨n, hn⟩
    · refine .inl ⟨raise (.code .outOfFuel) ⟨w', .code g :: rest, .run, used⟩, ?_, rfl⟩
      simp only [Steps, step, hout]
    · refine .inr ⟨n, fun fuel hle => ?_⟩
      simp only [withFuel, step, hn fuel hle]
      cases f.step w with
      | next | trap | exit => rfl
      | call func args g w' =>
          exact congrArg Sum.inl
            (enter_withFuel _ ⟨w', .code g :: rest, .run, used⟩ func args (some g.owner))

end Machine

end WasmHost

import WasmHost.Proofs.Machine.Refuel
import WasmHost.Proofs.Machine.Echoes
import WasmHost.Proofs.Machine.Escapes

/-!
# More fuel

A run that has nothing to do with fuel but to use it up takes the same steps with more fuel, to the
same end and at the same cost. What a call counts as consumed is that cost only as far as there was
fuel for it: the end of the fuel is looked for at the entry of a function and at every loop, and what
is used up behind the last of these places is cut off at what is left.
-/

namespace WasmHost

open World

namespace Machine

/-! ## Runs that have nothing to do with fuel -/

/-- No host function reads the fuel, adds to it or catches that it is at its end. -/
structure Unaware (m : Machine) : Prop where
  asks : ∀ m', m.Reaches m' → m'.asksForFuel = false
  catches : ∀ m', m.Reaches m' → m'.isExhausted → m'.stack.all Activation.rethrows

variable {m m' : Machine} {w : World} {r : Except Fault (List StoreVal)}

theorem Unaware.step (h : m.Unaware) (hs : m.Steps m') : m'.Unaware :=
  ⟨fun m'' hr => h.asks m'' (.head hs hr), fun m'' hr => h.catches m'' (.head hs hr)⟩

/-- A machine whose fuel is at its end ends with a trap that says so if nothing catches it. -/
theorem ends_of_isExhausted (h : m.isExhausted) (hr : m.stack.all Activation.rethrows) :
    ∃ f w, m.Ends (.error f, w) ∧ f.trap?.any Trap.isOutOfFuel := by
  obtain ⟨f, hcontrol, hf⟩ : ∃ f, m.control = .fault f ∧ f.trap?.any Trap.isOutOfFuel := by
    unfold isExhausted at h
    split at h
    · exact ⟨_, ‹_›, h⟩
    · cases h
    · cases h
  obtain ⟨t, ht, hout⟩ := (Option.any_eq_true _ _).mp hf
  obtain ⟨f', w, hends, hcarries⟩ :=
    (⟨⟨f, hcontrol, f.carries_of_trap? ht⟩, hr⟩ : m.Unwinding t).ends
  obtain ⟨t', ht', hbare⟩ := hcarries.trap?
  refine ⟨f', w, hends, ?_⟩
  rw [ht', Option.any_some, Trap.isOutOfFuel, (Trap.fields_of_bare hbare).2.2]
  exact hout

/-- A run that did not end for want of fuel is the same with more fuel, at the same cost. -/
theorem run_withFuel {limit : Nat} (h : m.Unaware) (hrun : m.run limit = some (r, w))
    (ended : ∀ f, r = .error f → f.trap?.any Trap.isOutOfFuel = false) :
    ∃ n, ∀ fuel, m.world.store.fuel.remaining ≤ fuel.remaining →
      (m.withFuel fuel).run limit = some (r, w.withFuel (fuel.burn n)) := by
  induction limit generalizing m with
  | zero => cases hrun
  | succ limit ih =>
      rcases step_uniform (h.asks m .refl) with ⟨m', hstep, hout⟩ | ⟨n, hn⟩
      · -- nothing catches the trap of exhausted fuel, so the run would have ended with it
        obtain ⟨f, w', hends, hf⟩ := ends_of_isExhausted hout (h.catches m' (.single hstep) hout)
        cases (hends.of_steps hstep).unique ⟨_, hrun⟩
        rw [ended f rfl] at hf
        cases hf
      · have hself := hn m.world.store.fuel (Nat.le_refl _)
        rw [withFuel_self] at hself
        cases hs : m.step with
        | inr r' =>
            simp only [run, hs, Option.some.injEq] at hrun
            subst hrun
            exact ⟨n, fun fuel hle => by simp only [run, hn fuel hle, hs]; rfl⟩
        | inl m' =>
            rw [run_succ hs] at hrun
            obtain ⟨k, hk⟩ := ih (h.step hs) hrun
            -- the step itself left what there was less its cost
            have hleft : m'.world.store.fuel = m.world.store.fuel.burn n := by
              rw [hs] at hself
              exact congrArg (·.world.store.fuel) (Sum.inl.inj hself)
            refine ⟨n + k, fun fuel hle => ?_⟩
            have hsame : (m.withFuel fuel).step = .inl (m'.withFuel (fuel.burn n)) := by
              rw [hn fuel hle, hs]
              rfl
            rw [run_succ hsame, ← Fuel.burn_burn]
            exact hk _ (hleft ▸ Fuel.remaining_burn_mono hle n)

/-! ## Runs that are followed to their end -/

/-- Whether a machine ends within a number of steps and all machines on the way pass a check. -/
def allAlong (passes : Machine → Bool) : Nat → Machine → Bool
  | 0, _ => false
  | n + 1, m => passes m && match m.step with
    | .inl m' => allAlong passes n m'
    | .inr _ => true

theorem passes_of_allAlong {passes : Machine → Bool} {n : Nat} (h : m.allAlong passes n)
    (hr : m.Reaches m') : passes m' := by
  induction n generalizing m with
  | zero => cases h
  | succ n ih =>
      obtain ⟨hm, hrest⟩ := Bool.and_eq_true_iff.mp h
      rcases hr.cases_head with rfl | ⟨m₁, hs, hr⟩
      · exact hm
      · rw [show m.step = .inl m₁ from hs] at hrest
        exact ih hrest hr

/-- Whether nothing is done with fuel at a machine. -/
def isUnaware (m : Machine) : Bool :=
  !m.asksForFuel && (!m.isExhausted || m.stack.all Activation.rethrows)

theorem Unaware.of_allAlong {n : Nat} (h : m.allAlong isUnaware n) : m.Unaware := by
  constructor
  · intro m' hr
    have hpass := passes_of_allAlong h hr
    simp only [isUnaware, Bool.and_eq_true, Bool.not_eq_true'] at hpass
    exact hpass.1
  · intro m' hr hout
    have hpass := passes_of_allAlong h hr
    simp only [isUnaware, hout, Bool.not_true, Bool.false_or, Bool.and_eq_true] at hpass
    exact hpass.2

end Machine

/-! ## Calls -/

namespace World

variable {w w' : World} {limit : Nat} {func : FuncAddr} {args : List HostVal}
  {r : Except Failure (List HostVal)}

theorem begin_withFuel (fuel : Fuel) (w : World) (func : FuncAddr) (args : List HostVal) :
    (w.withFuel fuel).begin func args = (w.begin func args).withFuel fuel := by
  simp only [begin, acceptAll_withFuel, exposeAll_withFuel]
  exact Machine.enter_withFuel fuel (Machine.idle _) func _ none

/-- To begin a call takes no fuel. -/
theorem fuel_begin (w : World) (func : FuncAddr) (args : List HostVal) :
    (w.begin func args).world.store.fuel = w.store.fuel :=
  congrArg (·.world.store.fuel) (begin_withFuel w.store.fuel w func args)

/-- A call that did not end for want of fuel is the same with more fuel, at the same cost. -/
theorem callFunc_withFuel (unaware : (w.begin func args).Unaware)
    (run : w.callFunc limit func args = some (r, w'))
    (ended : ∀ t, r = .error (.trap t) → t.isOutOfFuel = false) :
    ∃ cost, ∀ fuel, w.store.fuel.remaining ≤ fuel.remaining →
      (w.withFuel fuel).callFunc limit func args = some (r, w'.withFuel (fuel.burn cost)) := by
  have htype (fuel : Fuel) : (w.withFuel fuel).funcType func = w.funcType func := rfl
  cases hfits : checkArgs (w.funcType func) args with
  | error e =>
      simp only [callFunc, callOr, hfits, Option.some.injEq, Prod.mk.injEq] at run
      obtain ⟨rfl, rfl⟩ := run
      exact ⟨0, fun fuel _ => by simp only [callFunc, callOr, htype, hfits, Fuel.burn_zero]⟩
  | ok u =>
      rw [callFunc_eq_run hfits, Option.map_eq_some_iff] at run
      obtain ⟨⟨r₁, w₁⟩, hrun, hr⟩ := run
      have hended (f : Fault) (hf : r₁ = .error f) : f.trap?.any Trap.isOutOfFuel = false := by
        subst hf
        cases ht : f.trap? with
        | none => rfl
        | some t => exact ended t (by rw [← (Prod.mk.inj hr).1, Fault.failure, ht])
      obtain ⟨cost, hcost⟩ := Machine.run_withFuel unaware hrun hended
      refine ⟨cost, fun fuel hle => ?_⟩
      rw [callFunc_eq_run (by exact hfits), begin_withFuel,
        hcost fuel (by rwa [fuel_begin]), Option.map_some, acceptAll_withFuel]
      cases r₁ with
      | ok vals =>
          obtain ⟨rfl, rfl⟩ := Prod.mk.inj hr
          simp only [revealAll_withFuel, unholdAll_withFuel]
          rfl
      | error f =>
          obtain ⟨rfl, rfl⟩ := Prod.mk.inj hr
          simp only [unholdAll_withFuel]

/-- More fuel never changes what a call comes to. If host functions have nothing to do with fuel, a
call that returns values, or fails for another reason than want of fuel, returns the same values or
fails in the same way with any larger amount, and leaves the same world apart from the fuel. -/
theorem callFunc_same_of_more_fuel {more : Fuel} (unaware : (w.begin func args).Unaware)
    (run : w.callFunc limit func args = some (r, w'))
    (ended : ∀ t, r = .error (.trap t) → t.isOutOfFuel = false)
    (enough : w.store.fuel.remaining ≤ more.remaining) :
    ∃ left, (w.withFuel more).callFunc limit func args = some (r, w'.withFuel left) := by
  obtain ⟨cost, hcost⟩ := callFunc_withFuel unaware run ended
  exact ⟨_, hcost more enough⟩

/-- A store in which the function 1 gives one, and the function 2 is code that calls the function 0,
which is a host function: it calls the function 1 for its result, and catches failures. -/
def catching (fuel : Fuel) : World :=
  let code (index : Nat) (ops : List Wasm.Op) : FuncBody :=
    .code 0 (.make index ⟨[], [.i32]⟩ ⟨[], ops⟩ ⟨0, 0, #[]⟩)
  { store :=
      { engine := { Engine.default 0 with consumesFuel := true }, signal := 0, fuel
        funcs := #[⟨⟨[], [.i32]⟩, .host [.call "g" [] (some 0) true]⟩,
          ⟨⟨[], [.i32]⟩, code 1 [.i32Const 1, .done]⟩, ⟨⟨[], [.i32]⟩, code 2 [.call 0, .done]⟩]
        instances := #[{
          module := .make {} [] {} [], funcs := #[0, 1, 2], globals := #[], tables := #[],
          memories := #[], exports := [("g", .func 1)], droppedElems := #[],
          droppedDatas := #[] }] }
    shared := { files := ⟨[], #[]⟩ } }

/-- Four units are enough for the call of the function 2, and more do not change it. -/
theorem callFunc_same_of_catching : ∃ w' left,
    (catching ⟨4, 4⟩).callFunc 20 2 [] = some (.ok [.i32 1], w') ∧
      (catching ⟨9, 9⟩).callFunc 20 2 [] = some (.ok [.i32 1], w'.withFuel left) := by
  have unaware : ((catching ⟨4, 4⟩).begin 2 []).Unaware := .of_allAlong (n := 20) rfl
  have run : ∃ w', (catching ⟨4, 4⟩).callFunc 20 2 [] = some (.ok [.i32 1], w') := ⟨_, rfl⟩
  obtain ⟨w', run⟩ := run
  have enough : (catching ⟨4, 4⟩).store.fuel.remaining ≤ (⟨9, 9⟩ : Fuel).remaining := by decide
  obtain ⟨left, hmore⟩ := callFunc_same_of_more_fuel unaware run (by simp) enough
  exact ⟨w', left, run, hmore⟩

/-- With two units the function 1 traps for want of fuel. The host function catches that and gives
its zero, though no host function reads the fuel or adds to it. So the call returns other values than
with four units. -/
theorem callFunc_differs_of_catching :
    (catching ⟨2, 2⟩).usesFuel ∧
      (∀ m, ((catching ⟨2, 2⟩).begin 2 []).Reaches m ∨ ((catching ⟨4, 4⟩).begin 2 []).Reaches m →
        m.asksForFuel = false) ∧
      ((catching ⟨2, 2⟩).callFunc 20 2 []).map Prod.fst = some (.ok [.i32 0]) ∧
      (((catching ⟨2, 2⟩).withFuel ⟨4, 4⟩).callFunc 20 2 []).map Prod.fst =
        some (.ok [.i32 1]) := by
  have hasks {m m' : Machine} (h : m.allAlong (fun m => !m.asksForFuel) 20) (hr : m.Reaches m') :
      m'.asksForFuel = false := (Bool.not_eq_true' _).mp (Machine.passes_of_allAlong h hr)
  exact ⟨rfl, fun m hm => hm.elim (hasks rfl) (hasks rfl), rfl, rfl⟩

end World

end WasmHost

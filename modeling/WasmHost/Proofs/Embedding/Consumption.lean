import WasmHost.Proofs.Embedding.Fuel
import WasmHost.Proofs.Machine.FuelFree

/-!
# What a call counts as consumed

In a store that an embedder can come to, no more fuel is left than was ever added. A call then counts
what it costs as consumed, or all that was left where that is less: code goes on behind the last
place at which the end of the fuel is looked for, whatever is left there.
-/

namespace WasmHost

open World

/-! ## What is left -/

/-- No more is left than was added. -/
def Fuel.IsCounted (f : Fuel) : Prop := f.remaining ≤ f.added

theorem Fuel.IsCounted.add {f : Fuel} (h : f.IsCounted) (n : Nat) : (f.add n).IsCounted := by
  unfold IsCounted Fuel.add at *
  dsimp only
  omega

theorem Fuel.IsCounted.burn {f : Fuel} (h : f.IsCounted) (n : Nat) : (f.burn n).IsCounted :=
  Nat.le_trans (Nat.sub_le _ _) h

theorem World.Tallies.isCounted {w w' : World} {events : List Event} (step : w.Tallies events w')
    (h : w.store.fuel.IsCounted) : w'.store.fuel.IsCounted := by
  have hsame (hfuel : w'.store.fuel = w.store.fuel) : w'.store.fuel.IsCounted := hfuel ▸ h
  have hmet : w.meetDeadline.2.store.fuel = w.store.fuel :=
    congrArg (·.2.store.fuel) (meetDeadline_withFuel w.store.fuel w)
  cases step with
  | quiet same => exact hsame (congrArg (·.fuel) same)
  | renewed _ same => exact hsame ((congrArg (·.fuel) same).trans hmet)
  | interrupted _ same => exact hsame ((congrArg (·.fuel) same).trans hmet)
  | requested signal same => exact hsame (congrArg (·.fuel) same)
  | burned n same =>
      rw [show w'.store.fuel = w.store.fuel.burn n from congrArg (·.fuel) same]
      exact h.burn n
  | added n _ same =>
      rw [show w'.store.fuel = w.store.fuel.add n from congrArg (·.fuel) same]
      exact h.add n

namespace Embedding

/-- In no store of any run is more fuel left than was added. -/
theorem Run.isCounted {log : List Event} {e : Embedding} (h : Run log e) {s : Store}
    (hs : s ∈ e.stores) : s.fuel.IsCounted := by
  induction h generalizing s with
  | start files => cases hs
  | @step log events e e' before step ih =>
      rcases step.tallies.store_cases before.numbered hs with
        ⟨engine, rfl, -, -⟩ | ⟨s₀, hs₀, htally⟩ | ⟨hs₀, -⟩
      · exact Nat.le_refl 0
      · exact htally.isCounted (ih hs₀)
      · exact ih hs₀

end Embedding

/-! ## What a call costs -/

namespace World

variable {w w' : World} {limit : Nat} {func : FuncAddr} {args vals : List HostVal}

/-- A call returns values, and `n` more units count as consumed after it than before. -/
def Spends (limit : Nat) (func : FuncAddr) (args vals : List HostVal) (n : Nat) (w : World) : Prop :=
  ∃ w' c, w.callFunc limit func args = some (.ok vals, w') ∧
    w.fuelConsumed = some c ∧ w'.fuelConsumed = some (c + n)

theorem Spends.of_burn {n : Nat} (uses : w.usesFuel) (counted : w.store.fuel.IsCounted)
    (run : w.callFunc limit func args = some (.ok vals, w'))
    (burned : w'.store.fuel = w.store.fuel.burn n) :
    w.Spends limit func args vals (min n w.store.fuel.remaining) := by
  have huses : w'.usesFuel := by
    rw [usesFuel, (alters_callOr run).extends_.engine]
    exact uses
  refine ⟨w', _, run, if_pos uses, ?_⟩
  unfold Fuel.IsCounted at counted
  simp only [fuelConsumed, huses, if_true, burned, Fuel.consumed, Fuel.burn, Option.some.injEq]
  omega

/-- A call has a cost of its own, whatever fuel there is, if no host function reads the fuel, adds to
it or catches that it is at its end. The call returns the same values with any larger amount, and what
it counts as consumed is the cost, or all that was left where that is less. So a call that costs more
than there is can succeed, and with two amounts it counts differently just when with the larger one
it counts more than the smaller. -/
theorem spends_ne_iff (uses : w.usesFuel) (counted : w.store.fuel.IsCounted)
    (asks : ∀ m, (w.begin func args).Reaches m → m.asksForFuel = false)
    (run : w.callFunc limit func args = some (.ok vals, w')) :
    (∃ m, (w.begin func args).Reaches m ∧ m.isExhausted ∧ ¬m.stack.all Activation.rethrows) ∨
      ∃ cost, ∀ more : Fuel, more.IsCounted → w.store.fuel.remaining ≤ more.remaining →
        ∃ n n', w.Spends limit func args vals n ∧
          (w.withFuel more).Spends limit func args vals n' ∧
          n = min cost w.store.fuel.remaining ∧ n' = min cost more.remaining ∧
          (n ≠ n' ↔ w.store.fuel.remaining < n') := by
  refine or_iff_not_imp_left.mpr fun hcaught => ?_
  have unaware : (w.begin func args).Unaware :=
    ⟨asks, fun m hm hout => by_contra fun hr => hcaught ⟨m, hm, hout, hr⟩⟩
  obtain ⟨cost, hcost⟩ := callFunc_withFuel unaware run (by simp)
  have hburned : w'.store.fuel = w.store.fuel.burn cost := by
    have hself := hcost w.store.fuel (Nat.le_refl _)
    rw [withFuel_self, run, Option.some.injEq, Prod.mk.injEq] at hself
    exact congrArg (·.store.fuel) hself.2
  refine ⟨cost, fun more hmore hle => ⟨_, _, .of_burn uses counted run hburned,
    .of_burn uses hmore (hcost more hle) rfl, rfl, rfl, ?_⟩⟩
  dsimp only [store_withFuel]
  omega

/-- A store with a function that adds one and two. -/
def summing (fuel : Fuel) : World :=
  { store :=
      { engine := Embedding.plainEngine true false, signal := 0, fuel
        funcs := #[⟨⟨[], [.i32]⟩, .code 0 (.make 0 ⟨[], [.i32]⟩
          ⟨[], [.i32Const 1, .i32Const 2, .numeric (.intBinary .w32 .add), .done]⟩ ⟨0, 0, #[]⟩)⟩]
        instances := #[{
          module := .make {} [] {} [], funcs := #[0], globals := #[], tables := #[],
          memories := #[], exports := [], droppedElems := #[], droppedDatas := #[] }] }
    shared := { files := ⟨[], #[]⟩ } }

/-- The call costs four units. With two of them it succeeds and counts two. -/
theorem spends_of_summing : ∃ cost n n', cost = 4 ∧ n = 2 ∧ n' = 4 ∧
    (summing ⟨2, 2⟩).Spends 10 0 [] [.i32 3] n ∧
      ((summing ⟨2, 2⟩).withFuel ⟨100, 100⟩).Spends 10 0 [] [.i32 3] n' ∧
      (n ≠ n' ↔ 2 < n') := by
  have leaves : (summing ⟨2, 2⟩).LeavesFuel := fun f hf => by
    rw [List.mem_singleton.mp (List.mem_toArray.mp hf)]
    rfl
  have unaware := leaves.unaware 0 []
  have run : ∃ w', (summing ⟨2, 2⟩).callFunc 10 0 [] = some (.ok [.i32 3], w') := ⟨_, rfl⟩
  obtain ⟨w', run⟩ := run
  have counted : (summing ⟨2, 2⟩).store.fuel.IsCounted := Nat.le_refl 2
  obtain ⟨m, hm, hout, hcaught⟩ | ⟨cost, hcost⟩ := spends_ne_iff rfl counted unaware.asks run
  · exact absurd (unaware.catches m hm hout) hcaught
  obtain ⟨n, n', hn, hn', hless, hmore, hiff⟩ :=
    hcost ⟨100, 100⟩ (Nat.le_refl 100) (by decide)
  replace hless : n = min cost 2 := hless
  replace hmore : n' = min cost 100 := hmore
  have hfour : n' = 4 := by
    obtain ⟨w'', c, hrun, hc, hc'⟩ := hn'
    replace hc : some 0 = some c := hc
    cases hc
    have hall : (((summing ⟨2, 2⟩).withFuel ⟨100, 100⟩).callFunc 10 0 []).bind
      (·.2.fuelConsumed) = some 4 := rfl
    rw [hrun, Option.bind_some, hc', Option.some.injEq] at hall
    omega
  exact ⟨cost, n, n', by omega, by omega, hfour, hn, hn', hiff⟩

end World

end WasmHost

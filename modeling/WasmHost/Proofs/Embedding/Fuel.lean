import Mathlib.Algebra.GroupWithZero.Nat
import WasmHost.Proofs.Embedding.Accounts

/-!
# Where fuel goes

The log of a run says which fuel was added to a store and which was used up. As long as all that was
added fits a word, the two counts of a store are exactly what the log says: what was consumed and
what is left add up to what was added. Beyond that the counts are cut off, each on its own, and the
fuel that counts as consumed can go down.
-/

namespace WasmHost

open World

/-! ## What the log says -/

namespace Event

/-- The fuel that an event adds to a store. -/
def fuelAdded (id : SignalId) : Event → Nat
  | added s n => if s = id then n else 0
  | _ => 0

/-- The fuel of a store that an event uses up. -/
def fuelBurned (id : SignalId) : Event → Nat
  | burned s n => if s = id then n else 0
  | _ => 0

theorem fuel_of_store?_ne {ev : Event} {id : SignalId} (h : ev.store? ≠ some id) :
    ev.fuelAdded id = 0 ∧ ev.fuelBurned id = 0 := by
  cases ev with
  | added s n | burned s n =>
      have hne : s ≠ id := fun heq => h (congrArg some heq)
      simp [fuelAdded, fuelBurned, hne]
  | created | requested | interrupted => exact ⟨rfl, rfl⟩

end Event

/-- All the fuel that was added to a store. -/
def fuelAdded (id : SignalId) (log : List Event) : Nat := (log.map (·.fuelAdded id)).sum

/-- All the fuel of a store that code used up. -/
def fuelBurned (id : SignalId) (log : List Event) : Nat := (log.map (·.fuelBurned id)).sum

@[simp] theorem fuelAdded_append (id : SignalId) (events log : List Event) :
    fuelAdded id (events ++ log) = fuelAdded id events + fuelAdded id log := by
  simp [fuelAdded]

@[simp] theorem fuelBurned_append (id : SignalId) (events log : List Event) :
    fuelBurned id (events ++ log) = fuelBurned id events + fuelBurned id log := by
  simp [fuelBurned]

/-- What no event of the log is about has neither gained nor used fuel. -/
theorem fuel_of_unmentioned {id : SignalId} {log : List Event}
    (h : ∀ ev ∈ log, ev.store? ≠ some id) : fuelAdded id log = 0 ∧ fuelBurned id log = 0 := by
  induction log with
  | nil => exact ⟨rfl, rfl⟩
  | cons ev log ih =>
      obtain ⟨hadded, hburned⟩ := Event.fuel_of_store?_ne (h ev List.mem_cons_self)
      obtain ⟨hadded', hburned'⟩ := ih fun ev hev => h ev (List.mem_cons_of_mem _ hev)
      simp only [fuelAdded, fuelBurned, List.map_cons, List.sum_cons] at hadded' hburned' ⊢
      exact ⟨by rw [hadded, hadded'], by rw [hburned, hburned']⟩

/-! ## A call of a function that does nothing -/

/-- The binary of a module with one function that does nothing. -/
def emptyFunctionBinary : Wasm.Bytes :=
  [0x00, 0x61, 0x73, 0x6d, 0x01, 0x00, 0x00, 0x00, 0x01, 0x04, 0x01, 0x60, 0x00, 0x00, 0x03, 0x02,
    0x01, 0x00, 0x0a, 0x04, 0x01, 0x02, 0x00, 0x0b]

/-- The body of the function. -/
def emptyCode : FuncCode := .make 0 ⟨[], []⟩ ⟨[], [.done]⟩ ⟨22, 22, #[23]⟩

/-- The module. -/
def emptyFunction : CompiledModule :=
  { compatibility := ({} : EngineOptions).compatibility, binary := emptyFunctionBinary
    module := { types := [⟨[], []⟩], funcs := [0], codes := [⟨[], [.done]⟩] }
    codes := #[emptyCode] }

theorem isCompiled_emptyFunction : emptyFunction.IsCompiled :=
  ⟨{}, emptyFunctionBinary, rfl⟩

namespace Embedding

/-- An embedding with one store. -/
def alone (w : World) (task : Option Task := none) : Embedding :=
  { shared := w.shared, sites := [⟨w.store, task⟩] }

theorem Step.alone {events : List Event} {w w' : World} {t t' : Option Task}
    (act : World.Act (· ∈ (alone w t).owned) w t events [] w' t') :
    (alone w t).Step events (Embedding.alone w' t') := by
  have hsites : (Embedding.alone w t).sites = [] ++ ⟨w.store, t⟩ :: [] := rfl
  exact .act hsites act

theorem Run.act {log events : List Event} {w w' : World} {t t' : Option Task}
    (h : Run log (alone w t)) (act : World.Act (· ∈ (alone w t).owned) w t events [] w' t') :
    Run (events ++ log) (alone w' t') := h.step (.alone act)

theorem Run.call {log : List Event} {w : World} (h : Run log (alone w)) (func : FuncAddr) (t : Task)
    (fits : checkArgs (w.funcType func) [] = .ok ())
    (ht : t.held = [] ∧ t.answers = true)
    (begun : (Machine.idle w).enter func [] none = t.machine w) : Run log (alone w (some t)) := by
  have hrefs : ∀ r ∈ ([] : List HostVal).filterMap Val.foreign?, r ∈ (alone w).owned := by simp
  have hact := h.act (.call fits hrefs begun)
  obtain ⟨stack, control, used, held, answers⟩ := t
  obtain ⟨rfl, rfl⟩ := ht
  exact hact

theorem Run.work {log : List Event} {w : World} {t : Task} (h : Run log (alone w (some t)))
    (w' : World) (t' : Task) (ht : t'.held = t.held ∧ t'.answers = t.answers)
    (step : (t.machine w).step = .inl (t'.machine w')) :
    Run ((t.machine w).events (t'.machine w') ++ log) (alone w' (some t')) := by
  have hact := h.act (.work step)
  obtain ⟨stack, control, used, held, answers⟩ := t'
  obtain ⟨rfl, rfl⟩ := ht
  exact hact

theorem Run.answer {log : List Event} {w w' : World} {t : Task}
    {r : Except Fault (List StoreVal)} (h : Run log (alone w (some t)))
    (ended : (t.machine w).step = .inr (r, w)) (finished : t.finish r w = ([], w')) :
    Run log (alone w') := by
  have hact : World.Act (· ∈ (alone w (some t)).owned) w (some t) [] (t.finish r w).1
      (t.finish r w).2 none := .answer ended
  rw [finished] at hact
  exact h.act hact

/-- An engine that may consume fuel and may be interruptable. -/
def plainEngine (consumesFuel isInterruptable : Bool) : Engine :=
  { id := 0, consumesFuel, isInterruptable
    options := { consumeFuel := consumesFuel, epochInterruption := isInterruptable } }

/-- A store with the module. -/
def stocked (consumesFuel isInterruptable : Bool) (fuel : Fuel) : World :=
  { store :=
      { engine := plainEngine consumesFuel isInterruptable, signal := 0, fuel, deadline := 1
        funcs := #[⟨⟨[], []⟩, .code 0 emptyCode⟩]
        instances := #[⟨emptyFunction, #[0], #[], #[], #[], [], #[], #[]⟩] }
    shared := { signals := #[{ engine := 0 }], instances := [(0, 1)], files := ⟨[], #[]⟩ } }

/-- A call of the function, before it is entered and after. -/
def emptyCall (entered : Bool) (owed burned : Nat) : Task :=
  { stack := [.code { owner := 0, code := emptyCode, locals := #[], entered, burned, owed
                      blocks := [⟨1, 0, []⟩] }]
    control := .run, used := 32, held := [], answers := true }

theorem instantiate_emptyFunction (consumesFuel isInterruptable : Bool) :
    ((World.create (plainEngine consumesFuel isInterruptable) { files := ⟨[], #[]⟩ }).instantiate
      emptyFunction []).2 = stocked consumesFuel isInterruptable {} := by
  have hfuncs : emptyFunction.codes.map (fun c => (⟨c.type, .code 0 c⟩ : Func)) =
      #[⟨⟨[], []⟩, .code 0 emptyCode⟩] := by
    simp [emptyFunction]
    rfl
  have hrange : (Array.range emptyFunction.codes.size).map (0 + ·) = #[0] := by
    simp [← Array.toList_inj, emptyFunction]
  unfold World.instantiate
  simp only [poolFault?, mapStore, create, plainEngine, allocate, mapShared, Array.size_empty,
    hfuncs, hrange]
  rfl

theorem run_stocked (consumesFuel isInterruptable : Bool) :
    Run [.created 0] (alone (stocked consumesFuel isInterruptable {})) := by
  have created : Run [.created 0]
      (alone (World.create (plainEngine consumesFuel isInterruptable) { files := ⟨[], #[]⟩ })) :=
    .step (.start ⟨[], #[]⟩) (.newStore _)
  have made := created.act (.idle (.instantiate emptyFunction []) (by simp [StoreCall.refs])
    (by simp [StoreCall.modules, isCompiled_emptyFunction]))
  rw [← instantiate_emptyFunction]
  exact made

theorem run_fueled (n : Nat) :
    Run [.added 0 n, .created 0] (alone (stocked true false (({} : Fuel).add n))) :=
  (run_stocked true false).act (.idle (.addFuel n) (by simp [StoreCall.refs])
    (by simp [StoreCall.modules]))

/-- The call of the function at its end. -/
def emptyCallLeft : Task :=
  { stack := [], control := .back [], used := 0, held := [], answers := true }

theorem run_emptyCall {log : List Event} {a r : Nat}
    (h : Run log (alone (stocked true false ⟨a, r + 2⟩))) :
    Run (.burned 0 1 :: .burned 0 0 :: log) (alone (stocked true false ⟨a, r + 1⟩)) := by
  have called := h.call 0 (emptyCall false 1 0) rfl ⟨rfl, rfl⟩ rfl
  have hstep : ((emptyCall false 1 0).machine (stocked true false ⟨a, r + 2⟩)).step =
      .inl ((emptyCall true 0 1).machine (stocked true false ⟨a, r + 2⟩)) := by
    simp [Task.machine, emptyCall, Machine.step, CodeFrame.step, CodeFrame.check, CodeFrame.reckon,
      stocked, usesFuel, plainEngine]
  have entered := called.work _ (emptyCall true 0 1) ⟨rfl, rfl⟩ hstep
  have left := entered.work (stocked true false ⟨a, r + 1⟩) emptyCallLeft ⟨rfl, rfl⟩ rfl
  have answered := left.answer rfl rfl
  have hentered : ((emptyCall false 1 0).machine (stocked true false ⟨a, r + 2⟩)).events
      ((emptyCall true 0 1).machine (stocked true false ⟨a, r + 2⟩)) = [.burned 0 0] := by
    simp [Task.machine, emptyCall, Machine.events, CodeFrame.step, CodeFrame.check,
      CodeFrame.reckon, stocked, usesFuel, plainEngine]
  have hleft : ((emptyCall true 0 1).machine (stocked true false ⟨a, r + 2⟩)).events
      (emptyCallLeft.machine (stocked true false ⟨a, r + 1⟩)) = [.burned 0 1] := by
    have hone : r + 2 - (r + 1) = 1 := by omega
    exact congrArg (fun n => [Event.burned 0 n]) hone
  rw [hentered, hleft] at answered
  exact answered

end Embedding

/-! ## Runs in which no count is cut off -/

/-- The counts of a store are what the log says. -/
structure Store.Balanced (log : List Event) (s : Store) : Prop where
  added : s.fuel.added = fuelAdded s.signal log
  left : fuelBurned s.signal log + s.fuel.remaining = s.fuel.added

theorem Store.Balanced.tallies {log events : List Event} {w w' : World}
    (h : w.store.Balanced log) (step : w.Tallies events w')
    (hfit : fuelAdded w.store.signal (events ++ log) ≤ Fuel.most) :
    w'.store.Balanced (events ++ log) := by
  obtain ⟨hadded, hleft⟩ := h
  obtain ⟨-, hsignal, -⟩ := step.identity
  rw [fuelAdded_append] at hfit
  -- no event but that of added fuel adds any, and no event but that of used fuel uses any
  have hsame (hfuel : w'.store.fuel = w.store.fuel) (ha : fuelAdded w.store.signal events = 0)
      (hb : fuelBurned w.store.signal events = 0) : w'.store.Balanced (events ++ log) := by
    constructor
    · simp [hsignal, hfuel, ha, hadded]
    · simpa [hsignal, hfuel, hb] using hleft
  have hmet : w.meetDeadline.2.store.fuel = w.store.fuel := by
    unfold meetDeadline
    split <;> rfl
  cases step with
  | quiet same => exact hsame (congrArg (·.fuel) same) rfl rfl
  | renewed _ same =>
      exact hsame ((congrArg (·.fuel) same).trans hmet) rfl (by simp [fuelBurned, Event.fuelBurned])
  | interrupted _ same => exact hsame ((congrArg (·.fuel) same).trans hmet) rfl rfl
  | requested signal same => exact hsame (congrArg (·.fuel) same) rfl rfl
  | burned n same =>
      have hfuel : w'.store.fuel = w.store.fuel.burn n := congrArg (·.fuel) same
      constructor
      · simp [hsignal, hfuel, Fuel.burn, hadded, fuelAdded, Event.fuelAdded]
      · simp only [hsignal, hfuel, Fuel.burn, fuelBurned_append, ← hleft]
        simp only [fuelBurned, Event.fuelBurned, List.map_cons, List.map_nil, List.sum_cons,
          List.sum_nil, if_true]
        omega
  | added n _ same =>
      have hfuel : w'.store.fuel = w.store.fuel.add n := congrArg (·.fuel) same
      have hn : fuelAdded w.store.signal [.added w.store.signal n] = n := by
        simp [fuelAdded, Event.fuelAdded]
      rw [hn] at hfit
      constructor
      · simp only [hsignal, hfuel, Fuel.add, fuelAdded_append, hn, hadded]
        omega
      · simp only [hsignal, hfuel, Fuel.add, fuelBurned_append]
        simp only [fuelBurned, Event.fuelBurned, List.map_cons, List.map_nil, List.sum_cons,
          List.sum_nil] at hleft ⊢
        omega

namespace Embedding

variable {log events : List Event} {e e' : Embedding}

theorem Run.balanced (h : Run log e) {s : Store} (hs : s ∈ e.stores)
    (hfit : fuelAdded s.signal log ≤ Fuel.most) : s.Balanced log := by
  induction h generalizing s with
  | start files => cases hs
  | @step log events e e' before step ih =>
      have hnumbered := before.numbered
      rcases step.tallies.store_cases hnumbered hs with
        ⟨engine, rfl, -, rfl⟩ | ⟨s₀, hs₀, hstore⟩ | ⟨hs₀, hother⟩
      · -- nothing in the log is about a store that is new
        have hnew : ∀ ev ∈ log, ev.store? ≠ some e.shared.signals.size := fun ev hev heq =>
          Nat.lt_irrefl _ (hnumbered.logged ev hev _ heq)
        obtain ⟨hadded, hburned⟩ := fuel_of_unmentioned hnew
        constructor
        · rw [fuelAdded_append]
          exact (congrArg (0 + ·) hadded).symm
        · rw [fuelBurned_append]
          exact congrArg (0 + · + 0) hburned
      · obtain ⟨-, hsignal, -⟩ := hstore.identity
        dsimp only at hsignal
        rw [hsignal] at hfit
        have hbalanced : (⟨s₀, e.shared⟩ : World).store.Balanced log := by
          rw [fuelAdded_append] at hfit
          exact ih hs₀ (Nat.le_trans (Nat.le_add_left _ _) hfit)
        exact hbalanced.tallies hstore hfit
      · obtain ⟨hadded, hburned⟩ := fuel_of_unmentioned hother
        rw [fuelAdded_append, hadded, Nat.zero_add] at hfit
        obtain ⟨hadded', hleft⟩ := ih hs₀ hfit
        constructor
        · rw [fuelAdded_append, hadded, Nat.zero_add, hadded']
        · rw [fuelBurned_append, hburned, Nat.zero_add, hleft]

/-- Fuel is conserved: at any point of any run, what a store counts as consumed is all the fuel of
it that code used up, and with what is left that makes up what was added. -/
theorem fuel_conserved (h : Run log e) {s : Site} (hs : s ∈ e.sites)
    (uses : s.store.engine.consumesFuel) (hfit : fuelAdded s.store.signal log < twoTo 64) :
    World.fuelConsumed ⟨s.store, e.shared⟩ = some (fuelBurned s.store.signal log) ∧
      fuelBurned s.store.signal log + s.store.fuel.remaining = fuelAdded s.store.signal log ∧
      s.store.fuel.remaining ≤ s.store.fuel.added ∧
      fuelBurned s.store.signal log ≤ fuelAdded s.store.signal log := by
  have hmost : fuelAdded s.store.signal log ≤ Fuel.most := Nat.le_pred_of_lt hfit
  obtain ⟨hadded, hleft⟩ := h.balanced (List.mem_map_of_mem hs) hmost
  rw [hadded] at hleft
  refine ⟨?_, hleft, ?_, ?_⟩
  · rw [fuelConsumed, if_pos (show World.usesFuel ⟨s.store, e.shared⟩ = true from uses)]
    simp only [Fuel.consumed, hadded, Option.some.injEq]
    omega
  · omega
  · omega

/-- A store with ten units of fuel, of which a call used one. -/
theorem fuel_conserved_of_call : ∃ log e, ∃ s ∈ e.sites, Run log e ∧
    s.store.engine.consumesFuel ∧ fuelAdded s.store.signal log < twoTo 64 ∧
    World.fuelConsumed ⟨s.store, e.shared⟩ = some 1 ∧ s.store.fuel.remaining = 9 := by
  have run : Run _ (alone (stocked true false ⟨10, 9⟩)) := run_emptyCall (run_fueled 10)
  have hfit : fuelAdded 0 [.burned 0 1, .burned 0 0, .added 0 10, .created 0] < twoTo 64 := by
    decide
  have hconserved := fuel_conserved run (List.mem_singleton_self _) rfl hfit
  exact ⟨_, _, _, List.mem_singleton_self _, run, rfl, hfit, hconserved.1, rfl⟩

/-! ## What counts as consumed -/

/-- A step makes what counts as consumed smaller just when it adds fuel and all that was ever added
no longer fits a word. -/
theorem consumed_lt_iff (h : Run log e) (step : e.Step events e') {s s' : Store}
    (hs : s ∈ e.stores) (hs' : s' ∈ e'.stores) (same : s'.signal = s.signal) {c c' : Nat}
    (before : World.fuelConsumed ⟨s, e.shared⟩ = some c)
    (after : World.fuelConsumed ⟨s', e'.shared⟩ = some c') :
    c' < c ↔ ∃ n, events = [.added s.signal n] ∧ Fuel.most < s.fuel.added + n ∧ 0 < c := by
  have hc : c = s.fuel.added - s.fuel.remaining := by
    simp only [fuelConsumed, Fuel.consumed] at before
    split at before <;> cases before
    rfl
  have hc' : c' = s'.fuel.added - s'.fuel.remaining := by
    simp only [fuelConsumed, Fuel.consumed] at after
    split at after <;> cases after
    rfl
  -- only added fuel can make it smaller: no other step changes what was added or adds to what is left
  have hother (hadded : s'.fuel.added = s.fuel.added)
      (hleft : s'.fuel.remaining ≤ s.fuel.remaining) (hev : ∀ n, events ≠ [.added s.signal n]) :
      c' < c ↔ ∃ n, events = [.added s.signal n] ∧ Fuel.most < s.fuel.added + n ∧ 0 < c := by
    refine ⟨fun hlt => ?_, fun ⟨n, hn, _⟩ => absurd hn (hev n)⟩
    omega
  have hsame (hfuel : s'.fuel = s.fuel) := 
    hother (congrArg (·.added) hfuel) (Nat.le_of_eq (congrArg (·.remaining) hfuel))
  have hmet (w : World) : w.meetDeadline.2.store.fuel = w.store.fuel := by
    unfold meetDeadline
    split <;> rfl
  rcases h.store_cases step hs hs' same with htally | ⟨rfl, hev⟩
  · generalize hw : (⟨s, e.shared⟩ : World) = w at htally
    generalize hw' : (⟨s', e'.shared⟩ : World) = w' at htally
    obtain rfl : w.store = s := by rw [← hw]
    obtain rfl : w'.store = s' := by rw [← hw']
    cases htally with
    | quiet same => exact hsame (congrArg (·.fuel) same) (by simp)
    | burned n same =>
        have hfuel : w'.store.fuel = w.store.fuel.burn n := congrArg (·.fuel) same
        exact hother (by rw [hfuel]; rfl) (by rw [hfuel]; exact Nat.sub_le _ _) (by simp)
    | renewed _ same => exact hsame ((congrArg (·.fuel) same).trans (hmet w)) (by simp)
    | interrupted _ same => exact hsame ((congrArg (·.fuel) same).trans (hmet w)) (by simp)
    | requested signal same => exact hsame (congrArg (·.fuel) same) (by simp)
    | added n _ same =>
        have hfuel : w'.store.fuel = w.store.fuel.add n := congrArg (·.fuel) same
        simp only [hfuel, Fuel.add] at hc'
        constructor
        · intro hlt
          exact ⟨n, rfl, by omega, by omega⟩
        · rintro ⟨k, hk, hmost, hpos⟩
          cases hk
          omega
  · refine hsame rfl fun n hn => ?_
    rw [hn] at hev
    exact hev _ (List.mem_singleton_self _) rfl

/-- A store with all the fuel that a word holds, of which a call used one unit. One unit more makes
up for it, and nothing counts as consumed any longer. -/
theorem consumed_lt_iff_of_full_store : ∃ log e e', ∃ s ∈ e.stores, ∃ s' ∈ e'.stores,
    Run log e ∧ e.Step [.added s.signal 1] e' ∧ s'.signal = s.signal ∧
      World.fuelConsumed ⟨s, e.shared⟩ = some 1 ∧ World.fuelConsumed ⟨s', e'.shared⟩ = some 0 ∧
      Fuel.most < s.fuel.added + 1 := by
  have run : Run _ (alone (stocked true false ⟨Fuel.most, Fuel.most - 1⟩)) :=
    run_emptyCall (run_fueled Fuel.most)
  have step : (alone (stocked true false ⟨Fuel.most, Fuel.most - 1⟩)).Step [.added 0 1]
      (alone (stocked true false ⟨Fuel.most, Fuel.most⟩)) :=
    .alone (.idle (.addFuel 1) (by simp [StoreCall.refs]) (by simp [StoreCall.modules]))
  have hs : (stocked true false ⟨Fuel.most, Fuel.most - 1⟩).store ∈
      (alone (stocked true false ⟨Fuel.most, Fuel.most - 1⟩)).stores := List.mem_singleton_self _
  have hs' : (stocked true false ⟨Fuel.most, Fuel.most⟩).store ∈
      (alone (stocked true false ⟨Fuel.most, Fuel.most⟩)).stores := List.mem_singleton_self _
  have hdrop : 0 < 1 ↔ _ := consumed_lt_iff run step hs hs' rfl rfl rfl
  obtain ⟨n, hn, hmost, -⟩ := hdrop.mp Nat.zero_lt_one
  cases hn
  exact ⟨_, _, _, _, hs, _, hs', run, step, rfl, rfl, rfl, hmost⟩

end Embedding

end WasmHost

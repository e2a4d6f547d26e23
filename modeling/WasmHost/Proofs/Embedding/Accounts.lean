import Mathlib.Data.List.Nodup
import WasmHost.Proofs.Machine.Accounts

/-!
# The ledgers of an embedding

What one step of an embedding does to the ledgers of its stores: one store's ledger changes as the
log says, or a store is new, or somebody asks for an interrupt. The signals and epochs, which stores
share, change for all of them at once.
-/

namespace WasmHost

open World

/-! ## What an embedder does with a store -/

theorem World.ledger_congr {w w' : World} (h : w'.accounts = w.accounts) : w'.ledger = w.ledger :=
  congrArg Accounts.toLedger h

/-- What is refused changes nothing. -/
theorem Except.getD_of_ok {ε α : Type} {P : α → Prop} {r : Except ε α} {a : α} (ha : P a)
    (h : ∀ b, r = .ok b → P b) : P (r.toOption.getD a) := by
  cases r with
  | ok b => exact h b rfl
  | error e => exact ha

theorem Except.getD_map_of_ok {ε α β : Type} {P : α → Prop} {r : Except ε (β × α)} {a : α}
    (ha : P a) (h : ∀ b a', r = .ok (b, a') → P a') : P ((r.map (·.2)).toOption.getD a) := by
  cases r with
  | ok p => exact h p.1 p.2 rfl
  | error e => exact ha

/-- Few operations on a store change its accounts at all. -/
theorem StoreCall.accounts_run (c : StoreCall) (live : List BoxId) (w : World) :
    (c.run live w).2.accounts = w.accounts ∨ c = .idleFunc ∨ (∃ n, c = .addFuel n) ∨
      (∃ type ops, c = .newHostFunc type ops) ∨
        ∃ m imports owner, c = .instantiate m imports ∧
          (c.run live w).2.accounts =
            { w.accounts with funcs := w.store.funcs ++ m.newFuncs owner } := by
  have hok {r : Except Error World} (h : ∀ w', r = .ok w' → w'.accounts = w.accounts) :
      (r.toOption.getD w).accounts = w.accounts :=
    Except.getD_of_ok (P := (World.accounts · = w.accounts)) rfl h
  have hmade {r : Except Error (Nat × World)}
      (h : ∀ n w', r = .ok (n, w') → w'.accounts = w.accounts) :
      ((r.map (·.2)).toOption.getD w).accounts = w.accounts :=
    Except.getD_map_of_ok (P := (World.accounts · = w.accounts)) rfl h
  cases c with
  | newHostFunc type ops => exact .inr (.inr (.inr (.inl ⟨type, ops, rfl⟩)))
  | idleFunc => exact .inr (.inl rfl)
  | addFuel n => exact .inr (.inr (.inl ⟨n, rfl⟩))
  | instantiate m imports =>
      rcases accounts_instantiate m imports w with h | ⟨owner, h⟩
      · exact .inl h
      · exact .inr (.inr (.inr (.inr ⟨m, imports, owner, rfl, h⟩)))
  | newGlobal type init => exact .inl (hmade fun _ _ h => accounts_newGlobal h)
  | getGlobal addr => exact .inl (accounts_reveal _ w)
  | setGlobal addr v => exact .inl (hok fun _ h => accounts_setGlobal h)
  | newTable type init => exact .inl (hmade fun _ _ h => accounts_newTable h)
  | getTable addr index => exact .inl (accounts_getTable addr index w)
  | setTable addr index v => exact .inl (hok fun _ h => accounts_setTable h)
  | growTable addr delta v => exact .inl (accounts_growTable addr delta v w)
  | newMemory type =>
      simp only [run]
      cases hnew : w.newMemory type with
      | some p => exact .inl (accounts_newMemory hnew)
      | none => exact .inl rfl
  | growMemory addr delta => exact .inl (hmade fun _ _ h => accounts_growMemory h)
  | writeMemory addr offset bytes =>
      simp only [run]
      cases hnew : w.writeMemory addr offset bytes with
      | some w' => exact .inl (accounts_writeMemory hnew)
      | none => exact .inl rfl
  | collect => exact .inl (accounts_collect live w)
  | setWasi config => exact .inl (hok fun _ h => accounts_setWasi h)

theorem StoreCall.tallies_run (c : StoreCall) (live : List BoxId) (w : World) :
    w.Tallies (c.events w) (c.run live w).2 := by
  by_cases hfuel : ∃ n, c = .addFuel n
  · obtain ⟨n, rfl⟩ := hfuel
    simp only [run, events, World.addFuel]
    split
    · rename_i huses
      exact .added n huses rfl
    · exact .quiet rfl
  · have hevents : c.events w = [] := by
      cases c with
      | addFuel n => exact absurd ⟨n, rfl⟩ hfuel
      | _ => rfl
    rw [hevents]
    rcases c.accounts_run live w with h | rfl | h | ⟨type, ops, rfl⟩ | ⟨m, imports, owner, -, h⟩
    · exact .quiet (ledger_congr h)
    · exact .quiet rfl
    · exact absurd h hfuel
    · exact .quiet rfl
    · exact .quiet (congrArg Accounts.toLedger h :)

theorem HostMove.grows_run (c : HostMove) (h : HostFrame) (rest : List Activation) (m : Machine) :
    m.world.Grows (c.run h rest m).world := by
  cases c with
  | call func args result catches => exact Machine.grows_hostCall m h rest _ _ _ _
  | start addr catches =>
      simp only [run]
      split
      · exact Machine.grows_enter _ (by rfl) _ _ _
      · exact .of_accounts rfl
  | setResult i v => exact .of_accounts (Machine.accounts_setResult h i v _)
  | fail t => exact .of_accounts (Machine.accounts_failHost m h t)
  | finish => exact .of_accounts (Machine.accounts_finishHost m h)

theorem Task.accounts_finish (t : Task) (r : Except Fault (List StoreVal)) (w : World) :
    (t.finish r w).2.accounts = w.accounts := by
  unfold finish
  split
  · split
    · exact (accounts_unholdAll _ _).trans (accounts_revealAll _ w)
    · exact accounts_unholdAll _ w
  · exact accounts_unholdAll _ w

theorem World.grows_call (w : World) (func : FuncAddr) (args : List HostVal) :
    w.Grows ((Machine.idle ((w.acceptAll args).2.exposeAll (w.acceptAll args).1)).enter func
      (w.acceptAll args).1 none).world :=
  Machine.grows_enter _ ((accounts_exposeAll _ _).trans (accounts_acceptAll args w)) func _ none

/-- An embedder works on a store, or code does. -/
theorem World.Act.settles {owned : RefId → Prop} {w w' : World} {t t' : Option Task}
    {events : List Event} {gained : List RefId} (h : Act owned w t events gained w' t') :
    (∃ (c : StoreCall) (live : List BoxId), (∀ m ∈ c.modules, m.IsCompiled) ∧
      events = c.events w ∧ w' = (c.run live w).2) ∨ w.Settles events w' := by
  cases h with
  | idle c _ hm => exact .inl ⟨c, [], hm, rfl, rfl⟩
  | host at_host c _ hm => exact .inl ⟨c, _, hm, rfl, rfl⟩
  | @call func args m fits refs begun => exact .inr (.of_grows (begun ▸ grows_call w func args))
  | @start addr func m start begun =>
      exact .inr (.of_grows (begun ▸ Machine.grows_enter (.idle w) rfl func [] (some addr)))
  | work step => exact .inr (Machine.settles_step step)
  | @move t h rest at_host c => exact .inr (.of_grows (c.grows_run h rest (t.machine w)))
  | keep => exact .inr (.of_accounts (accounts_revealAll _ w))
  | @answer w' t r ended =>
      rw [Machine.step_end ended]
      exact .inr (.of_accounts (t.accounts_finish r w))

theorem World.Act.tallies {owned : RefId → Prop} {w w' : World} {t t' : Option Task}
    {events : List Event} {gained : List RefId} (h : Act owned w t events gained w' t') :
    w.Tallies events w' := by
  rcases h.settles with ⟨c, live, -, rfl, rfl⟩ | hs
  · exact c.tallies_run live w
  · exact hs.ledger

/-! ## Linkers -/

/-- What decides when code is interrupted. -/
def Shared.alarms (s : Shared) : Array Signal × List (Nat × UInt64) := (s.signals, s.epochs)

@[simp] theorem Shared.alarms_leaveClosures (ids : List ClosureId) (s : Shared) :
    (s.leaveClosures ids).alarms = s.alarms := by
  induction ids generalizing s with
  | nil => rfl
  | cons id ids ih =>
      refine (ih (s.leaveClosure id)).trans ?_
      unfold leaveClosure
      split <;> rfl

theorem World.ledger_of_alarms {w : World} {s : Shared} (h : s.alarms = w.shared.alarms) :
    ({ w with shared := s } : World).ledger = w.ledger := by
  simp only [Shared.alarms, Prod.mk.injEq] at h
  simp only [ledger, accounts, h.1, h.2]

@[simp] theorem Definition.ledger_toItem (d : Definition) (w : World) :
    (d.toItem w).2.ledger = w.ledger := by
  cases d <;> rfl

@[simp] theorem Definition.ledger_toItems (ds : List Definition) (w : World) :
    (toItems ds w).2.ledger = w.ledger := by
  induction ds generalizing w with
  | nil => rfl
  | cons d ds ih => exact (ih _).trans (d.ledger_toItem w)

namespace Linker

variable {l l' : Linker} {w w' : World} {s s' : Shared}

theorem alarms_define {n : LinkName} {d : Definition} (h : l.define n d s = .ok (l', s')) :
    s'.alarms = s.alarms := by
  unfold define at h
  split at h
  · cases h
    rfl
  · split at h <;> cases h
    exact Shared.alarms_leaveClosures _ s

theorem alarms_defineAll (ds : List (LinkName × Definition)) (l : Linker) (s : Shared) :
    (l.defineAll ds s).2.2.alarms = s.alarms := by
  induction ds generalizing l s with
  | nil => rfl
  | cons e ds ih =>
      unfold defineAll
      split
      · rename_i h
        exact (ih _ _).trans (alarms_define h)
      · rfl

theorem ledger_defineCommand (module : String) (m : CompiledModule) (es : List ExportType)
    (l : Linker) (w : World) : (defineCommand module m es l w).2.2.ledger = w.ledger := by
  induction es generalizing l w with
  | nil => rfl
  | cons e es ih =>
      simp only [defineCommand]
      cases e.type with
      | func type =>
          cases l.resolve m Definition.type with
          | error reason => rfl
          | ok ds =>
              dsimp only
              split
              · rename_i h
                refine (ih _ _).trans ((ledger_of_alarms (alarms_define h)).trans ?_)
                exact Definition.ledger_toItems ds w
              · exact Definition.ledger_toItems ds w
      | global | table | memory =>
          dsimp only
          split
          · exact ih l w
          · rfl

end Linker

theorem LinkerCall.ledger_run {c : LinkerCall} {l l' : Linker} {w w' : World}
    {r : Except Failure Unit} (hc : c.IsPlain) (h : c.run l w = some (r, l', w')) :
    w'.ledger = w.ledger := by
  have hsettle {a : Except Error (Linker × Shared)} {r : Except Failure Unit}
      (ha : ∀ p, a = .ok p → p.2.alarms = w.shared.alarms) (h : settle l w a = (r, l', w')) :
      w'.ledger = w.ledger := by
    cases a with
    | ok p => cases h; exact ledger_of_alarms (ha p rfl)
    | error e => cases h; rfl
  cases c with
  | allowShadowing allow => cases h; rfl
  | define n item =>
      refine hsettle (fun p hp => ?_) (Option.some.inj h)
      unfold Linker.defineItem at hp
      split at hp
      · cases hd : l.define n (.item item _) w.shared with
        | ok q => rw [hd] at hp; cases hp; exact Linker.alarms_define hd
        | error e => rw [hd] at hp; cases hp
      · cases hp
  | defineFunc n type ops =>
      refine hsettle (fun p hp => ?_) (Option.some.inj h)
      simp only [Linker.defineFunc] at hp
      generalize hd : l.define _ _ _ = answer at hp
      cases answer with
      | ok q => cases hp; exact (Linker.alarms_define hd).trans rfl
      | error e => cases hp
  | defineInstance module addr => cases h; exact ledger_of_alarms (Linker.alarms_defineAll _ _ _)
  | defineWasi =>
      have halarms := Linker.alarms_defineAll Linker.wasiDefinitions l w.shared
      cases h
      exact ledger_of_alarms halarms
  | defineModule limit module m =>
      simp only [run, Linker.defineModule, hc.1] at h
      cases h
      exact Linker.ledger_defineCommand module m _ l w

/-! ## Steps of an embedding -/

namespace Embedding

variable {e e' : Embedding} {events : List Event}

/-- The stores of an embedding. -/
def stores (e : Embedding) : List Store := e.sites.map (·.store)

/-- What a step of an embedding does to the ledgers of its stores, and what goes into the log. -/
inductive Tallies (e e' : Embedding) : List Event → Prop
  | quiet (stores : e'.stores.Sublist e.stores) (alarms : e'.shared.alarms = e.shared.alarms) :
      Tallies e e' []
  | created (engine : Engine)
      (stores : e'.stores = e.stores ++ [(World.create engine e.shared).store])
      (alarms : e'.shared.alarms = (World.create engine e.shared).shared.alarms) :
      Tallies e e' [.created e.shared.signals.size]
  | requested (signal : SignalId) (stores : e'.stores = e.stores)
      (alarms : e'.shared.alarms = (e.shared.setPending signal true).alarms) :
      Tallies e e' [.requested signal]
  | store {before after : List Store} {s s' : Store} {events : List Event}
      (stores : e.stores = before ++ s :: after) (stores' : e'.stores = before ++ s' :: after)
      (store : World.Tallies ⟨s, e.shared⟩ events ⟨s', e'.shared⟩) : Tallies e e' events

theorem Step.tallies (h : e.Step events e') : e.Tallies e' events := by
  have hsite {before after : List Site} {s : Site} {w : World} {task : Option Task}
      {events : List Event} (hs : e.sites = before ++ s :: after)
      (hs' : e'.sites = before ++ ⟨w.store, task⟩ :: after) (hw : e'.shared = w.shared)
      (hl : World.Tallies ⟨s.store, e.shared⟩ events w) : e.Tallies e' events := by
    have hstores : e.stores = before.map (·.store) ++ s.store :: after.map (·.store) := by
      simp only [stores, hs, List.map_append, List.map_cons]
    have hstores' : e'.stores = before.map (·.store) ++ w.store :: after.map (·.store) := by
      simp only [stores, hs', List.map_append, List.map_cons]
    exact .store hstores hstores' (by rw [hw]; exact hl)
  cases h with
  | newRef | cloneRef | dropRef | newLinker | changeFiles => exact .quiet (.refl _) rfl
  | newStore engine => exact .created engine (by simp [stores]) rfl
  | dropStore sites =>
      refine .quiet ?_ (Shared.alarms_leaveClosures _ _)
      simp only [stores, sites, List.map_append, List.map_cons]
      exact (List.sublist_cons_self _ _).append_left _
  | act sites act => exact hsite sites rfl rfl act.tallies
  | request signal => exact .requested signal rfl rfl
  | dropLinker => exact .quiet (.refl _) (Shared.alarms_leaveClosures _ _)
  | link sites _ _ plain _ done =>
      exact hsite sites rfl rfl (.quiet (LinkerCall.ledger_run plain done))
  | resolve sites =>
      exact hsite sites rfl rfl (.quiet (Definition.ledger_toItem _ _))

end Embedding

/-! ## Stores and their signals -/

/-- The store that an event is about; a request is made of a signal. -/
def Event.store? : Event → Option SignalId
  | created s | added s _ | burned s _ | interrupted s => some s
  | requested _ => none

theorem Shared.size_setPending (s : Shared) (id : SignalId) (b : Bool) :
    (s.setPending id b).signals.size = s.signals.size := by
  unfold setPending
  split
  · rfl
  · cases b <;> simp [advanceEpoch]

namespace World.Tallies

variable {w w' : World} {events : List Event}

/-- The engine, the signal and the number of signals stay what they are. -/
theorem identity (h : w.Tallies events w') :
    w'.store.engine = w.store.engine ∧ w'.store.signal = w.store.signal ∧
      w'.shared.signals.size = w.shared.signals.size := by
  have hsame {v : World} (hl : w'.ledger = v.ledger) (hv : v.store.engine = w.store.engine ∧
      v.store.signal = w.store.signal ∧ v.shared.signals.size = w.shared.signals.size) :
      w'.store.engine = w.store.engine ∧ w'.store.signal = w.store.signal ∧
        w'.shared.signals.size = w.shared.signals.size :=
    ⟨(congrArg (·.engine) hl).trans hv.1, (congrArg (·.signal) hl).trans hv.2.1,
      (congrArg (·.signals.size) hl).trans hv.2.2⟩
  have hmet : w.meetDeadline.2.store.engine = w.store.engine ∧
      w.meetDeadline.2.store.signal = w.store.signal ∧
        w.meetDeadline.2.shared.signals.size = w.shared.signals.size := by
    unfold meetDeadline
    split
    · exact ⟨rfl, rfl, Shared.size_setPending _ _ _⟩
    · exact ⟨rfl, rfl, rfl⟩
  cases h with
  | quiet same => exact hsame same ⟨rfl, rfl, rfl⟩
  | burned n same => exact hsame same ⟨rfl, rfl, rfl⟩
  | renewed _ same => exact hsame same hmet
  | interrupted _ same => exact hsame same hmet
  | added n _ same => exact hsame same ⟨rfl, rfl, rfl⟩
  | requested signal same => exact hsame same ⟨rfl, rfl, Shared.size_setPending _ _ _⟩

/-- What a store does is logged under its own signal. -/
theorem store?_events (h : w.Tallies events w') :
    ∀ ev ∈ events, ∀ id, ev.store? = some id → id = w.store.signal := by
  intro ev hev id hid
  cases h with
  | quiet => cases hev
  | requested =>
      rw [List.mem_singleton.mp hev] at hid
      cases hid
  | burned | renewed | interrupted | added =>
      rw [List.mem_singleton.mp hev] at hid
      exact (Option.some.inj hid).symm

end World.Tallies

namespace Embedding

variable {log events : List Event} {e e' : Embedding}

/-- Each store has a signal of its own, and the log is about signals that there are. -/
structure Numbered (log : List Event) (e : Embedding) : Prop where
  distinct : (e.stores.map (·.signal)).Nodup
  known : ∀ s ∈ e.stores, s.signal < e.shared.signals.size
  logged : ∀ ev ∈ log, ∀ id, ev.store? = some id → id < e.shared.signals.size

theorem Numbered.step (h : e.Numbered log) (step : e.Tallies e' events) :
    e'.Numbered (events ++ log) := by
  obtain ⟨hdistinct, hknown, hlogged⟩ := h
  cases step with
  | quiet stores alarms =>
      have hsignals : e'.shared.signals = e.shared.signals := congrArg Prod.fst alarms
      refine ⟨hdistinct.sublist (stores.map _), fun s hs => ?_, ?_⟩
      · rw [hsignals]
        exact hknown s (stores.subset hs)
      · rw [hsignals]
        exact hlogged
  | created engine stores alarms =>
      have hsize : e'.shared.signals.size = e.shared.signals.size + 1 := by
        rw [show e'.shared.signals = _ from congrArg Prod.fst alarms]
        exact Array.size_push _
      refine ⟨?_, fun s hs => ?_, fun ev hev id hid => ?_⟩
      · rw [stores, List.map_append]
        refine List.nodup_append.mpr ⟨hdistinct, List.nodup_singleton _, ?_⟩
        intro id hid id' hid' heq
        obtain ⟨s, hs, rfl⟩ := List.mem_map.mp hid
        rw [List.mem_singleton.mp hid'] at heq
        exact Nat.ne_of_lt (hknown s hs) heq
      · rw [stores] at hs
        rw [hsize]
        rcases List.mem_append.mp hs with hs | hs
        · exact Nat.lt_succ_of_lt (hknown s hs)
        · rw [List.mem_singleton.mp hs]
          exact Nat.lt_succ_self _
      · rw [hsize]
        rcases List.mem_cons.mp hev with rfl | hev
        · cases hid
          exact Nat.lt_succ_self _
        · exact Nat.lt_succ_of_lt (hlogged ev hev id hid)
  | requested signal stores alarms =>
      have hsize : e'.shared.signals.size = e.shared.signals.size :=
        (congrArg (·.1.size) alarms).trans (Shared.size_setPending _ _ _)
      refine ⟨stores ▸ hdistinct, fun s hs => ?_, fun ev hev id hid => ?_⟩
      · rw [hsize]
        exact hknown s (stores ▸ hs)
      · rw [hsize]
        rcases List.mem_cons.mp hev with rfl | hev
        · cases hid
        · exact hlogged ev hev id hid
  | @store before after s s' _ stores stores' store =>
      obtain ⟨-, hsignal, hsize⟩ := store.identity
      have hsignals : e'.stores.map (·.signal) = e.stores.map (·.signal) := by
        rw [stores, stores', List.map_append, List.map_append, List.map_cons, List.map_cons]
        exact congrArg (_ ++ · :: _) hsignal
      refine ⟨hsignals ▸ hdistinct, fun t ht => ?_, fun ev hev id hid => ?_⟩
      · have ht' : t.signal ∈ e.stores.map (·.signal) := hsignals ▸ List.mem_map_of_mem ht
        obtain ⟨u, hu, heq⟩ := List.mem_map.mp ht'
        rw [hsize, ← heq]
        exact hknown u hu
      · rw [hsize]
        rcases List.mem_append.mp hev with hev | hev
        · rw [store.store?_events ev hev id hid]
          exact hknown s (by rw [stores]; simp)
        · exact hlogged ev hev id hid

theorem Run.numbered (h : Run log e) : e.Numbered log := by
  induction h with
  | start files =>
      refine ⟨List.nodup_nil, ?_, ?_⟩
      · intro s hs
        cases hs
      · intro ev hev
        cases hev
  | step _ step ih => exact ih.step step.tallies

/-- The store before a step that a store after it comes from: it is new, or its ledger changed as
the log says, or nothing in the log is about it. -/
theorem Tallies.store_cases (h : e.Tallies e' events) (he : e.Numbered log) {s' : Store}
    (hs : s' ∈ e'.stores) :
    (∃ engine, s' = (World.create engine e.shared).store ∧
      e'.shared.alarms = (World.create engine e.shared).shared.alarms ∧
      events = [.created s'.signal]) ∨
    (∃ s ∈ e.stores, World.Tallies ⟨s, e.shared⟩ events ⟨s', e'.shared⟩) ∨
    s' ∈ e.stores ∧ (∀ ev ∈ events, ev.store? ≠ some s'.signal) := by
  cases h with
  | quiet stores alarms => exact .inr (.inr ⟨stores.subset hs, fun ev hev => by cases hev⟩)
  | created engine stores alarms =>
      rw [stores] at hs
      rcases List.mem_append.mp hs with hs | hs
      · refine .inr (.inr ⟨hs, fun ev hev heq => ?_⟩)
        rw [List.mem_singleton.mp hev] at heq
        exact Nat.ne_of_lt (he.known s' hs) (Option.some.inj heq).symm
      · rw [List.mem_singleton.mp hs]
        exact .inl ⟨engine, rfl, alarms, rfl⟩
  | requested signal stores alarms =>
      refine .inr (.inr ⟨stores ▸ hs, fun ev hev heq => ?_⟩)
      rw [List.mem_singleton.mp hev] at heq
      cases heq
  | @store before after s t _ stores stores' store =>
      have hdistinct := he.distinct
      rw [stores, List.map_append, List.map_cons] at hdistinct
      rw [stores'] at hs
      have hother (hs : s' ∈ before ∨ s' ∈ after) :
          s' ∈ e.stores ∧ ∀ ev ∈ events, ev.store? ≠ some s'.signal := by
        refine ⟨by rw [stores]; simp [or_left_comm, hs], fun ev hev heq => ?_⟩
        have hsame := store.store?_events ev hev _ heq
        rw [List.nodup_append, List.nodup_cons] at hdistinct
        rcases hs with hs | hs
        · exact hdistinct.2.2 _ (List.mem_map_of_mem hs) _ List.mem_cons_self hsame
        · exact hdistinct.2.1.1 (hsame ▸ List.mem_map_of_mem hs)
      rcases List.mem_append.mp hs with hs | hs
      · exact .inr (.inr (hother (.inl hs)))
      · rcases List.mem_cons.mp hs with rfl | hs
        · exact .inr (.inl ⟨s, by rw [stores]; simp, store⟩)
        · exact .inr (.inr (hother (.inr hs)))

/-- A store that was there before a step: its ledger changed as the log says, or nothing in the log
is about it. -/
theorem Run.store_cases (h : Run log e) (step : e.Step events e') {s s' : Store}
    (hs : s ∈ e.stores) (hs' : s' ∈ e'.stores) (same : s'.signal = s.signal) :
    World.Tallies ⟨s, e.shared⟩ events ⟨s', e'.shared⟩ ∨
      s' = s ∧ ∀ ev ∈ events, ev.store? ≠ some s.signal := by
  have hnumbered := h.numbered
  have hunique {t : Store} (ht : t ∈ e.stores) (heq : t.signal = s.signal) : t = s :=
    List.inj_on_of_nodup_map hnumbered.distinct ht hs heq
  rcases step.tallies.store_cases hnumbered hs' with
    ⟨engine, rfl, -, -⟩ | ⟨t, ht, htally⟩ | ⟨ht, hother⟩
  · exact absurd (hnumbered.known s hs) (same ▸ Nat.lt_irrefl e.shared.signals.size)
  · left
    obtain ⟨-, hsignal, -⟩ := htally.identity
    rwa [hunique ht (hsignal.symm.trans same)] at htally
  · exact .inr ⟨hunique ht same, same ▸ hother⟩

end Embedding

end WasmHost

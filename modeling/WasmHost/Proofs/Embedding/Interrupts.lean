import WasmHost.Proofs.Embedding.Fuel

/-!
# When code is interrupted

A request sets the flag of one store and moves the epoch of its engine on, which other stores share;
a store looks at its flag once the epoch has reached its deadline. At each entry of a function and
each head of a loop that is reached, code is interrupted just when the log has a request for its
store that no interrupt of the store answers yet.
-/

namespace WasmHost

open World

/-! ## What the log says -/

/-- An interrupt was asked for, and since then the store was neither interrupted nor made. -/
def Asked (id : SignalId) (log : List Event) : Prop :=
  ∃ since before, log = since ++ .requested id :: before ∧ .interrupted id ∉ since ∧
    .created id ∉ since

theorem asked_cons {id : SignalId} {ev : Event} {log : List Event} :
    Asked id (ev :: log) ↔
      ev = .requested id ∨ ev ≠ .interrupted id ∧ ev ≠ .created id ∧ Asked id log := by
  constructor
  · rintro ⟨since, before, h, hinterrupted, hcreated⟩
    cases since with
    | nil =>
        cases h
        exact .inl rfl
    | cons ev' since =>
        cases h
        rw [List.mem_cons, not_or] at hinterrupted hcreated
        exact .inr ⟨Ne.symm hinterrupted.1, Ne.symm hcreated.1, since, before, rfl,
          hinterrupted.2, hcreated.2⟩
  · rintro (rfl | ⟨hinterrupted, hcreated, since, before, rfl, hi, hc⟩)
    · exact ⟨[], log, rfl, List.not_mem_nil, List.not_mem_nil⟩
    · refine ⟨ev :: since, before, rfl, ?_, ?_⟩
      · rw [List.mem_cons, not_or]
        exact ⟨Ne.symm hinterrupted, hi⟩
      · rw [List.mem_cons, not_or]
        exact ⟨Ne.symm hcreated, hc⟩

/-- The event is a request. -/
def Event.isRequest : Event → Bool
  | requested _ => true
  | _ => false

/-- How many interrupts were asked for. -/
def requests (log : List Event) : Nat := log.countP Event.isRequest

theorem requests_append (events log : List Event) :
    requests (events ++ log) = requests events + requests log := List.countP_append

/-- An epoch that is not ahead of the requests has room for one request more. -/
theorem room_of_requests {id : SignalId} {log : List Event} {epoch : UInt64}
    (hlog : epoch.toNat ≤ requests log) (hfit : requests (.requested id :: log) < twoTo 64) :
    epoch.toNat + 1 < twoTo 64 := by
  have hcount : requests (.requested id :: log) = requests log + 1 :=
    List.countP_cons_of_pos rfl
  rw [hcount] at hfit
  exact Nat.lt_of_le_of_lt (Nat.succ_le_succ hlog) hfit

/-! ## Signals and epochs -/

namespace Shared

variable {s s' : Shared} {id k : SignalId} {engine : Nat}

theorem epoch_congr (h : s'.alarms = s.alarms) (engine : Nat) : s'.epoch engine = s.epoch engine :=
  congrArg (fun a => (a.2.lookup engine).getD 0) h

theorem epoch_advanceEpoch (s : Shared) (e engine : Nat) :
    (s.advanceEpoch e).epoch engine = if engine = e then s.epoch e + 1 else s.epoch engine := by
  simp only [advanceEpoch, epoch, List.lookup_cons]
  split
  · rename_i h
    rw [if_pos (by simpa using h)]
    rfl
  · rename_i h
    have hne : engine ≠ e := by simpa using h
    rw [if_neg hne]
    congr 1
    induction s.epochs with
    | nil => rfl
    | cons p ps ih =>
        obtain ⟨e', n⟩ := p
        by_cases he : e' = e
        · subst he
          have hlook : (engine == e') = false := beq_eq_false_iff_ne.mpr hne
          simpa [List.lookup_cons, hlook] using ih
        · simp [he, List.lookup_cons, ih]

/-- A request never moves an epoch back, and moves it on by one at most. -/
theorem epoch_setPending (s : Shared) (id : SignalId) (b : Bool) (engine : Nat) :
    (s.setPending id b).epoch engine = s.epoch engine ∨
      (s.setPending id b).epoch engine = s.epoch engine + 1 := by
  unfold setPending
  split
  · exact .inl rfl
  · cases b with
    | false => exact .inl rfl
    | true =>
        simp only [if_true, epoch_advanceEpoch]
        split
        · rename_i h
          exact .inr (h ▸ rfl)
        · exact .inl rfl

theorem getElem?_setPending (s : Shared) (id k : SignalId) (b : Bool) :
    (s.setPending id b).signals[k]? =
      if id = k then s.signals[k]?.map ({ · with pending := b }) else s.signals[k]? := by
  have hset (g : Signal) (hg : s.signals[id]? = some g) :
      (s.signals.setIfInBounds id { g with pending := b })[k]? =
        if id = k then s.signals[k]?.map ({ · with pending := b }) else s.signals[k]? := by
    obtain ⟨hlt, -⟩ := Array.getElem?_eq_some_iff.mp hg
    by_cases hk : id = k
    · rw [if_pos hk, ← hk, Array.getElem?_setIfInBounds_self_of_lt hlt, hg]
      rfl
    · rw [if_neg hk, Array.getElem?_setIfInBounds_ne hk]
  unfold setPending
  split
  · rename_i hg
    split
    · rename_i h
      rw [← h, hg]
      rfl
    · rfl
  · rename_i g hg
    cases b <;> exact hset g hg

end Shared

/-! ## One store -/

/-- The flag of a store is what the log says, and the store looks at it before long: its deadline is
the next epoch at the latest, and no later than the epoch while a request is pending. -/
structure Store.Alert (log : List Event) (s : Shared) (t : Store) : Prop where
  signal : ∃ g, s.signals[t.signal]? = some g ∧ g.engine = t.engine.id ∧
    (g.pending = true ↔ Asked t.signal log)
  due : Asked t.signal log → t.deadline ≤ s.epoch t.engine.id
  deadline : t.deadline.toNat ≤ (s.epoch t.engine.id).toNat + 1

namespace Store.Alert

variable {log : List Event} {s s' : Shared} {t t' : Store}

/-- What happens elsewhere is nothing to the store. -/
theorem congr {log' : List Event} (h : t.Alert log s) (halarms : s'.alarms = s.alarms)
    (hasked : Asked t.signal log' ↔ Asked t.signal log) : t.Alert log' s' := by
  obtain ⟨⟨g, hg, hengine, hpending⟩, hdue, hdeadline⟩ := h
  have hsignals : s'.signals = s.signals := congrArg Prod.fst halarms
  refine ⟨⟨g, hsignals ▸ hg, hengine, hpending.trans hasked.symm⟩, fun ha => ?_, ?_⟩
  · rw [Shared.epoch_congr halarms]
    exact hdue (hasked.mp ha)
  · rw [Shared.epoch_congr halarms]
    exact hdeadline

theorem of_store (h : t.Alert log s) (hsignal : t'.signal = t.signal)
    (hengine : t'.engine = t.engine) (hdeadline : t'.deadline = t.deadline) : t'.Alert log s := by
  obtain ⟨hs, hdue, hd⟩ := h
  exact ⟨by rw [hsignal, hengine]; exact hs, by rw [hsignal, hengine, hdeadline]; exact hdue,
    by rw [hengine, hdeadline]; exact hd⟩

theorem pending_iff (h : t.Alert log s) : s.isPending t.signal = true ↔ Asked t.signal log := by
  obtain ⟨g, hg, -, hpending⟩ := h.signal
  simpa [Shared.isPending, hg] using hpending

/-- A request of any store. It cannot come so late that the epoch runs over. -/
theorem requested (h : t.Alert log s) (id : SignalId)
    (hroom : (s.epoch t.engine.id).toNat + 1 < twoTo 64) :
    t.Alert (.requested id :: log) (s.setPending id true) := by
  obtain ⟨⟨g, hg, hengine, hpending⟩, hdue, hdeadline⟩ := h
  have hnext : (s.epoch t.engine.id + 1).toNat = (s.epoch t.engine.id).toNat + 1 := by
    rw [UInt64.toNat_add]
    exact Nat.mod_eq_of_lt hroom
  have hlater : (s.epoch t.engine.id).toNat ≤
      ((s.setPending id true).epoch t.engine.id).toNat := by
    rcases s.epoch_setPending id true t.engine.id with he | he
    · exact Nat.le_of_eq (congrArg _ he).symm
    · rw [he, hnext]
      exact Nat.le_succ _
  have hasked : Asked t.signal (.requested id :: log) ↔ id = t.signal ∨ Asked t.signal log := by
    simp [asked_cons]
  by_cases hid : id = t.signal
  · -- the store's own flag is set, and the epoch reaches the deadline
    subst hid
    have hepoch : (s.setPending t.signal true).epoch t.engine.id = s.epoch t.engine.id + 1 := by
      simp only [Shared.setPending, hg, if_true, Shared.epoch_advanceEpoch, hengine]
      rfl
    refine ⟨⟨{ g with pending := true }, ?_, hengine, by simp [hasked]⟩, fun _ => ?_,
      Nat.le_succ_of_le ?_⟩
    · rw [Shared.getElem?_setPending, if_pos rfl, hg]
      rfl
    · rw [hepoch, UInt64.le_iff_toNat_le, hnext]
      exact hdeadline
    · rw [hepoch, hnext]
      exact hdeadline
  · refine ⟨⟨g, ?_, hengine, ?_⟩, fun ha => ?_, Nat.le_trans hdeadline (Nat.succ_le_succ hlater)⟩
    · rw [Shared.getElem?_setPending, if_neg hid, hg]
    · simp [hasked, hid, hpending]
    · have hasked' := hdue ((hasked.mp ha).resolve_left hid)
      exact UInt64.le_iff_toNat_le.mpr
        (Nat.le_trans (UInt64.le_iff_toNat_le.mp hasked') hlater)

/-- An interrupt answers the requests of its own store and no other ones. -/
theorem interrupted (h : t.Alert log s) (id : SignalId) :
    t.Alert (.interrupted id :: log) (s.setPending id false) := by
  obtain ⟨⟨g, hg, hengine, hpending⟩, hdue, hdeadline⟩ := h
  have hepoch (engine : Nat) : (s.setPending id false).epoch engine = s.epoch engine := by
    unfold Shared.setPending
    split <;> rfl
  have hasked : Asked t.signal (.interrupted id :: log) ↔ id ≠ t.signal ∧ Asked t.signal log := by
    simp [asked_cons]
  refine ⟨⟨if id = t.signal then { g with pending := false } else g, ?_, ?_, ?_⟩, fun ha => ?_, ?_⟩
  · rw [Shared.getElem?_setPending, hg]
    split <;> rfl
  · split <;> exact hengine
  · rw [hasked]
    split
    · rename_i hid
      simp [hid]
    · rename_i hid
      simp [hid, hpending]
  · rw [hepoch]
    exact hdue (hasked.mp ha).2
  · rw [hepoch]
    exact hdeadline

/-- A deadline that passed without a request moves to the next epoch. -/
theorem renewed (h : t.Alert log s) (calm : s.isPending t.signal = false) :
    ({ t with deadline := s.epoch t.engine.id + 1 } : Store).Alert log s := by
  have hasked : ¬Asked t.signal log := fun ha => by simp [h.pending_iff.mpr ha] at calm
  refine ⟨h.signal, fun ha => absurd ha hasked, ?_⟩
  rw [UInt64.toNat_add]
  exact Nat.mod_le _ _

theorem created (engine : Engine) (s : Shared) (log : List Event) :
    (World.create engine s).store.Alert (.created s.signals.size :: log)
      (World.create engine s).shared := by
  have hasked : ¬Asked s.signals.size (.created s.signals.size :: log) := by simp [asked_cons]
  refine ⟨⟨{ engine := engine.id }, by simp [World.create], rfl, ?_⟩, fun ha => absurd ha hasked, ?_⟩
  · exact iff_of_false Bool.false_ne_true hasked
  · change (s.epoch engine.id + 1).toNat ≤ (s.epoch engine.id).toNat + 1
    rw [UInt64.toNat_add]
    exact Nat.mod_le _ _

/-- A store that is new has a signal behind all others. -/
theorem others_created (h : t.Alert log s) (engine : Engine) (hknown : t.signal < s.signals.size) :
    t.Alert (.created s.signals.size :: log) (World.create engine s).shared := by
  obtain ⟨⟨g, hg, hengine, hpending⟩, hdue, hdeadline⟩ := h
  have hne : s.signals.size ≠ t.signal := Nat.ne_of_gt hknown
  have hasked : Asked t.signal (.created s.signals.size :: log) ↔ Asked t.signal log := by
    simp [asked_cons, hne]
  refine ⟨⟨g, ?_, hengine, hpending.trans hasked.symm⟩, fun ha => hdue (hasked.mp ha), hdeadline⟩
  rw [World.create, Array.getElem?_push_lt hknown]
  exact (Array.getElem?_eq_getElem hknown).symm.trans hg

end Store.Alert

/-! ## What a store does -/

namespace World.Tallies

variable {log events : List Event} {w w' : World} {t : Store}

theorem alarms_of_ledger {v : World} (h : w'.ledger = v.ledger) :
    w'.shared.alarms = v.shared.alarms := congrArg (fun l => (l.signals, l.epochs)) h

/-- Whatever a store does leaves all stores alert. -/
theorem alert (h : w.Tallies events w') (ht : t.Alert log w.shared)
    (hlog : (w.shared.epoch t.engine.id).toNat ≤ requests log)
    (hfit : requests (events ++ log) < twoTo 64) : t.Alert (events ++ log) w'.shared := by
  have hsame {v : World} (h : w'.ledger = v.ledger) (hv : v.shared.alarms = w.shared.alarms) :
      w'.shared.alarms = w.shared.alarms := (alarms_of_ledger h).trans hv
  cases h with
  | quiet same => exact ht.congr (hsame same rfl) .rfl
  | burned _ same => exact ht.congr (hsame same rfl) (by simp [asked_cons])
  | added _ _ same => exact ht.congr (hsame same rfl) (by simp [asked_cons])
  | renewed calm same =>
      have halarms : w.meetDeadline.2.shared.alarms = w.shared.alarms := by
        simp only [meetDeadline, calm]
        rfl
      exact ht.congr (hsame same halarms) (by simp [asked_cons])
  | interrupted due same =>
      have halarms : w.meetDeadline.2.shared = w.shared.setPending w.store.signal false := by
        simp only [meetDeadline, due]
        rfl
      exact (ht.interrupted w.store.signal).congr (halarms ▸ alarms_of_ledger same) .rfl
  | requested id same =>
      exact (ht.requested id (room_of_requests hlog hfit)).congr (alarms_of_ledger same) .rfl

theorem alert_store (h : w.Tallies events w') (hw : w.store.Alert log w.shared)
    (hlog : (w.shared.epoch w.store.engine.id).toNat ≤ requests log)
    (hfit : requests (events ++ log) < twoTo 64) :
    w'.store.Alert (events ++ log) w'.shared := by
  obtain ⟨hengine, hsignal, -⟩ := h.identity
  have hkept (hdeadline : w'.store.deadline = w.store.deadline) :
      w'.store.Alert (events ++ log) w'.shared :=
    (h.alert hw hlog hfit).of_store hsignal hengine hdeadline
  cases h with
  | quiet same => exact hkept (congrArg (·.deadline) same)
  | burned _ same => exact hkept (congrArg (·.deadline) same)
  | added _ _ same => exact hkept (congrArg (·.deadline) same)
  | requested _ same => exact hkept (congrArg (·.deadline) same)
  | interrupted due same =>
      refine hkept ((congrArg (·.deadline) same).trans ?_)
      simp only [meetDeadline, due]
      rfl
  | renewed calm same =>
      have hdeadline : w'.store.deadline = w.epoch + 1 := by
        refine (congrArg (·.deadline) same).trans ?_
        simp only [meetDeadline, calm]
        rfl
      have hmoved := (World.Tallies.renewed calm same).alert (hw.renewed calm) hlog hfit
      exact hmoved.of_store hsignal hengine hdeadline

end World.Tallies

/-! ## All stores of a run -/

namespace Embedding

variable {log events : List Event} {e e' : Embedding}

/-- No epoch is ahead of the requests that were made. -/
theorem Tallies.epoch_le (h : e.Tallies e' events)
    (hlog : ∀ engine, (e.shared.epoch engine).toNat ≤ requests log) (engine : Nat) :
    (e'.shared.epoch engine).toNat ≤ requests (events ++ log) := by
  have hsame {events : List Event} (he : e'.shared.epoch engine = e.shared.epoch engine) :
      (e'.shared.epoch engine).toNat ≤ requests (events ++ log) := by
    rw [he, requests_append]
    exact Nat.le_trans (hlog engine) (Nat.le_add_left _ _)
  have hrequest {id : SignalId}
      (halarms : e'.shared.alarms = (e.shared.setPending id true).alarms) :
      (e'.shared.epoch engine).toNat ≤ requests ([.requested id] ++ log) := by
    rw [Shared.epoch_congr halarms, requests_append]
    have hone : requests [.requested id] = 1 := rfl
    have hle := hlog engine
    rcases e.shared.epoch_setPending id true engine with he | he <;> rw [he]
    · omega
    · have hadd := UInt64.toNat_add (e.shared.epoch engine) 1
      have hmod := Nat.mod_le ((e.shared.epoch engine).toNat + (1 : UInt64).toNat) (2 ^ 64)
      have hunit : (1 : UInt64).toNat = 1 := rfl
      omega
  cases h with
  | quiet _ alarms => exact hsame (Shared.epoch_congr alarms engine)
  | created _ _ alarms => exact hsame (Shared.epoch_congr alarms engine)
  | requested id _ alarms => exact hrequest alarms
  | @store before after s s' _ _ _ store =>
      have hledger {v : World} (h : World.ledger ⟨s', e'.shared⟩ = v.ledger) :
          e'.shared.alarms = v.shared.alarms := World.Tallies.alarms_of_ledger h
      have hmet (w : World) : w.meetDeadline.2.shared.epoch engine = w.shared.epoch engine := by
        unfold meetDeadline
        split
        · simp only [mapShared, Shared.setPending]
          split <;> rfl
        · rfl
      cases store with
      | quiet same => exact hsame (Shared.epoch_congr (hledger same) engine)
      | burned _ same => exact hsame (Shared.epoch_congr (hledger same) engine)
      | added _ _ same => exact hsame (Shared.epoch_congr (hledger same) engine)
      | renewed _ same =>
          exact hsame ((Shared.epoch_congr (hledger same) engine).trans (hmet _))
      | interrupted _ same =>
          exact hsame ((Shared.epoch_congr (hledger same) engine).trans (hmet _))
      | requested id same => exact hrequest (hledger same)

theorem Run.epoch_le (h : Run log e) (engine : Nat) :
    (e.shared.epoch engine).toNat ≤ requests log := by
  induction h generalizing engine with
  | start files => exact Nat.zero_le _
  | step _ step ih => exact step.tallies.epoch_le ih engine

theorem Run.alert (h : Run log e) (hfit : requests log < twoTo 64) {t : Store}
    (ht : t ∈ e.stores) : t.Alert log e.shared := by
  induction h generalizing t with
  | start files => cases ht
  | @step log events e e' before step ih =>
      have hnumbered := before.numbered
      have hlog := before.epoch_le
      have hbefore {t : Store} (ht : t ∈ e.stores) : t.Alert log e.shared := by
        rw [requests_append] at hfit
        exact ih (Nat.lt_of_le_of_lt (Nat.le_add_left _ _) hfit) ht
      cases step.tallies with
      | quiet stores alarms => exact (hbefore (stores.subset ht)).congr alarms .rfl
      | created engine stores alarms =>
          rw [stores] at ht
          rcases List.mem_append.mp ht with ht | ht
          · exact ((hbefore ht).others_created engine (hnumbered.known t ht)).congr alarms .rfl
          · rw [List.mem_singleton.mp ht]
            exact (Store.Alert.created engine e.shared log).congr alarms .rfl
      | requested id stores alarms =>
          have hroom := room_of_requests (hlog t.engine.id) hfit
          exact ((hbefore (stores ▸ ht)).requested id hroom).congr alarms .rfl
      | @store before after s s' _ stores stores' store =>
          have hother (ht : t ∈ e.stores) : t.Alert (events ++ log) e'.shared :=
            store.alert (hbefore ht) (hlog _) hfit
          rw [stores'] at ht
          rcases List.mem_append.mp ht with ht | ht
          · exact hother (by rw [stores]; exact List.mem_append_left _ ht)
          · rcases List.mem_cons.mp ht with rfl | ht
            · exact store.alert_store (hbefore (by rw [stores]; simp)) (hlog _) hfit
            · exact hother (by rw [stores]; simp [ht])

end Embedding

/-! ## Checkpoints -/

namespace CodeFrame

/-- The frame is at the entry of its function or at the head of a loop. -/
def AtCheckpoint (f : CodeFrame) : Prop :=
  f.entered = false ∨ ∃ t, f.code.ops.getD f.pc .unreachable = .loop t

/-- The store has fuel beyond what the frame used up. -/
def hasFuel (f : CodeFrame) (w : World) : Bool :=
  !w.usesFuel || decide (f.burned + f.owed < w.store.fuel.remaining)

theorem code?_check (f : CodeFrame) (w : World) :
    (f.check w).code? = some .interrupt ↔
      ¬(w.usesFuel ∧ w.store.fuel.remaining ≤ f.burned) ∧
        (w.store.engine.isInterruptable ∧ w.store.deadline ≤ w.epoch) ∧
          w.shared.isPending w.store.signal = true := by
  unfold check
  split
  · rename_i hfuel
    simp [Outcome.code?, hfuel]
  · rename_i hfuel
    split
    · rename_i hdue
      cases hp : w.shared.isPending w.store.signal <;>
        simp [meetDeadline, hp, Outcome.code?, hfuel, hdue]
    · rename_i hdue
      simp [Outcome.code?, hdue]

/-- At a checkpoint the frame reckons its fuel and looks for the deadline; what comes then neither
calls nor leaves. -/
theorem AtCheckpoint.step_eq {f : CodeFrame} (h : f.AtCheckpoint) (w : World) :
    ∃ pass : CodeFrame → World → CodeFrame, f.step w = match f.reckon.check w with
      | .next g w => .next (pass g w) w
      | o => o := by
  obtain ⟨owner, code, pc, entered, locals, blocks, owed, burned⟩ := f
  cases entered with
  | false => exact ⟨fun g _ => { g with entered := true }, rfl⟩
  | true =>
      obtain ⟨t, ht⟩ := h.resolve_left Bool.true_eq_false.mp
      dsimp only at ht
      refine ⟨fun g w =>
        let params := (g.blockType w t).params.length
        (g.openBlock g.pc params params).advance, ?_⟩
      simp only [step, ht]
      rfl

end CodeFrame

/-- Code was interrupted just now. -/
def Control.IsInterrupt (c : Control) : Prop := ∃ trace, c = .fault ⟨.code .interrupt, trace⟩

theorem Machine.step_checkpoint {m : Machine} {f : CodeFrame} {rest : List Activation}
    (hstack : m.stack = .code f :: rest) (hrun : m.control = .run) (hf : f.AtCheckpoint) :
    ∃ m', m.step = .inl m' ∧
      (m'.control.IsInterrupt ↔ (f.reckon.check m.world).code? = some .interrupt) ∧
      (m'.control.IsInterrupt ↔ .interrupted m.world.store.signal ∈ m.events m') := by
  obtain ⟨w, stack, control, used⟩ := m
  cases hstack
  cases hrun
  obtain ⟨pass, hstep⟩ := hf.step_eq w
  have hcheck : (∃ g w', f.reckon.check w = .next g w') ∨
      ∃ c g w', f.reckon.check w = .trap c g w' := by
    unfold CodeFrame.check
    split
    · exact .inr ⟨_, _, _, rfl⟩
    · split
      · split
        · exact .inr ⟨_, _, _, rfl⟩
        · exact .inl ⟨_, _, rfl⟩
      · exact .inl ⟨_, _, rfl⟩
  simp only [events_code]
  rcases hcheck with ⟨g, w', hg⟩ | ⟨c, g, w', hg⟩ <;> rw [hg] at hstep ⊢
  · refine ⟨_, by simp only [step, hstep]; rfl, ?_⟩
    simp [Control.IsInterrupt, hstep, Outcome.code?]
  · refine ⟨_, by simp only [step, hstep]; rfl, ?_⟩
    by_cases hc : c = .interrupt <;> simp [Control.IsInterrupt, hstep, Outcome.code?, raise, hc]

/-- A call of code that has stack to run on begins at a checkpoint. -/
theorem Machine.enter_atCheckpoint {m : Machine} {func : FuncAddr} {type : FuncType}
    {owner : InstanceAddr} {code : FuncCode}
    (hfunc : m.world.store.funcs[func]? = some ⟨type, .code owner code⟩) (hstack : m.hasStack)
    (args : List StoreVal) (caller : Option InstanceAddr) :
    ∃ f, (m.enter func args caller).stack = .code f :: m.stack ∧
      (m.enter func args caller).control = .run ∧ f.AtCheckpoint := by
  simp only [enter, hfunc, hstack]
  exact ⟨_, rfl, rfl, .inl rfl⟩

namespace Embedding

variable {log : List Event} {e : Embedding}

/-- At a checkpoint, the entry of a function or the head of a loop, any code of a store that has fuel
is interrupted just when somebody asked for it since the store was last interrupted or made, and
the log then says so. Requests of other stores do not count. -/
theorem interrupted_iff_asked (h : Run log e) (hfit : requests log < twoTo 64) {s : Site}
    (hs : s ∈ e.sites) (interruptable : s.store.engine.isInterruptable) {t : Task} {f : CodeFrame}
    {rest : List Activation} (hstack : t.stack = .code f :: rest) (hrun : t.control = .run)
    (hf : f.AtCheckpoint) :
    ∃ m, (t.machine ⟨s.store, e.shared⟩).step = .inl m ∧
      (m.control.IsInterrupt ↔ f.hasFuel ⟨s.store, e.shared⟩ ∧ Asked s.store.signal log) ∧
      (m.control.IsInterrupt ↔
        .interrupted s.store.signal ∈ (t.machine ⟨s.store, e.shared⟩).events m) := by
  obtain ⟨m, hstep, hm, hlogged⟩ :=
    Machine.step_checkpoint (m := t.machine ⟨s.store, e.shared⟩) hstack hrun hf
  refine ⟨m, hstep, hm.trans ((f.reckon.code?_check _).trans ?_), hlogged⟩
  have halert := h.alert hfit (List.mem_map_of_mem hs)
  have hfuel : ¬(World.usesFuel ⟨s.store, e.shared⟩ ∧
      s.store.fuel.remaining ≤ f.reckon.burned) ↔ f.hasFuel ⟨s.store, e.shared⟩ := by
    cases huses : World.usesFuel ⟨s.store, e.shared⟩ <;>
      simp [CodeFrame.hasFuel, CodeFrame.reckon, huses]
  rw [← halert.pending_iff]
  constructor
  · rintro ⟨hf, -, hpending⟩
    exact ⟨hfuel.mp hf, hpending⟩
  · rintro ⟨hf, hpending⟩
    exact ⟨hfuel.mpr hf, ⟨interruptable, halert.due (halert.pending_iff.mp hpending)⟩, hpending⟩

/-- An interruptable store for which somebody asked for an interrupt. -/
def hailed : World :=
  { stocked false true {} with
    shared :=
      { signals := #[{ engine := 0, pending := true }], epochs := [(0, 1)], instances := [(0, 1)]
        files := ⟨[], #[]⟩ } }

/-- A request that is made before a call interrupts it at once. -/
theorem interrupted_iff_asked_of_call : ∃ log e, Run log e ∧ requests log < twoTo 64 ∧
    ∃ s ∈ e.sites, s.store.engine.isInterruptable ∧ ∃ t, s.task = some t ∧
      ∃ m, (t.machine ⟨s.store, e.shared⟩).step = .inl m ∧ m.control.IsInterrupt := by
  have asked : Run [.requested 0, .created 0] (alone hailed) :=
    (run_stocked false true).step (.request 0)
  have called := asked.call 0 (emptyCall false 1 0) rfl ⟨rfl, rfl⟩ rfl
  have hfit : requests [.requested 0, .created 0] < twoTo 64 := by decide
  obtain ⟨m, hstep, hm, -⟩ := interrupted_iff_asked called hfit (List.mem_singleton_self _) rfl
    (t := emptyCall false 1 0) rfl rfl (.inl rfl)
  exact ⟨_, _, called, hfit, _, List.mem_singleton_self _, rfl, _, rfl, m, hstep,
    hm.mpr ⟨rfl, [], [.created 0], rfl, List.not_mem_nil, List.not_mem_nil⟩⟩

end Embedding

end WasmHost

import WasmHost.World

/-!
# What boxes leave alone

Boxes, fuel, the log and all that stores share come and go without a change to the objects of a
store: its functions, globals, tables, memories and instances. `Store.objects` is what is left of a
store without the rest, and there is one lemma for each operation that keeps it.
-/

namespace WasmHost

/-- A store without its boxes, closures, deadline, fuel and system interface. -/
def Store.objects (s : Store) : Store :=
  { s with boxes := #[], closures := [], deadline := 0, fuel := {}, wasi := {} }

namespace World

/-- The objects of the store. -/
def objects (w : World) : Store := w.store.objects

theorem foldl_objects {α : Type} {f : World → α → World} (h : ∀ w a, (f w a).objects = w.objects)
    (as : List α) (w : World) : (as.foldl f w).objects = w.objects := by
  induction as generalizing w with
  | nil => rfl
  | cons a as ih => exact (ih (f w a)).trans (h w a)

/-! ## Boxes -/

@[simp] theorem objects_mapShared (f : Shared → Shared) (w : World) :
    (w.mapShared f).objects = w.objects := rfl

@[simp] theorem objects_clone (r : RefId) (w : World) : (w.clone r).objects = w.objects := rfl

@[simp] theorem objects_release (r : RefId) (w : World) : (w.release r).objects = w.objects := rfl

@[simp] theorem objects_updateBox (f : Box → Box) (b : BoxId) (w : World) :
    (w.updateBox f b).objects = w.objects := by
  unfold updateBox
  split
  · rfl
  · dsimp only
    split <;> rfl

@[simp] theorem objects_hold (b : BoxId) (w : World) : (w.hold b).objects = w.objects :=
  objects_updateBox _ b w

@[simp] theorem objects_unhold (b : BoxId) (w : World) : (w.unhold b).objects = w.objects :=
  objects_updateBox _ b w

@[simp] theorem objects_expose (b : BoxId) (w : World) : (w.expose b).objects = w.objects :=
  objects_updateBox _ b w

@[simp] theorem objects_holdVal (v : StoreVal) (w : World) : (w.holdVal v).objects = w.objects := by
  unfold holdVal
  cases boxOf v with
  | none => rfl
  | some b => exact objects_hold b w

@[simp] theorem objects_unholdVal (v : StoreVal) (w : World) :
    (w.unholdVal v).objects = w.objects := by
  unfold unholdVal
  cases boxOf v with
  | none => rfl
  | some b => exact objects_unhold b w

@[simp] theorem objects_exposeVal (v : StoreVal) (w : World) :
    (w.exposeVal v).objects = w.objects := by
  unfold exposeVal
  cases boxOf v with
  | none => rfl
  | some b => exact objects_expose b w

@[simp] theorem objects_holdAll (vs : List StoreVal) (w : World) :
    (w.holdAll vs).objects = w.objects :=
  foldl_objects (fun w v => objects_holdVal v w) vs w

@[simp] theorem objects_unholdAll (vs : List StoreVal) (w : World) :
    (w.unholdAll vs).objects = w.objects :=
  foldl_objects (fun w v => objects_unholdVal v w) vs w

@[simp] theorem objects_exposeAll (vs : List StoreVal) (w : World) :
    (w.exposeAll vs).objects = w.objects :=
  foldl_objects (fun w v => objects_exposeVal v w) vs w

@[simp] theorem objects_collect (live : List BoxId) (w : World) :
    (w.collect live).objects = w.objects := by
  refine foldl_objects (fun w b => ?_) _ w
  split
  · rfl
  · exact objects_updateBox _ b w

/-! ## Values at the border -/

@[simp] theorem objects_accept (v : HostVal) (w : World) : (w.accept v).2.objects = w.objects := by
  unfold accept
  split <;> rfl

@[simp] theorem objects_acceptAll (vs : List HostVal) (w : World) :
    (w.acceptAll vs).2.objects = w.objects := by
  induction vs generalizing w with
  | nil => rfl
  | cons v vs ih => exact (ih _).trans (objects_accept v w)

/-- Taking what an embedder passes to a call. -/
theorem objects_taken (args : List HostVal) (w : World) :
    ((w.acceptAll args).2.exposeAll (w.acceptAll args).1).objects = w.objects :=
  (objects_exposeAll _ _).trans (objects_acceptAll args w)

@[simp] theorem objects_reveal (v : StoreVal) (w : World) : (w.reveal v).2.objects = w.objects := by
  simp only [reveal]
  cases (w.view v).foreign? <;> rfl

@[simp] theorem objects_revealAll (vs : List StoreVal) (w : World) :
    (w.revealAll vs).2.objects = w.objects := by
  induction vs generalizing w with
  | nil => rfl
  | cons v vs ih => exact (ih _).trans (objects_reveal v w)

@[simp] theorem objects_discard (v : HostVal) (w : World) : (w.discard v).objects = w.objects := by
  unfold discard
  cases v.foreign? <;> rfl

@[simp] theorem objects_discardAll (vs : List HostVal) (w : World) :
    (w.discardAll vs).objects = w.objects :=
  foldl_objects (fun w v => objects_discard v w) vs w

/-! ## Fuel, interrupts, the log and the system interface -/

@[simp] theorem objects_mapFuel (f : Fuel → Fuel) (w : World) : (w.mapFuel f).objects = w.objects :=
  rfl

theorem addFuel_eq_ok {n : Nat} {w w' : World} (h : w.addFuel n = .ok w') :
    w.usesFuel ∧ w' = w.mapFuel (·.add n) := by
  unfold addFuel at h
  split at h <;> cases h
  exact ⟨‹_›, rfl⟩

theorem addFuel_eq_error {n : Nat} {w : World} {e : Error} (h : w.addFuel n = .error e) :
    ¬w.usesFuel := by
  unfold addFuel at h
  split at h
  · cases h
  · assumption

theorem objects_addFuel {n : Nat} {w w' : World} (h : w.addFuel n = .ok w') :
    w'.objects = w.objects := by
  obtain ⟨-, rfl⟩ := addFuel_eq_ok h
  rfl

@[simp] theorem objects_interrupt (signal : SignalId) (w : World) :
    (w.interrupt signal).objects = w.objects := rfl

@[simp] theorem objects_meetDeadline (w : World) : w.meetDeadline.2.objects = w.objects := by
  unfold meetDeadline
  split <;> rfl

@[simp] theorem objects_log (e : LogEntry) (w : World) : (w.log e).objects = w.objects := rfl

theorem objects_setWasi {c : Wasi.Config} {w w' : World} (h : w.setWasi c = .ok w') :
    w'.objects = w.objects := by
  unfold setWasi at h
  cases hb : c.build w.shared.process w.shared.files with
  | error e => simp [hb, Except.map] at h
  | ok context =>
      simp only [hb, Except.map, Except.ok.injEq] at h
      subst h
      rfl

end World

end WasmHost

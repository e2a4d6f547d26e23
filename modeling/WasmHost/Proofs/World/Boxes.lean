import WasmHost.Proofs.World.Extension
import WasmHost.Proofs.World.Holdings

/-!
# Boxes keep what was put into them

A value of a store looks the same from outside for as long as the box in it keeps its reference.
`World.Keeps` says that all boxes do. A value that is taken into a store looks as it did before, and
a value that leaves brings a reference to the same thing.
-/

namespace WasmHost

/-- The same box later. -/
def Box.Becomes (x y : Box) : Prop := y.ref = x.ref

theorem Box.Becomes.refl (x : Box) : x.Becomes x := rfl

namespace World

/-- Each box of the first world has the same reference in the second one. -/
def Keeps (w w' : World) : Prop := Extended Box.Becomes w.store.boxes w'.store.boxes

/-- The box in a value, if it holds one, is there. -/
def Boxed (w : World) (v : StoreVal) : Prop := ∀ b ∈ boxOf v, b < w.store.boxes.size

namespace Keeps

variable {w w' w'' : World}

theorem of_boxes (h : w'.store.boxes = w.store.boxes) : w.Keeps w' := by
  unfold Keeps
  rw [h]
  exact .refl Box.Becomes.refl _

theorem refl (w : World) : w.Keeps w := of_boxes rfl

theorem trans (h : w.Keeps w') (h' : w'.Keeps w'') : w.Keeps w'' :=
  Extended.trans (fun hxy hyz => Eq.trans hyz hxy) h h'

theorem boxed (h : w.Keeps w') {v : StoreVal} (hv : w.Boxed v) : w'.Boxed v := by
  intro b hb
  obtain ⟨y, hy, -⟩ := h b _ (Array.getElem?_eq_getElem (hv b hb))
  exact (Array.getElem?_eq_some_iff.mp hy).1

/-- What looked like something looks like that later on. -/
theorem view (h : w.Keeps w') {v : StoreVal} (hv : w.Boxed v) : w'.view v = w.view v := by
  cases v with
  | externref r =>
      cases r with
      | none => rfl
      | some b =>
          obtain ⟨x, hb⟩ : ∃ x, w.store.boxes[b]? = some x :=
            ⟨_, Array.getElem?_eq_getElem (hv b rfl)⟩
          obtain ⟨y, hy, href⟩ := h b x hb
          have href : y.ref = x.ref := href
          simp only [World.view, box?, Val.map, Option.map_some, hy, hb, href]
  | _ => rfl

theorem foldl {α : Type} {f : World → α → World} (hf : ∀ (w : World) (a : α), w.Keeps (f w a))
    (as : List α) (w : World) : w.Keeps (as.foldl f w) := by
  induction as generalizing w with
  | nil => exact .refl w
  | cons a as ih => exact (hf w a).trans (ih (f w a))

end Keeps

/-! ## What boxes leave alone -/

section Objects

variable {w w' : World}

theorem globalValue_of_objects (h : w'.objects = w.objects) (addr : Nat) :
    w'.globalValue addr = w.globalValue addr := by
  have hglobals : w'.store.globals = w.store.globals := (congrArg Store.globals h :)
  simp only [globalValue, hglobals]

theorem table_of_objects (h : w'.objects = w.objects) (addr : Nat) :
    w'.table addr = w.table addr := by
  have htables : w'.store.tables = w.store.tables := (congrArg Store.tables h :)
  simp only [table, htables]

end Objects

/-! ## Boxes -/

theorem keeps_updateBox {f : Box → Box} (hf : ∀ x : Box, x.Becomes (f x)) (b : BoxId) (w : World) :
    w.Keeps (w.updateBox f b) := by
  unfold Keeps
  rw [store_updateBox]
  exact .modify Box.Becomes.refl fun x _ => hf x

/-- What is done to boxes cannot be seen from outside. -/
theorem view_updateBox {f : Box → Box} (hf : ∀ x : Box, x.Becomes (f x)) (b : BoxId) (w : World) :
    (w.updateBox f b).view = w.view := by
  funext v
  have href (c : BoxId) : ((w.updateBox f b).box? c).map (·.ref) = (w.box? c).map (·.ref) := by
    simp only [box?, store_updateBox, Array.getElem?_modify]
    split
    · cases w.store.boxes[c]? with
      | none => rfl
      | some x => exact congrArg some (hf x)
    · rfl
  simp only [view, href]

theorem view_foldl {α : Type} {f : World → α → World} (hf : ∀ w a, (f w a).view = w.view)
    (as : List α) (w : World) : (as.foldl f w).view = w.view := by
  induction as generalizing w with
  | nil => rfl
  | cons a as ih => exact (ih (f w a)).trans (hf w a)

theorem keeps_hold (b : BoxId) (w : World) : w.Keeps (w.hold b) :=
  keeps_updateBox (by intro; rfl) b w

theorem keeps_holdVal (v : StoreVal) (w : World) : w.Keeps (w.holdVal v) := by
  unfold holdVal
  cases boxOf v with
  | none => exact .refl w
  | some b => exact keeps_hold b w

theorem keeps_unhold (b : BoxId) (w : World) : w.Keeps (w.unhold b) :=
  keeps_updateBox (by intro; rfl) b w

theorem keeps_unholdVal (v : StoreVal) (w : World) : w.Keeps (w.unholdVal v) := by
  unfold unholdVal
  cases boxOf v with
  | none => exact .refl w
  | some b => exact keeps_unhold b w

theorem keeps_expose (b : BoxId) (w : World) : w.Keeps (w.expose b) :=
  keeps_updateBox (by intro; rfl) b w

theorem keeps_exposeVal (v : StoreVal) (w : World) : w.Keeps (w.exposeVal v) := by
  unfold exposeVal
  cases boxOf v with
  | none => exact .refl w
  | some b => exact keeps_expose b w

@[simp] theorem view_holdVal (v : StoreVal) (w : World) : (w.holdVal v).view = w.view := by
  unfold holdVal
  cases boxOf v with
  | none => rfl
  | some b => exact view_updateBox (by intro; rfl) b w

@[simp] theorem view_holdAll (vs : List StoreVal) (w : World) : (w.holdAll vs).view = w.view :=
  view_foldl (fun w v => view_holdVal v w) vs w

theorem keeps_holdAll (vs : List StoreVal) (w : World) : w.Keeps (w.holdAll vs) :=
  .foldl (fun w v => keeps_holdVal v w) vs w

@[simp] theorem view_unholdVal (v : StoreVal) (w : World) : (w.unholdVal v).view = w.view := by
  unfold unholdVal
  cases boxOf v with
  | none => rfl
  | some b => exact view_updateBox (by intro; rfl) b w

@[simp] theorem view_unholdAll (vs : List StoreVal) (w : World) : (w.unholdAll vs).view = w.view :=
  view_foldl (fun w v => view_unholdVal v w) vs w

@[simp] theorem view_exposeVal (v : StoreVal) (w : World) : (w.exposeVal v).view = w.view := by
  unfold exposeVal
  cases boxOf v with
  | none => rfl
  | some b => exact view_updateBox (by intro; rfl) b w

@[simp] theorem view_exposeAll (vs : List StoreVal) (w : World) : (w.exposeAll vs).view = w.view :=
  view_foldl (fun w v => view_exposeVal v w) vs w

theorem keeps_exposeAll (vs : List StoreVal) (w : World) : w.Keeps (w.exposeAll vs) :=
  .foldl (fun w v => keeps_exposeVal v w) vs w

/-! ## Values at the border -/

theorem keeps_accept (v : HostVal) (w : World) : w.Keeps (w.accept v).2 := by
  cases v with
  | externref r =>
      cases r with
      | none => exact .refl w
      | some r => exact Extended.push Box.Becomes.refl _ _
  | _ => exact .refl w

theorem boxed_accept (v : HostVal) (w : World) : (w.accept v).2.Boxed (w.accept v).1 := by
  intro b hb
  cases v with
  | externref r =>
      cases r with
      | none => cases hb
      | some r =>
          cases hb
          simp [accept, putIn, mapStore, clone, mapRefs, mapShared]
  | _ => cases hb

/-- A value that is taken into a store looks as it did before. -/
@[simp] theorem view_accept (v : HostVal) (w : World) : (w.accept v).2.view (w.accept v).1 = v := by
  cases v with
  | externref r =>
      cases r with
      | none => rfl
      | some r =>
          simp [accept, putIn, view, box?, Val.map, mapStore, clone, mapRefs, mapShared]
  | _ => rfl

@[simp] theorem type_accept (v : HostVal) (w : World) : (w.accept v).1.type = v.type := by
  cases v with
  | externref r => cases r <;> rfl
  | _ => rfl

@[simp] theorem type_view (v : StoreVal) (w : World) : (w.view v).type = v.type :=
  Val.type_map _ v

theorem keeps_acceptAll (vs : List HostVal) (w : World) : w.Keeps (w.acceptAll vs).2 := by
  induction vs generalizing w with
  | nil => exact .refl w
  | cons v vs ih => exact (keeps_accept v w).trans (ih _)

theorem boxed_acceptAll (vs : List HostVal) (w : World) :
    ∀ v ∈ (w.acceptAll vs).1, (w.acceptAll vs).2.Boxed v := by
  induction vs generalizing w with
  | nil => exact fun v hv => absurd hv List.not_mem_nil
  | cons v vs ih =>
      intro u hu
      rcases List.mem_cons.mp hu with rfl | hu
      · exact (keeps_acceptAll vs _).boxed (boxed_accept v w)
      · exact ih _ u hu

/-- Values that are taken into a store look as they did before. -/
theorem view_acceptAll (vs : List HostVal) (w : World) :
    (w.acceptAll vs).1.map (w.acceptAll vs).2.view = vs := by
  induction vs generalizing w with
  | nil => rfl
  | cons v vs ih =>
      have hkept := (keeps_acceptAll vs (w.accept v).2).view (boxed_accept v w)
      exact List.cons_eq_cons.mpr ⟨hkept.trans (view_accept v w), ih _⟩

theorem types_acceptAll (vs : List HostVal) (w : World) :
    (w.acceptAll vs).1.map Val.type = vs.map Val.type := by
  induction vs generalizing w with
  | nil => rfl
  | cons v vs ih => exact List.cons_eq_cons.mpr ⟨type_accept v w, ih _⟩

theorem store_revealAll (vs : List StoreVal) (w : World) : (w.revealAll vs).2.store = w.store := by
  induction vs generalizing w with
  | nil => rfl
  | cons v vs ih => exact (ih _).trans (store_reveal v w)

theorem view_of_store {w w' : World} (h : w'.store = w.store) : w'.view = w.view := by
  funext v
  simp only [view, box?, h]

/-- Values that leave a store are what they look like from outside. -/
@[simp] theorem revealAll_fst (vs : List StoreVal) (w : World) :
    (w.revealAll vs).1 = vs.map w.view := by
  induction vs generalizing w with
  | nil => rfl
  | cons v vs ih =>
      have hvs := ih (w.reveal v).2
      rw [view_of_store (store_reveal v w)] at hvs
      exact List.cons_eq_cons.mpr ⟨rfl, hvs⟩

theorem store_discard (v : HostVal) (w : World) : (w.discard v).store = w.store := by
  unfold discard
  cases v.foreign? <;> rfl

theorem store_discardAll (vs : List HostVal) (w : World) : (w.discardAll vs).store = w.store := by
  unfold discardAll
  induction vs generalizing w with
  | nil => rfl
  | cons v vs ih => exact (ih _).trans (store_discard v w)

end World

end WasmHost

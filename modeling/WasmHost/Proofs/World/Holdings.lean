import WasmHost.Proofs.References
import WasmHost.Machine.Instantiate

/-!
# What the boxes of a store keep

A box of a store is kept by the globals and table elements that hold it, by the operations that do,
and by code that has seen it. `World.Sound` says that these are counted: each of the references that
live boxes keep has a clone for it, a box is held at least as often as something holds it, and what
code may still use is marked as seen. Each operation on a store keeps it so.
-/

namespace WasmHost

open Val

namespace Store

/-- The references that live boxes keep. -/
def boxed (s : Store) : Multiset RefId :=
  (s.boxes.toList.map fun x => if x.isLive then {x.ref} else 0).sum

/-- The boxes that globals hold. -/
def globalSlots (s : Store) : Multiset BoxId := foreigns (s.globals.toList.map (·.value))

/-- The boxes that elements of tables hold. -/
def tableSlots (s : Store) : Multiset BoxId :=
  (s.tables.toList.map fun t => foreigns t.elems.toList).sum

/-- The boxes that globals and elements of tables hold. -/
def slots (s : Store) : Multiset BoxId := s.globalSlots + s.tableSlots

/-- How often a box is held. -/
def holds (s : Store) (b : BoxId) : Nat := (s.boxes[b]?.map (·.holds)).getD 0

/-- The boxes that code has seen. -/
def seen (s : Store) : Set BoxId := {b | ∃ x, s.boxes[b]? = some x ∧ x.exposed}

end Store

namespace World

/-- The clones that there are belong to `O` and to the live boxes, `H` holds boxes besides globals
and tables, and the boxes in `S` are marked as seen. The heap was once `h₀`. -/
structure Sound (h₀ : RefHeap) (O : Multiset RefId) (H : Multiset BoxId) (S : Set BoxId)
    (w : World) : Prop where
  refs : h₀.Accounted (O + w.store.boxed) w.shared.refs
  held : ∀ b, (w.store.slots + H).count b ≤ w.store.holds b
  seen : S ⊆ w.store.seen

/-- Something keeps the box. -/
def Kept (H : Multiset BoxId) (S : Set BoxId) (w : World) (b : BoxId) : Prop :=
  b ∈ w.store.slots + H ∨ b ∈ S

variable {h₀ : RefHeap} {O O' : Multiset RefId} {H H' : Multiset BoxId} {S S' : Set BoxId}
  {w w' : World}

/-- The boxes of values that an operation holds are kept. -/
theorem kept_of_held {vs : List StoreVal} (b : BoxId) (hb : b ∈ foreigns vs) :
    w.Kept (foreigns vs + H) S b := .inl (by simp [hb])

namespace Sound

theorem of_le (h : w.Sound h₀ O H S) (hrefs : w'.shared.refs = w.shared.refs)
    (hboxes : w'.store.boxes = w.store.boxes) (hslots : w'.store.slots + H' ≤ w.store.slots + H) :
    w'.Sound h₀ O H' S := by
  constructor
  · simpa only [hrefs, Store.boxed, hboxes] using h.refs
  · intro b
    have hle := Nat.le_trans (Multiset.count_le_of_le b hslots) (h.held b)
    simpa only [Store.holds, hboxes] using hle
  · simpa only [Store.seen, hboxes] using h.seen

theorem weaken (h : w.Sound h₀ O H S) (hH : H' ≤ H) : w.Sound h₀ O H' S :=
  h.of_le rfl rfl (add_le_add_right hH _)

/-- The same owners told in another way, and perhaps fewer holders. -/
theorem reshape (h : w.Sound h₀ O H S) (hO : O' = O) (hH : H' ≤ H) : w.Sound h₀ O' H' S :=
  hO ▸ h.weaken hH

theorem forget (h : w.Sound h₀ O H S) (hS : S' ⊆ S) : w.Sound h₀ O H S' :=
  ⟨h.refs, h.held, hS.trans h.seen⟩

/-- A box that something keeps is live. -/
theorem box (h : w.Sound h₀ O H S) {b : BoxId} (hb : w.Kept H S b) :
    ∃ x, w.store.boxes[b]? = some x ∧ x.isLive := by
  rcases hb with hb | hb
  · have hheld := Nat.lt_of_lt_of_le (Multiset.count_pos.mpr hb) (h.held b)
    unfold Store.holds at hheld
    cases hx : w.store.boxes[b]? with
    | none => simp [hx] at hheld
    | some x =>
        simp only [hx, Option.map_some, Option.getD_some] at hheld
        exact ⟨x, rfl, by simp [Box.isLive]; omega⟩
  · obtain ⟨x, hx, hseen⟩ := h.seen hb
    exact ⟨x, hx, by simp [Box.isLive, hseen]⟩

theorem ref_mem_boxed {b : BoxId} {x : Box} (hx : w.store.boxes[b]? = some x) (live : x.isLive) :
    x.ref ∈ w.store.boxed := by
  rw [Store.boxed, ← coe_map_filter, Multiset.mem_coe]
  refine List.mem_map_of_mem (List.mem_filter.mpr ⟨?_, live⟩)
  exact List.mem_of_getElem? (by simpa using hx)

end Sound

/-! ## Boxes -/

theorem store_updateBox (f : Box → Box) (b : BoxId) (w : World) :
    (w.updateBox f b).store = { w.store with boxes := w.store.boxes.modify b f } := by
  unfold updateBox box?
  cases hb : w.store.boxes[b]? with
  | none => rw [modify_of_none hb]
  | some x =>
      have hset : w.store.boxes.setIfInBounds b (f x) = w.store.boxes.modify b f := by
        refine Array.ext_getElem? fun i => ?_
        rw [Array.getElem?_modify, Array.getElem?_setIfInBounds]
        split
        · subst b
          obtain ⟨hlt, hx⟩ := Array.getElem?_eq_some_iff.mp hb
          simp [hlt, hx]
        · rfl
      dsimp only
      split <;> simp only [release, mapRefs, mapShared, mapStore, hset]

@[simp] theorem slots_updateBox (f : Box → Box) (b : BoxId) (w : World) :
    (w.updateBox f b).store.slots = w.store.slots := by
  rw [store_updateBox]
  rfl

theorem holds_updateBox {f : Box → Box} {b : BoxId} {x : Box} (hx : w.store.boxes[b]? = some x)
    (c : BoxId) :
    (w.updateBox f b).store.holds c = if c = b then (f x).holds else w.store.holds c := by
  simp only [Store.holds, store_updateBox, Array.getElem?_modify]
  by_cases hc : c = b
  · subst hc
    simp [hx]
  · simp [hc, Ne.symm hc]

theorem mem_seen_updateBox {f : Box → Box} {b c : BoxId} (hc : c ∈ w.store.seen)
    (hf : ∀ x, c = b → x.exposed → (f x).exposed) : c ∈ (w.updateBox f b).store.seen := by
  obtain ⟨x, hx, hseen⟩ := hc
  simp only [Store.seen, Set.mem_ofPred_eq, store_updateBox, Array.getElem?_modify]
  by_cases hb : b = c
  · exact ⟨f x, by simp [hb, hx], hf x hb.symm hseen⟩
  · exact ⟨x, by simp [hb, hx], hseen⟩

theorem accounted_updateBox {f : Box → Box} {b : BoxId} {x : Box}
    (hx : w.store.boxes[b]? = some x) (hf : (f x).ref = x.ref) (hlive : (f x).isLive → x.isLive)
    (h : h₀.Accounted (O + w.store.boxed) w.shared.refs) :
    h₀.Accounted (O + (w.updateBox f b).store.boxed) (w.updateBox f b).shared.refs := by
  have hboxed : (w.updateBox f b).store.boxed + (if x.isLive then {x.ref} else 0) =
      w.store.boxed + (if (f x).isLive then {x.ref} else 0) := by
    simp only [Store.boxed, store_updateBox, Array.toList_modify]
    rw [← hf]
    have hsum := sum_map_modify (fun x : Box => if x.isLive then ({x.ref} : Multiset RefId) else 0) f
      (by simpa using hx : w.store.boxes.toList[b]? = some x)
    simpa only [hf] using hsum
  have hrefs : (w.updateBox f b).shared.refs =
      if x.isLive && !(f x).isLive then w.shared.refs.release x.ref else w.shared.refs := by
    simp only [updateBox, box?, hx]
    split <;> rfl
  rw [hrefs]
  cases hold : x.isLive with
  | false =>
      have hnew : (f x).isLive = false := by simpa [hold] using mt hlive
      simp only [hold, hnew, Bool.false_eq_true, if_false, add_zero] at hboxed
      simpa [hboxed] using h
  | true =>
      cases hnew : (f x).isLive with
      | true =>
          simp only [hold, hnew, if_true, add_left_inj] at hboxed
          simpa [hboxed] using h
      | false =>
          simp only [hold, hnew, if_true, Bool.false_eq_true, if_false, add_zero] at hboxed
          rw [← hboxed, ← add_assoc, add_comm _ ({x.ref} : Multiset RefId),
            Multiset.singleton_add] at h
          exact h.release

namespace Sound

variable {b : BoxId}

theorem hold (h : w.Sound h₀ O H S) (hb : w.Kept H S b) : (w.hold b).Sound h₀ O (b ::ₘ H) S := by
  obtain ⟨x, hx, hlive⟩ := h.box hb
  refine ⟨accounted_updateBox hx rfl (fun _ => hlive) h.refs, fun c => ?_, fun c hc => ?_⟩
  · rw [World.hold, holds_updateBox hx, slots_updateBox, Multiset.add_cons, Multiset.count_cons]
    have hheld := h.held c
    by_cases hcb : c = b
    · subst hcb
      simp only [Store.holds, hx, Option.map_some, Option.getD_some] at hheld
      simpa using hheld
    · simpa [hcb] using hheld
  · exact mem_seen_updateBox (h.seen hc) fun _ _ hx => hx

theorem unhold (h : w.Sound h₀ O (b ::ₘ H) S) : (w.unhold b).Sound h₀ O H S := by
  obtain ⟨x, hx, hlive⟩ := h.box (b := b) (.inl (by simp))
  refine ⟨accounted_updateBox hx rfl (fun _ => hlive) h.refs, fun c => ?_, fun c hc => ?_⟩
  · rw [World.unhold, holds_updateBox hx, slots_updateBox]
    have hheld := h.held c
    rw [Multiset.add_cons, Multiset.count_cons] at hheld
    by_cases hcb : c = b
    · subst hcb
      simp only [Store.holds, hx, Option.map_some, Option.getD_some, if_true] at hheld ⊢
      omega
    · simpa [hcb] using hheld
  · exact mem_seen_updateBox (h.seen hc) fun _ _ hx => hx

theorem expose (h : w.Sound h₀ O H S) (hb : w.Kept H S b) :
    (w.expose b).Sound h₀ O H (insert b S) := by
  obtain ⟨x, hx, hlive⟩ := h.box hb
  refine ⟨accounted_updateBox hx rfl (fun _ => hlive) h.refs, fun c => ?_, fun c hc => ?_⟩
  · rw [World.expose, holds_updateBox hx, slots_updateBox]
    have hheld := h.held c
    by_cases hcb : c = b
    · subst hcb
      simpa [Store.holds, hx] using hheld
    · simpa [hcb] using hheld
  · rcases hc with rfl | hc
    · refine ⟨{ x with exposed := true }, ?_, rfl⟩
      simp [World.expose, store_updateBox, Array.getElem?_modify, hx]
    · exact mem_seen_updateBox (h.seen hc) fun _ _ _ => rfl

/-- A box that code does not use any longer is given up unless something holds it. -/
theorem conceal (h : w.Sound h₀ O H S) (hb : b ∉ S) :
    (w.updateBox ({ · with exposed := false }) b).Sound h₀ O H S := by
  cases hx : w.store.boxes[b]? with
  | none =>
      have hsame : w.updateBox ({ · with exposed := false }) b = w := by simp [updateBox, box?, hx]
      rwa [hsame]
  | some x =>
      have hlive : ({ x with exposed := false } : Box).isLive → x.isLive := by
        simp only [Box.isLive, Bool.or_false, Bool.or_eq_true]
        exact .inl
      refine ⟨accounted_updateBox hx rfl hlive h.refs, fun c => ?_, fun c hc => ?_⟩
      · rw [holds_updateBox hx, slots_updateBox]
        have hheld := h.held c
        by_cases hcb : c = b
        · subst hcb
          simpa [Store.holds, hx] using hheld
        · simpa [hcb] using hheld
      · exact mem_seen_updateBox (h.seen hc) fun _ hcb => absurd (hcb ▸ hc) hb

theorem putIn {r : RefId} (h : w.Sound h₀ O H S) (hr : r ∈ O) :
    (w.putIn r).2.Sound h₀ O ((w.putIn r).1 ::ₘ H) S := by
  have hboxed : (w.putIn r).2.store.boxed = w.store.boxed + {r} := by
    simp [World.putIn, Store.boxed, mapStore, World.clone, mapRefs, mapShared, Box.isLive]
  refine ⟨?_, fun c => ?_, fun c hc => ?_⟩
  · rw [hboxed, ← add_assoc, add_comm _ ({r} : Multiset RefId), Multiset.singleton_add]
    exact h.refs.clone (Multiset.mem_add.mpr (.inl hr))
  · have hheld := h.held c
    have hslots : (w.putIn r).2.store.slots = w.store.slots := rfl
    have hnew : (w.putIn r).1 = w.store.boxes.size := rfl
    have hholds : (w.putIn r).2.store.holds c =
        if c = w.store.boxes.size then 1 else w.store.holds c := by
      simp only [Store.holds, World.putIn, mapStore, World.clone, mapRefs, mapShared,
        Array.getElem?_push]
      split <;> rfl
    rw [hslots, hnew, hholds, Multiset.add_cons, Multiset.count_cons]
    split
    · rename_i hc
      rw [hc] at hheld ⊢
      simp only [Store.holds, Array.getElem?_eq_none (Nat.le_refl _), Option.map_none,
        Option.getD_none] at hheld
      omega
    · simpa using hheld
  · obtain ⟨x, hx, hseen⟩ := h.seen hc
    obtain ⟨hlt, -⟩ := Array.getElem?_eq_some_iff.mp hx
    refine ⟨x, ?_, hseen⟩
    simp only [World.putIn, mapStore, World.clone, mapRefs, mapShared, Array.getElem?_push]
    rwa [if_neg (Nat.ne_of_lt hlt)]

end Sound

/-! ## Values at the border -/

section Same

variable (v : StoreVal) (w : World)

theorem store_holdVal : ∃ boxes, (w.holdVal v).store = { w.store with boxes } := by
  unfold holdVal
  cases boxOf v with
  | none => exact ⟨w.store.boxes, rfl⟩
  | some b => exact ⟨_, store_updateBox _ b w⟩

theorem store_unholdVal : ∃ boxes, (w.unholdVal v).store = { w.store with boxes } := by
  unfold unholdVal
  cases boxOf v with
  | none => exact ⟨w.store.boxes, rfl⟩
  | some b => exact ⟨_, store_updateBox _ b w⟩

@[simp] theorem slots_holdVal : (w.holdVal v).store.slots = w.store.slots := by
  obtain ⟨boxes, h⟩ := store_holdVal v w
  rw [h]
  rfl

@[simp] theorem slots_exposeVal : (w.exposeVal v).store.slots = w.store.slots := by
  unfold exposeVal
  cases boxOf v with
  | none => rfl
  | some b => exact slots_updateBox _ b w

@[simp] theorem store_reveal : (w.reveal v).2.store = w.store := by
  simp only [reveal]
  cases (w.view v).foreign? <;> rfl

end Same

namespace Sound

theorem holdVal {v : StoreVal} (h : w.Sound h₀ O H S) (hv : ∀ b ∈ foreigns [v], w.Kept H S b) :
    (w.holdVal v).Sound h₀ O (foreigns [v] + H) S := by
  unfold World.holdVal boxOf
  cases hb : v.foreign? with
  | none => simpa [foreigns_of_none hb] using h
  | some b =>
      rw [foreigns_of_some hb] at hv ⊢
      exact h.hold (hv b (Multiset.mem_singleton_self b))

theorem unholdVal {v : StoreVal} (h : w.Sound h₀ O (foreigns [v] + H) S) :
    (w.unholdVal v).Sound h₀ O H S := by
  unfold World.unholdVal boxOf
  cases hb : v.foreign? with
  | none => simpa [foreigns_of_none hb] using h
  | some b =>
      rw [foreigns_of_some hb] at h
      exact h.unhold

theorem exposeVal {v : StoreVal} (h : w.Sound h₀ O H S) (hv : ∀ b ∈ foreigns [v], w.Kept H S b) :
    (w.exposeVal v).Sound h₀ O H (S ∪ {b | b ∈ foreigns [v]}) := by
  unfold World.exposeVal boxOf
  cases hb : v.foreign? with
  | none => simpa [foreigns_of_none hb] using h
  | some b =>
      rw [foreigns_of_some hb] at hv ⊢
      refine (h.expose (hv b (Multiset.mem_singleton_self b))).forget ?_
      rintro c (hc | hc)
      · exact .inr hc
      · exact .inl (Multiset.mem_singleton.mp hc)

theorem holdAll {vs : List StoreVal} (h : w.Sound h₀ O H S)
    (hvs : ∀ b ∈ foreigns vs, w.Kept H S b) : (w.holdAll vs).Sound h₀ O (foreigns vs + H) S := by
  induction vs generalizing w H with
  | nil => simpa [World.holdAll] using h
  | cons v vs ih =>
      rw [foreigns_cons] at hvs ⊢
      have hheld := ih (h.holdVal fun b hb => hvs b (Multiset.mem_add.mpr (.inl hb))) fun b hb => by
        rcases hvs b (Multiset.mem_add.mpr (.inr hb)) with hb | hb
        · simp only [Multiset.mem_add] at hb
          exact .inl (by simpa using hb.imp_right .inr)
        · exact .inr hb
      rwa [add_left_comm, ← add_assoc] at hheld

theorem unholdAll {vs : List StoreVal} (h : w.Sound h₀ O (foreigns vs + H) S) :
    (w.unholdAll vs).Sound h₀ O H S := by
  induction vs generalizing w with
  | nil => simpa [World.unholdAll] using h
  | cons v vs ih =>
      rw [foreigns_cons, add_assoc] at h
      exact ih h.unholdVal

theorem exposeAll {vs : List StoreVal} (h : w.Sound h₀ O H S)
    (hvs : ∀ b ∈ foreigns vs, w.Kept H S b) :
    (w.exposeAll vs).Sound h₀ O H (S ∪ {b | b ∈ foreigns vs}) := by
  induction vs generalizing w S with
  | nil => exact h.forget (by simp)
  | cons v vs ih =>
      rw [foreigns_cons] at hvs
      refine (ih (h.exposeVal fun b hb => hvs b (Multiset.mem_add.mpr (.inl hb))) fun b hb => ?_).forget
        ?_
      · rcases hvs b (Multiset.mem_add.mpr (.inr hb)) with hb | hb
        · exact .inl (by simpa using hb)
        · exact .inr (.inl hb)
      · rintro b (hb | hb)
        · exact .inl (.inl hb)
        · rw [Set.mem_ofPred_eq, foreigns_cons, Multiset.mem_add] at hb
          exact hb.elim (fun hb => .inl (.inr hb)) .inr

/-- Boxes that code does not use any longer are given up unless something holds them. -/
theorem collect (h : w.Sound h₀ O H S) (live : List BoxId) :
    (w.collect live).Sound h₀ O H (S ∩ {b | b ∈ live}) := by
  unfold World.collect
  suffices hall : ∀ (bs : List BoxId) (w : World), w.Sound h₀ O H (S ∩ {b | b ∈ live}) →
      (bs.foldl (fun w b => if live.contains b then w else
        w.updateBox ({ · with exposed := false }) b) w).Sound h₀ O H (S ∩ {b | b ∈ live}) from
    hall _ w (h.forget Set.inter_subset_left)
  intro bs
  induction bs with
  | nil => exact fun w h => h
  | cons b bs ih =>
      intro w h
      refine ih _ ?_
      dsimp only
      split
      · exact h
      · rename_i hb
        exact h.conceal fun hmem => hb (List.contains_iff_mem.mpr hmem.2)

theorem accept {v : HostVal} (h : w.Sound h₀ O H S) (hv : ∀ r ∈ foreigns [v], r ∈ O) :
    (w.accept v).2.Sound h₀ O (foreigns [(w.accept v).1] + H) S := by
  have hplain (h' : w.Sound h₀ O H S) {u : StoreVal} (hu : u.foreign? = none) :
      w.Sound h₀ O (foreigns [u] + H) S := by rwa [foreigns_of_none hu, zero_add]
  cases v with
  | externref r =>
      cases r with
      | none => exact hplain h rfl
      | some r => exact h.putIn (hv r (by simp [foreigns, foreign?]))
  | _ => exact hplain h rfl

theorem acceptAll {vs : List HostVal} (h : w.Sound h₀ O H S) (hvs : ∀ r ∈ foreigns vs, r ∈ O) :
    (w.acceptAll vs).2.Sound h₀ O (foreigns (w.acceptAll vs).1 + H) S := by
  induction vs generalizing w H with
  | nil => simpa [World.acceptAll] using h
  | cons v vs ih =>
      rw [foreigns_cons] at hvs
      have haccepted := ih (h.accept fun r hr => hvs r (Multiset.mem_add.mpr (.inl hr))) fun r hr =>
        hvs r (Multiset.mem_add.mpr (.inr hr))
      simp only [World.acceptAll]
      rwa [foreigns_cons, add_assoc, add_left_comm]

theorem reveal {v : StoreVal} (h : w.Sound h₀ O H S) (hv : ∀ b ∈ foreigns [v], w.Kept H S b) :
    (w.reveal v).2.Sound h₀ (foreigns [(w.reveal v).1] + O) H S := by
  have hview : (w.view v).foreign? = v.foreign?.map fun b => ((w.box? b).map (·.ref)).getD 0 := by
    cases v <;> rfl
  cases hb : v.foreign? with
  | none =>
      rw [hb, Option.map_none] at hview
      have hnone : foreigns [(w.reveal v).1] = 0 := foreigns_of_none hview
      rw [hnone, zero_add]
      simpa [World.reveal, hview] using h
  | some b =>
      obtain ⟨x, hx, hlive⟩ := h.box (hv b (by simp [foreigns_of_some hb]))
      rw [hb] at hview
      simp only [box?, hx, Option.map_some, Option.getD_some] at hview
      have hone : foreigns [(w.reveal v).1] = {x.ref} := foreigns_of_some hview
      rw [hone, Multiset.singleton_add]
      simp only [World.reveal, hview, Option.elim_some]
      refine ⟨?_, h.held, h.seen⟩
      rw [Multiset.cons_add]
      exact h.refs.clone (Multiset.mem_add.mpr (.inr (ref_mem_boxed hx hlive)))

theorem revealAll {vs : List StoreVal} (h : w.Sound h₀ O H S)
    (hvs : ∀ b ∈ foreigns vs, w.Kept H S b) :
    (w.revealAll vs).2.Sound h₀ (foreigns (w.revealAll vs).1 + O) H S := by
  induction vs generalizing w O with
  | nil => simpa [World.revealAll] using h
  | cons v vs ih =>
      rw [foreigns_cons] at hvs
      have hrevealed := ih (h.reveal fun b hb => hvs b (Multiset.mem_add.mpr (.inl hb))) fun b hb =>
        by simpa [Kept] using hvs b (Multiset.mem_add.mpr (.inr hb))
      simp only [World.revealAll]
      rwa [foreigns_cons, add_assoc, add_left_comm]

theorem discard {v : HostVal} (h : w.Sound h₀ (foreigns [v] + O) H S) :
    (w.discard v).Sound h₀ O H S := by
  unfold World.discard
  cases hr : v.foreign? with
  | none => simpa [foreigns_of_none hr] using h
  | some r =>
      rw [foreigns_of_some hr, Multiset.singleton_add] at h
      refine ⟨?_, h.held, h.seen⟩
      have hrefs := h.refs
      rw [Multiset.cons_add] at hrefs
      exact hrefs.release

theorem discardAll {vs : List HostVal} (h : w.Sound h₀ (foreigns vs + O) H S) :
    (w.discardAll vs).Sound h₀ O H S := by
  induction vs generalizing w with
  | nil => simpa [World.discardAll] using h
  | cons v vs ih =>
      rw [foreigns_cons, add_assoc] at h
      exact ih h.discard

/-- One more owner of a clone makes another. -/
theorem clone {r : RefId} (h : w.Sound h₀ O H S) (hr : r ∈ O) :
    (w.clone r).Sound h₀ (r ::ₘ O) H S := by
  refine ⟨?_, h.held, h.seen⟩
  rw [Multiset.cons_add]
  exact h.refs.clone (Multiset.mem_add.mpr (.inl hr))

end Sound

end World

end WasmHost

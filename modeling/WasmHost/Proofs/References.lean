import Mathlib.Algebra.BigOperators.Group.Multiset.Basic
import WasmHost.Store

/-!
# Who has a clone

The owners of the clones of foreign references form a multiset. `RefHeap.Accounted` says that the
counts are those of the owners and that the log has each thing that is gone just once; clones that
are made and released keep it so.
-/

namespace WasmHost

/-! ## Sums over lists -/

section Sums

variable {α β M : Type} [AddCommMonoid M]

theorem sum_map_modify (g : α → M) (f : α → α) {l : List α} {i : Nat} {a : α}
    (h : l[i]? = some a) :
    ((l.modify i f).map g).sum + g a = (l.map g).sum + g (f a) := by
  induction l generalizing i with
  | nil => cases h
  | cons x l ih =>
      cases i with
      | zero =>
          cases h
          simp only [List.modify_zero_cons, List.map_cons, List.sum_cons]
          ac_rfl
      | succ i =>
          simp only [List.modify_succ_cons, List.map_cons, List.sum_cons, add_assoc]
          rw [ih h]

/-- Out of bounds nothing is modified. -/
theorem modify_of_none {f : α → α} {xs : Array α} {i : Nat} (h : xs[i]? = none) :
    xs.modify i f = xs := by
  refine Array.ext_getElem? fun j => ?_
  rw [Array.getElem?_modify]
  split
  · subst i
    simp [h]
  · rfl

theorem coe_map_filter (p : α → Bool) (g : α → β) (l : List α) :
    (((l.filter p).map g : List β) : Multiset β) =
      (l.map fun a => if p a then {g a} else 0).sum := by
  induction l with
  | nil => rfl
  | cons a l ih =>
      cases h : p a <;> simp only [List.filter_cons, h, if_true, Bool.false_eq_true, if_false,
        List.map_cons, List.sum_cons, zero_add, ← ih]
      rfl

theorem mem_sum_map {f : α → Multiset β} {l : List α} {a : α} (ha : a ∈ l) {b : β}
    (hb : b ∈ f a) : b ∈ (l.map f).sum := by
  induction l with
  | nil => cases ha
  | cons x l ih =>
      rw [List.map_cons, List.sum_cons, Multiset.mem_add]
      rcases List.mem_cons.mp ha with rfl | ha
      · exact .inl hb
      · exact .inr (ih ha)

theorem exists_of_mem_sum_map {f : α → Multiset β} {l : List α} {b : β}
    (hb : b ∈ (l.map f).sum) : ∃ a ∈ l, b ∈ f a := by
  induction l with
  | nil => cases hb
  | cons x l ih =>
      rw [List.map_cons, List.sum_cons, Multiset.mem_add] at hb
      rcases hb with hb | hb
      · exact ⟨x, List.mem_cons_self, hb⟩
      · obtain ⟨a, ha, hb⟩ := ih hb
        exact ⟨a, List.mem_cons_of_mem x ha, hb⟩

end Sums

namespace Val

variable {ρ : Type}

/-- The foreign references that values hold. -/
def foreigns (vs : List (Val ρ)) : Multiset ρ := ↑(vs.filterMap Val.foreign?)

@[simp] theorem foreigns_nil : foreigns ([] : List (Val ρ)) = 0 := rfl

theorem foreigns_append (vs ws : List (Val ρ)) :
    foreigns (vs ++ ws) = foreigns vs + foreigns ws := by
  simp [foreigns]

theorem foreigns_cons (v : Val ρ) (vs : List (Val ρ)) :
    foreigns (v :: vs) = foreigns [v] + foreigns vs :=
  foreigns_append [v] vs

theorem mem_foreigns {b : ρ} {vs : List (Val ρ)} :
    b ∈ foreigns vs ↔ ∃ v ∈ vs, v.foreign? = some b := by
  simp [foreigns]

theorem foreigns_of_some {v : Val ρ} {b : ρ} (h : v.foreign? = some b) : foreigns [v] = {b} := by
  simp [foreigns, h]

theorem foreigns_of_none {v : Val ρ} (h : v.foreign? = none) : foreigns [v] = 0 := by
  simp [foreigns, h]

theorem foreign?_ofBits (t : ValType) (n : Nat) : (ofBits t n : Val ρ).foreign? = none := by
  cases t <;> rfl

theorem foreign?_default (t : ValType) : (default t : Val ρ).foreign? = none := by
  cases t <;> rfl

theorem foreigns_map_default (ts : List ValType) : foreigns (ts.map (default (ρ := ρ))) = 0 := by
  rw [foreigns, Multiset.coe_eq_zero, List.filterMap_eq_nil_iff]
  intro v hv
  obtain ⟨t, -, rfl⟩ := List.mem_map.mp hv
  exact foreign?_default t

theorem foreigns_eq_sum (vs : List (Val ρ)) :
    foreigns vs = (vs.map fun v => foreigns [v]).sum := by
  induction vs with
  | nil => rfl
  | cons v vs ih => rw [foreigns_cons, ih, List.map_cons, List.sum_cons]

theorem foreigns_mono {vs ws : List (Val ρ)} (h : vs ⊆ ws) {b : ρ} (hb : b ∈ foreigns vs) :
    b ∈ foreigns ws := by
  obtain ⟨v, hv, hb⟩ := mem_foreigns.mp hb
  exact mem_foreigns.mpr ⟨v, h hv, hb⟩

theorem foreigns_of_mem {v : Val ρ} {vs : List (Val ρ)} (h : v ∈ vs) {b : ρ}
    (hb : b ∈ foreigns [v]) : b ∈ foreigns vs :=
  foreigns_mono (fun _ hu => List.mem_singleton.mp hu ▸ h) hb

end Val

namespace RefHeap

/-- The payloads of the things that nobody has a clone of. -/
def gone (h : RefHeap) : List String := (h.things.toList.filter (·.count = 0)).map (·.payload)

/-- The heap at an earlier time: no thing was forgotten, and none that was gone came back. -/
structure Ages (h₀ h : RefHeap) : Prop where
  kept : ∀ r < h₀.things.size, r < h.things.size ∧ h.payload r = h₀.payload r
  gone : ∀ r < h₀.things.size, h₀.count r = 0 → h.count r = 0

theorem Ages.refl (h : RefHeap) : h.Ages h := ⟨fun _ hr => ⟨hr, rfl⟩, fun _ _ hr => hr⟩

/-- The clones have the given owners, and each thing that is gone was finalized once. -/
structure Accounted (h₀ : RefHeap) (owners : Multiset RefId) (h : RefHeap) : Prop where
  ages : h₀.Ages h
  counts : ∀ r, h.count r = owners.count r
  logged : h.finalized.Perm h.gone

theorem coe_gone (h : RefHeap) :
    (h.gone : Multiset String) =
      (h.things.toList.map fun t => if t.count = 0 then {t.payload} else 0).sum := by
  rw [gone, coe_map_filter]
  simp

theorem payload_mem_gone {h : RefHeap} {r : RefId} (hr : r < h.things.size) (hc : h.count r = 0) :
    h.payload r ∈ h.gone := by
  simp only [count, payload, Array.getElem?_eq_getElem hr, Option.map_some, Option.getD_some]
    at hc ⊢
  exact List.mem_map_of_mem (List.mem_filter.mpr ⟨by simp, decide_eq_true hc⟩)

theorem getElem?_of_count_ne {h : RefHeap} {r : RefId} (hr : h.count r ≠ 0) :
    ∃ t, h.things[r]? = some t ∧ h.count r = t.count ∧ h.payload r = t.payload := by
  unfold count at hr
  cases ht : h.things[r]? with
  | none => simp [ht] at hr
  | some t => exact ⟨t, rfl, by simp [count, ht], by simp [payload, ht]⟩

section Modify

variable (h : RefHeap) (r : RefId) (f : Foreign → Foreign) (finalized : List String)

/-- The heap with one thing changed. -/
private def change : RefHeap := { things := h.things.modify r f, finalized }

variable {h r f} {t : Foreign}

private theorem count_change (ht : h.things[r]? = some t) (p : RefId) :
    (h.change r f finalized).count p = if p = r then (f t).count else h.count p := by
  simp only [count, change, Array.getElem?_modify]
  by_cases hp : p = r
  · subst hp
    simp [ht]
  · simp [hp, Ne.symm hp]

private theorem payload_change (hf : ∀ t, (f t).payload = t.payload) (p : RefId) :
    (h.change r f finalized).payload p = h.payload p := by
  simp only [payload, change, Array.getElem?_modify]
  by_cases hp : r = p
  · subst hp
    cases h.things[r]? <;> simp [hf]
  · simp [hp]

private theorem Ages.change {h₀ : RefHeap} (ha : h₀.Ages h) (ht : h.things[r]? = some t)
    (hf : ∀ t, (f t).payload = t.payload) (alive : t.count ≠ 0) :
    h₀.Ages (h.change r f finalized) := by
  refine ⟨fun p hp => ?_, fun p hp hgone => ?_⟩
  · rw [payload_change finalized hf]
    exact ⟨by simpa [RefHeap.change] using (ha.kept p hp).1, (ha.kept p hp).2⟩
  · have hcount := ha.gone p hp hgone
    rw [count_change finalized ht, if_neg]
    · exact hcount
    · rintro rfl
      simp only [count, ht] at hcount
      exact alive hcount

private theorem coe_gone_change (ht : h.things[r]? = some t) :
    ((h.change r f finalized).gone : Multiset String) + (if t.count = 0 then {t.payload} else 0) =
      h.gone + (if (f t).count = 0 then {(f t).payload} else 0) := by
  simp only [coe_gone, RefHeap.change, Array.toList_modify]
  exact sum_map_modify _ f (by simpa using ht)

end Modify

namespace Accounted

variable {h₀ h : RefHeap} {owners owners' : Multiset RefId} {r : RefId}

theorem reshape (ha : Accounted h₀ owners h) (hown : owners' = owners) :
    Accounted h₀ owners' h := hown ▸ ha

theorem count_ne_zero (ha : Accounted h₀ owners h) (hr : r ∈ owners) : h.count r ≠ 0 := by
  rw [ha.counts]
  exact Multiset.count_ne_zero.mpr hr

theorem new (ha : Accounted h₀ owners h) (payload : String) :
    Accounted h₀ ((h.new payload).1 ::ₘ owners) (h.new payload).2 := by
  have hnew : h.count h.things.size = 0 := by simp [count]
  have hold {p : RefId} (hp : p < h.things.size) :
      (h.things.push ⟨payload, 1⟩)[p]? = h.things[p]? := by
    rw [Array.getElem?_push, if_neg (Nat.ne_of_lt hp)]
  refine ⟨⟨fun p hp => ?_, fun p hp hgone => ?_⟩, fun p => ?_, ?_⟩
  · obtain ⟨hlt, hpay⟩ := ha.ages.kept p hp
    refine ⟨by simp only [RefHeap.new, Array.size_push]; omega, ?_⟩
    rw [← hpay]
    simp only [RefHeap.payload, RefHeap.new, hold hlt]
  · rw [← ha.ages.gone p hp hgone]
    simp only [RefHeap.count, RefHeap.new, hold (ha.ages.kept p hp).1]
  · rw [Multiset.count_cons, ← ha.counts]
    simp only [RefHeap.count, RefHeap.new, Array.getElem?_push]
    by_cases hp : p = h.things.size
    · subst hp
      simp
    · simp [hp]
  · simpa [RefHeap.new, gone] using ha.logged

theorem clone (ha : Accounted h₀ owners h) (hr : r ∈ owners) :
    Accounted h₀ (r ::ₘ owners) (h.clone r) := by
  have hcount := ha.count_ne_zero hr
  obtain ⟨t, ht, htc, -⟩ := getElem?_of_count_ne hcount
  rw [htc] at hcount
  refine ⟨ha.ages.change _ ht (fun _ => rfl) hcount, fun p => ?_, ?_⟩
  · refine (count_change _ ht p).trans ?_
    rw [Multiset.count_cons, ← ha.counts, ← htc]
    split <;> simp_all
  · have hgone := coe_gone_change (f := fun t => { t with count := t.count + 1 }) h.finalized ht
    simp only [hcount, if_false, add_zero, Nat.add_eq_zero_iff, Nat.one_ne_zero, and_false,
      Multiset.coe_eq_coe] at hgone
    exact ha.logged.trans hgone.symm

theorem release (ha : Accounted h₀ (r ::ₘ owners) h) : Accounted h₀ owners (h.release r) := by
  have hcount := ha.count_ne_zero (Multiset.mem_cons_self r owners)
  obtain ⟨t, ht, htc, htp⟩ := getElem?_of_count_ne hcount
  rw [htc] at hcount
  refine ⟨ha.ages.change _ ht (fun _ => rfl) hcount, fun p => ?_, ?_⟩
  · refine (count_change _ ht p).trans ?_
    have hp := ha.counts p
    rw [Multiset.count_cons] at hp
    split
    · subst p
      rw [if_pos rfl, htc] at hp
      dsimp only
      omega
    · rwa [if_neg ‹_›, add_zero] at hp
  · have hgone := coe_gone_change (f := fun t => { t with count := t.count - 1 })
      (h.release r).finalized ht
    have hlast : t.count - 1 = 0 ↔ h.count r = 1 := by omega
    simp only [hcount, if_false, add_zero, hlast] at hgone
    rw [← Multiset.coe_eq_coe]
    refine Eq.trans ?_ hgone.symm
    rw [← Multiset.coe_eq_coe.mpr ha.logged, ← htp]
    simp only [RefHeap.release]
    split
    · rw [add_comm]
      rfl
    · rw [add_zero]

theorem cloneAll {rs : List RefId} (ha : Accounted h₀ owners h) (hrs : ∀ r ∈ rs, r ∈ owners) :
    Accounted h₀ (rs + owners) (h.cloneAll rs) := by
  induction rs generalizing h owners with
  | nil => simpa [RefHeap.cloneAll] using ha
  | cons r rs ih =>
      have hcloned := ih (ha.clone (hrs r List.mem_cons_self)) fun p hp =>
        Multiset.mem_cons_of_mem (hrs p (List.mem_cons_of_mem r hp))
      simpa [RefHeap.cloneAll, Multiset.add_cons, ← Multiset.cons_coe] using hcloned

theorem releaseAll {rs : List RefId} (ha : Accounted h₀ (rs + owners) h) :
    Accounted h₀ owners (h.releaseAll rs) := by
  induction rs generalizing h with
  | nil => simpa [RefHeap.releaseAll] using ha
  | cons r rs ih =>
      rw [← Multiset.cons_coe, Multiset.cons_add] at ha
      exact ih ha.release

end Accounted

end RefHeap

end WasmHost

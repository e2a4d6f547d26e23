import WasmHost.Proofs.Embedding.Sharing
import WasmHost.Proofs.World.Tables

/-!
# The law of tables

Whatever is done with a store, its values look the same from outside ever after. A table that an
embedder made is therefore a list of references: what happens elsewhere in the store does not show,
and each call on its handle answers what the list answers.
-/

namespace WasmHost

open World

variable {w w' : World}

namespace Usage

variable {u u' v v' : Usage} {a : Nat}

/-- No step changes the reference in a box. -/
theorem Step.keeps (h : u.Step u') : u.world.Keeps u'.world := by
  rcases h.world_cases with halters | ⟨t, made⟩ | ⟨config, context, hset⟩
  · exact halters.keeps
  · obtain ⟨-, hnew⟩ := made
    simp only [World.newMemory] at hnew
    split at hnew <;> cases hnew
    exact .of_boxes rfl
  · cases hset
    exact .of_boxes rfl

/-! ## Calls on one table -/

/-- What an embedder does with one table, the calls on its handle with their answers. In between
anything happens that does not write to the table some other way. -/
inductive OnTable (a : Nat) (u : Usage) : List TableCall → List TableAnswer → Usage → Prop
  | start : OnTable a u [] [] u
  | call {v : Usage} {calls : List TableCall} {answers : List TableAnswer}
      (before : OnTable a u calls answers v) (free : v.IsFree) (c : TableCall) :
      OnTable a u (calls ++ [c]) (answers ++ [(c.run a v.world).1])
        { v with world := (c.run a v.world).2 }
  | other {v v' : Usage} {calls : List TableCall} {answers : List TableAnswer}
      (before : OnTable a u calls answers v) (spares : Spares (.table a) v v') :
      OnTable a u calls answers v'

/-- A call on a handle is a step of the embedder. -/
theorem step_call (free : v.IsFree) (c : TableCall) :
    v.Step { v with world := (c.run a v.world).2 } := by
  cases c with
  | get index => exact .store (c := .getTable a index) [] free trivial
  | set index val =>
      have hstep := Step.store (u := v) (c := .setTable a index val) [] free trivial
      simp only [TableCall.run]
      simp only [StoreCall.run] at hstep
      cases hset : v.world.setTable a index val <;> rw [hset] at hstep <;> exact hstep
  | grow delta val => exact .store (c := .growTable a delta val) [] free trivial

end Usage

/-- What holds of a table of a type that has some values, and of the calls on it. -/
structure World.TableLaw (w : World) (a : Nat) (t : TableType) (vals : List HostVal) : Prop where
  kinds : ∀ v ∈ vals, v.type = t.element
  within : vals.length ≤ t.bound
  type : (w.table a).element = t.element ∧ w.itemType? (.table a t) = some (.table t)
  size : w.tableSize a = vals.length
  get : ∀ i, (w.getTable a i).1 = vals[i]?
  set : ∀ {i : Nat} {v : HostVal} {w' : World}, w.setTable a i v = .ok w' →
    i < vals.length ∧ ∀ j, (w'.getTable a j).1 = if i = j then some v else vals[j]?
  grown : ∀ {d p : Nat} {v : HostVal} {w' : World}, w.growTable a d v = (.ok p, w') →
    p = vals.length ∧ ∀ j, (w'.getTable a j).1 = (vals ++ List.replicate d v)[j]?
  room : ∀ (d : Nat) {v : HostVal}, v.type = t.element →
    ((∃ p, (w.growTable a d v).1 = .ok p) ↔ vals.length + d ≤ t.bound)

theorem World.Shows.law {a : Nat} {s : RefList} {t : TableType} (h : w.Shows a s)
    (element : s.element = t.element) (most : s.most = t.bound) : w.TableLaw a t s.vals := by
  refine ⟨element ▸ h.fits.kinds, most ▸ h.fits.room, ⟨h.element.trans element, rfl⟩, h.size,
    h.getElem?, ?_, ?_, ?_⟩
  · intro i v w' hset
    obtain ⟨hanswer, hshows⟩ := h.run (.set i v)
    simp only [TableCall.run, RefList.run, hset] at hanswer hshows
    by_cases hi : s.vals.length ≤ i
    · simp only [hi, if_true] at hanswer
      cases hanswer
    · by_cases hkind : v.type = s.element
      · simp only [hi, hkind, ne_eq, not_true_eq_false, if_false] at hshows
        refine ⟨Nat.not_le.mp hi, fun j => ?_⟩
        rw [hshows.getElem? j, List.getElem?_set]
        split
        · rw [if_pos (Nat.not_le.mp hi)]
        · rfl
      · simp only [hi, hkind, ne_eq, not_false_eq_true, if_false, if_true] at hanswer
        cases hanswer
  · intro d p v w' hgrow
    obtain ⟨hanswer, hshows⟩ := h.run (.grow d v)
    simp only [TableCall.run, RefList.run, hgrow] at hanswer hshows
    by_cases hkind : v.type = s.element
    · simp only [hkind, ne_eq, not_true_eq_false, if_false] at hanswer hshows
      by_cases hroom : s.vals.length + d ≤ s.most
      · simp only [hroom, if_true] at hanswer hshows
        cases hanswer
        exact ⟨rfl, hshows.getElem?⟩
      · simp only [hroom, if_false] at hanswer
        cases hanswer
    · simp only [hkind, ne_eq, not_false_eq_true, if_true] at hanswer
      cases hanswer
  · intro d v hv
    have hkind : v.type = s.element := hv.trans element.symm
    obtain ⟨hanswer, -⟩ := h.run (.grow d v)
    simp only [TableCall.run, RefList.run, hkind, ne_eq, not_true_eq_false, if_false] at hanswer
    rw [most] at hanswer
    by_cases hroom : s.vals.length + d ≤ t.bound
    · simp only [hroom, if_true] at hanswer
      exact ⟨fun _ => hroom, fun _ => ⟨_, TableAnswer.grown.inj hanswer⟩⟩
    · simp only [hroom, if_false] at hanswer
      refine ⟨fun hgrown => ?_, fun h => absurd h hroom⟩
      obtain ⟨p, hp⟩ := hgrown
      rw [TableAnswer.grown.inj hanswer] at hp
      cases hp

namespace Usage

variable {u v : Usage} {a : Nat} {t : TableType} {init : HostVal} {w : World}
  {calls : List TableCall} {answers : List TableAnswer}

/-- The table shows what the list has become, and the answers are those of the list. -/
theorem OnTable.shows (used : OnTable a u calls answers v) {s : RefList} (hu : u.Reachable)
    (h : u.world.Shows a s) : v.Reachable ∧ answers = (s.runAll calls).1 ∧
      v.world.Shows a (s.runAll calls).2 := by
  induction used with
  | start => exact ⟨hu, rfl, h⟩
  | call before free c ih =>
      obtain ⟨hv, hanswers, hshows⟩ := ih
      obtain ⟨hanswer, hafter⟩ := hshows.run c
      rw [RefList.runAll_append, hanswers, hanswer]
      exact ⟨hv.step (step_call free c), rfl, hafter⟩
  | @other v v' _ _ before spares ih =>
      obtain ⟨hv, hanswers, hshows⟩ := ih
      obtain ⟨routes, hstep, -⟩ := id spares
      have hthere := hshows.there
      have hstate : v.world.state? (.table a) = some (.table v.world.store.tables[a]) := by
        rw [state?, Array.getElem?_eq_getElem hthere]
        rfl
      obtain ⟨x, hx, heq⟩ := Option.map_eq_some_iff.mp (hv.typed.state_of_spares spares hstate)
      cases heq
      refine ⟨hv.step hstep.step, hanswers, hshows.later hstep.step.keeps ?_⟩
      rw [hx, Array.getElem?_eq_getElem hthere]

end Usage

end WasmHost

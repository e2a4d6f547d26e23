import WasmHost.Proofs.Embedding.References
import WasmHost.Proofs.Machine.Arguments

/-!
# Calls that are refused

Arguments that do not fit are refused before anything runs. It makes no difference whether they were
taken into the store before: the boxes that were made for them are given up again, whatever the
place of the first misfit, and nothing else has changed.
-/

namespace WasmHost

open Val

/-! ## Clones that are made and released -/

namespace RefHeap

variable {h : RefHeap} {r : RefId}

theorem count_clone (p : RefId) (hr : h.count r ≠ 0) :
    (h.clone r).count p = if p = r then h.count p + 1 else h.count p := by
  obtain ⟨t, ht, hcount, -⟩ := getElem?_of_count_ne hr
  simp only [count, clone, Array.getElem?_modify]
  by_cases hp : r = p
  · subst hp
    simp [ht]
  · simp [hp, Ne.symm hp]

theorem count_clone_ne_zero {p : RefId} (hr : h.count r ≠ 0) (hp : h.count p ≠ 0) :
    (h.clone r).count p ≠ 0 := by
  rw [count_clone p hr]
  split <;> omega

theorem clone_comm (h : RefHeap) (r p : RefId) : (h.clone r).clone p = (h.clone p).clone r := by
  simp only [clone, mk.injEq, and_true]
  refine Array.ext_getElem? fun i => ?_
  simp only [Array.getElem?_modify]
  by_cases hr : r = i <;> by_cases hp : p = i <;> simp [hr, hp]

theorem cloneAll_clone (h : RefHeap) (r : RefId) (rs : List RefId) :
    (h.clone r).cloneAll rs = (h.cloneAll rs).clone r := by
  induction rs generalizing h with
  | nil => rfl
  | cons p rs ih =>
      simp only [cloneAll, List.foldl_cons] at ih ⊢
      rw [clone_comm, ih]

/-- A clone that is released at once leaves no trace. -/
theorem release_clone (hr : h.count r ≠ 0) : (h.clone r).release r = h := by
  have hcount : (h.clone r).count r ≠ 1 := by
    rw [count_clone r hr, if_pos rfl]
    omega
  obtain ⟨things, finalized⟩ := h
  simp only [release, hcount, if_false, mk.injEq]
  refine ⟨Array.ext_getElem? fun i => ?_, rfl⟩
  simp only [clone, Array.getElem?_modify]
  split
  · cases things[i]? <;> simp
  · rfl

theorem count_cloneAll_ne_zero {rs : List RefId} {p : RefId} (hrs : ∀ r ∈ rs, h.count r ≠ 0)
    (hp : h.count p ≠ 0) : (h.cloneAll rs).count p ≠ 0 := by
  induction rs generalizing h with
  | nil => exact hp
  | cons r rs ih =>
      have hr := hrs r List.mem_cons_self
      refine ih (fun q hq => ?_) (count_clone_ne_zero hr hp)
      exact count_clone_ne_zero hr (hrs q (List.mem_cons_of_mem r hq))

theorem releaseAll_cloneAll {rs : List RefId} (hrs : ∀ r ∈ rs, h.count r ≠ 0) :
    (h.cloneAll rs).releaseAll rs = h := by
  induction rs generalizing h with
  | nil => rfl
  | cons r rs ih =>
      obtain ⟨hr, hrest⟩ := List.forall_mem_cons.mp hrs
      calc
        (h.cloneAll (r :: rs)).releaseAll (r :: rs)
            = (((h.clone r).cloneAll rs).release r).releaseAll rs := rfl
        _ = (((h.cloneAll rs).clone r).release r).releaseAll rs := by rw [cloneAll_clone]
        _ = (h.cloneAll rs).releaseAll rs := by
            rw [release_clone (count_cloneAll_ne_zero hrest hr)]
        _ = h := ih hrest

end RefHeap

/-! ## Boxes that are made and given up -/

namespace World

/-- The box of a reference that an operation holds. -/
def heldBox (r : RefId) : Box := ⟨r, 1, false⟩

/-- The box of a reference that nothing holds any more. -/
def deadBox (r : RefId) : Box := ⟨r, 0, false⟩

/-- The world with more boxes and another heap. -/
def withBoxes (boxes : List Box) (refs : RefHeap) (w : World) : World :=
  { store := { w.store with boxes := w.store.boxes ++ boxes }, shared := { w.shared with refs } }

theorem acceptAll_withBoxes (args : List HostVal) (w : World) :
    (w.acceptAll args).2 =
      w.withBoxes ((args.filterMap foreign?).map heldBox)
        (w.shared.refs.cloneAll (args.filterMap foreign?)) := by
  induction args generalizing w with
  | nil => simp [acceptAll, withBoxes, RefHeap.cloneAll]
  | cons v args ih =>
      simp only [acceptAll]
      rw [ih]
      cases v with
      | externref r =>
          cases r with
          | none => rfl
          | some r =>
              simp [accept, putIn, clone, mapRefs, mapShared, mapStore, withBoxes, heldBox,
                RefHeap.cloneAll, foreign?]
      | _ => rfl

theorem boxes_acceptAll (args : List HostVal) (w : World) :
    (w.acceptAll args).1.filterMap foreign? =
      List.range' w.store.boxes.size (args.filterMap foreign?).length := by
  induction args generalizing w with
  | nil => rfl
  | cons v args ih =>
      simp only [acceptAll, List.filterMap_cons]
      rw [ih]
      cases v with
      | externref r =>
          cases r with
          | none => rfl
          | some r =>
              simp [accept, putIn, clone, mapRefs, mapShared, mapStore, foreign?,
                List.range'_succ]
      | _ => rfl

theorem unholdAll_eq_foldl (vs : List StoreVal) (w : World) :
    w.unholdAll vs = (vs.filterMap foreign?).foldl (fun w b => w.unhold b) w := by
  induction vs generalizing w with
  | nil => rfl
  | cons v vs ih =>
      simp only [unholdAll, List.foldl_cons, unholdVal, boxOf] at ih ⊢
      rw [ih]
      cases hv : v.foreign? with
      | none => simp [hv]
      | some b => simp [hv]

theorem unhold_withBoxes (r : RefId) (dead held : List Box) (refs : RefHeap) (w : World) :
    (w.withBoxes (dead ++ heldBox r :: held) refs).unhold (w.store.boxes.size + dead.length) =
      w.withBoxes (dead ++ deadBox r :: held) (refs.release r) := by
  have hbox : (w.withBoxes (dead ++ heldBox r :: held) refs).box?
      (w.store.boxes.size + dead.length) = some (heldBox r) := by
    simp [box?, withBoxes, ← Array.getElem?_toList]
  have hset : (w.store.boxes ++ (dead ++ heldBox r :: held)).setIfInBounds
      (w.store.boxes.size + dead.length) (deadBox r) =
        w.store.boxes ++ (dead ++ deadBox r :: held) := by
    refine Array.toList_inj.mp ?_
    simp
  simp only [unhold, updateBox, hbox]
  simpa [Box.isLive, heldBox, deadBox, release, mapRefs, mapShared, mapStore, withBoxes] using hset

theorem unholdAll_withBoxes (rs : List RefId) (dead : List Box) (refs : RefHeap) (w : World) :
    (List.range' (w.store.boxes.size + dead.length) rs.length).foldl (fun w b => w.unhold b)
        (w.withBoxes (dead ++ rs.map heldBox) refs) =
      w.withBoxes (dead ++ rs.map deadBox) (refs.releaseAll rs) := by
  induction rs generalizing dead refs with
  | nil => rfl
  | cons r rs ih =>
      have hrest := ih (dead ++ [deadBox r]) (refs.release r)
      simp only [List.append_assoc, List.cons_append, List.nil_append, List.length_append,
        List.length_cons, List.length_nil, zero_add, ← add_assoc] at hrest
      simp only [List.length_cons, List.range'_succ, List.foldl_cons, List.map_cons]
      rw [unhold_withBoxes, hrest]
      rfl

/-- Values that are taken into the store and given up again leave boxes that nothing holds. -/
theorem unholdAll_acceptAll {args : List HostVal} {w : World}
    (live : ∀ r ∈ args.filterMap foreign?, w.shared.refs.count r ≠ 0) :
    (w.acceptAll args).2.unholdAll (w.acceptAll args).1 =
      w.withBoxes ((args.filterMap foreign?).map deadBox) w.shared.refs := by
  rw [unholdAll_eq_foldl, boxes_acceptAll, acceptAll_withBoxes]
  have hgiven := unholdAll_withBoxes (args.filterMap foreign?) []
    (w.shared.refs.cloneAll (args.filterMap foreign?)) w
  simpa [RefHeap.releaseAll_cloneAll live] using hgiven

/-- Takes the arguments of a call into the store, one by one, and looks at them there; if they do
not fit, it gives them up again. -/
def takeArgs (func : FuncAddr) (args : List HostVal) (w : World) :
    Except Error (List StoreVal) × World :=
  let (vals, taken) := w.acceptAll args
  match checkArgs (taken.funcType func) args with
  | .error e => (.error e, taken.unholdAll vals)
  | .ok () => (.ok vals, taken)

theorem funcType_acceptAll (func : FuncAddr) (args : List HostVal) (w : World) :
    (w.acceptAll args).2.funcType func = w.funcType func := by
  rw [acceptAll_withBoxes]
  rfl

/-- A call goes on with what it has taken. -/
theorem callFunc_of_takeArgs {limit : Nat} {func : FuncAddr} {args : List HostVal}
    {vals : List StoreVal} {w taken : World} (h : w.takeArgs func args = (.ok vals, taken)) :
    w.callFunc limit func args =
      (((Machine.idle (taken.exposeAll vals)).enter func vals none).run limit).map fun (r, w) =>
        match r with
        | .ok results => (.ok (w.revealAll results).1, (w.revealAll results).2.unholdAll vals)
        | .error f => (.error (f.failure .typeMismatch), w.unholdAll vals) := by
  simp only [takeArgs, funcType_acceptAll] at h
  split at h
  · cases h
  · rename_i hfits
    cases h
    unfold callFunc callOr
    split
    · rename_i e he
      rw [hfits] at he
      cases he
    · rfl

end World

namespace Embedding

/-- A call whose arguments are too many or too few, or have one of the wrong kind at any place, is a
type mismatch, from outside as well as from a host function at work. No step is run for it, and the
world is the one before: the globals, tables and memories of the store, its fuel, and the requests
for interrupts. That the arguments are taken into the store before they are looked at only leaves
boxes that nothing holds. -/
theorem misfit_call_runs_nothing {log : List Event} {e : Embedding} (run : Run log e)
    (store : Store) (func : FuncAddr) (args : List HostVal)
    (refs : ∀ r ∈ args.filterMap foreign?, r ∈ e.owned) :
    let w : World := ⟨store, e.shared⟩
    let params := (w.funcType func).params
    (args.length ≠ params.length ∨ ∃ (i : Nat) (v : HostVal) (t : ValType),
      args[i]? = some v ∧ params[i]? = some t ∧ v.type ≠ t) →
    ∃ (text : String) (dead : List Box),
      (∀ limit, w.callFunc limit func args = some (.error (.error (.typeMismatch text)), w)) ∧
      (∀ (m : Machine) h rest result catches, m.world = w →
        m.hostCall func args result catches h rest =
          m.afterFailure (.error (.typeMismatch text)) catches h rest) ∧
      (∀ b ∈ dead, b.isLive = false) ∧
      w.takeArgs func args = (.error (.typeMismatch text),
        { w with store := { w.store with boxes := w.store.boxes ++ dead } }) := by
  intro w params misfit
  have hrefused : checkArgs (w.funcType func) args ≠ .ok () := by
    rw [ne_eq, checkArgs_eq_ok_iff]
    exact misfit_iff.mpr misfit
  obtain ⟨text, htext⟩ :
      ∃ text, checkArgs (w.funcType func) args = .error (.typeMismatch text) := by
    cases he : checkArgs (w.funcType func) args with
    | ok => exact absurd he hrefused
    | error e =>
        obtain ⟨text, rfl⟩ := checkArgs_error he
        exact ⟨text, rfl⟩
  have live : ∀ r ∈ args.filterMap foreign?, w.shared.refs.count r ≠ 0 := by
    intro r hr
    obtain ⟨h₀, sound⟩ := Sound.run run
    exact sound.shared.refs.count_ne_zero (mem_of_owned (refs r hr))
  refine ⟨text, (args.filterMap foreign?).map World.deadBox, fun limit => ?_, ?_, ?_, ?_⟩
  · simp only [World.callFunc, World.callOr, htext]
  · intro m h rest result catches hm
    simp only [Machine.hostCall, hm, htext]
  · intro b hb
    obtain ⟨r, -, rfl⟩ := List.mem_map.mp hb
    rfl
  · simp only [World.takeArgs, World.funcType_acceptAll, htext, World.unholdAll_acceptAll live]
    rfl

/-- A store with a host function that takes a reference and a number. -/
def taker : World :=
  let world := World.create (.default 0) { refs := { things := #[⟨"x", 1⟩] }, files := ⟨[], #[]⟩ }
  (world.newHostFunc ⟨[.externref, .i32], []⟩ [.log "ran"]).2

theorem run_taker : Run [.created 0]
    { shared := taker.shared, sites := [⟨taker.store, none⟩], handles := [0] } := by
  have made : Run [] _ := .step (.start ⟨[], #[]⟩) (.newRef "x")
  have created := made.step (.newStore (.default 0))
  have hsites (s : Site) : [s] = [] ++ s :: [] := rfl
  exact created.step (.act (hsites _) (.idle (.newHostFunc ⟨[.externref, .i32], []⟩ [.log "ran"])
    (by simp [StoreCall.refs, HostOp.refsOf, HostOp.refs]) (by simp [StoreCall.modules])))

/-- The first argument fits and is a reference; the second one does not fit. -/
theorem misfit_behind_reference_runs_nothing : ∃ text, ∀ limit,
    taker.callFunc limit 0 [.externref (some 0), .externref none] =
      some (.error (.error (.typeMismatch text)), taker) := by
  obtain ⟨text, dead, hcall, -⟩ := misfit_call_runs_nothing run_taker taker.store 0
    [.externref (some 0), .externref none] (by decide)
    (.inr ⟨1, .externref none, .i32, rfl, rfl, by decide⟩)
  exact ⟨text, hcall⟩

end Embedding

end WasmHost

import WasmHost.Proofs.Embedding.Steps
import WasmHost.Proofs.Linker.Instantiation
import WasmHost.Proofs.References
import WasmHost.Proofs.Wasm.Depth
import WasmHost.Proofs.World.Extension

/-!
# Bodies of host functions and their users

The body of a host function has clones of the references that it passes, as long as something uses
it: a definition in a linker, or a function of a store. `Shared.Accounted` says that its users are
counted. Whatever linkers do keeps it so.
-/

namespace WasmHost

open Val

/-- The same body later: its users come and go. -/
def Closure.Becomes (c c' : Closure) : Prop := c'.ops = c.ops

theorem Closure.Becomes.refl (c : Closure) : c.Becomes c := rfl

theorem Closure.Becomes.trans {c c' c'' : Closure} (h : c.Becomes c') (h' : c'.Becomes c'') :
    c.Becomes c'' := Eq.trans h' h

namespace Shared

/-- How many users a closure has. -/
def users (s : Shared) (id : ClosureId) : Nat := (s.closures[id]?.map (·.users)).getD 0

/-- The closure has the given body. -/
def HasBody (s : Shared) (id : ClosureId) (ops : List HostOp) : Prop :=
  ∃ c, s.closures[id]? = some c ∧ c.ops = ops

/-- No body is forgotten. -/
def Keeps (s s' : Shared) : Prop := Extended Closure.Becomes s.closures s'.closures

/-- The clones belong to the bodies in use and to `O`, and the users of the bodies are `U`. The heap
was once `h₀`. -/
structure Accounted (h₀ : RefHeap) (U : Multiset ClosureId) (O : Multiset RefId) (s : Shared) :
    Prop where
  refs : h₀.Accounted (s.captured + O) s.refs
  users : ∀ id, s.users id = U.count id

variable {h₀ : RefHeap} {U U' : Multiset ClosureId} {O O' : Multiset RefId} {s s' s'' : Shared}
  {id : ClosureId} {ops : List HostOp}

theorem Keeps.refl (s : Shared) : s.Keeps s := Extended.refl Closure.Becomes.refl _

theorem Keeps.trans (h : s.Keeps s') (h' : s'.Keeps s'') : s.Keeps s'' :=
  Extended.trans Closure.Becomes.trans h h'

theorem Keeps.of_closures (h : s'.closures = s.closures) : s.Keeps s' := by
  rw [Keeps, h]
  exact Keeps.refl s

theorem HasBody.keeps (h : s.HasBody id ops) (hs : s.Keeps s') : s'.HasBody id ops := by
  obtain ⟨c, hc, hops⟩ := h
  obtain ⟨c', hc', hsame⟩ := hs id c hc
  exact ⟨c', hc', Eq.trans hsame hops⟩

theorem coe_captured (s : Shared) :
    (s.captured : Multiset RefId) = (s.closures.toList.map fun c =>
      if c.users ≠ 0 then (HostOp.refsOf c.ops : Multiset RefId) else 0).sum := by
  unfold captured
  induction s.closures.toList with
  | nil => rfl
  | cons c cs ih =>
      rw [List.map_cons, List.sum_cons, ← ih]
      by_cases hc : c.users = 0 <;> simp [hc]

/-- A body that is in use passes nothing that it has no clone of. -/
theorem HasBody.captured (h : s.HasBody id ops) (hid : s.users id ≠ 0) {r : RefId}
    (hr : r ∈ HostOp.refsOf ops) : r ∈ s.captured := by
  obtain ⟨c, hc, rfl⟩ := h
  simp only [users, hc, Option.map_some, Option.getD_some] at hid
  refine List.mem_flatMap.mpr ⟨c, List.mem_filter.mpr ⟨?_, by simpa using hid⟩, hr⟩
  exact List.mem_of_getElem? (by simpa using hc)

/-! ## One user more or less -/

theorem users_newClosure (ops : List HostOp) (s : Shared) (id : ClosureId) :
    (s.newClosure ops).2.users id = s.users id + if id = s.closures.size then 1 else 0 := by
  simp only [users, newClosure, Array.getElem?_push]
  by_cases hid : id = s.closures.size
  · simp [hid]
  · simp [hid]

/-- A new body takes a clone of each of the references that it passes. -/
theorem accounted_newClosure (h : h₀.Accounted (s.captured + O) s.refs)
    (hops : ∀ r ∈ HostOp.refsOf ops, r ∈ (s.captured : Multiset RefId) + O) :
    h₀.Accounted ((s.newClosure ops).2.captured + O) (s.newClosure ops).2.refs := by
  have hcaptured : ((s.newClosure ops).2.captured : Multiset RefId) =
      s.captured + HostOp.refsOf ops := by
    simp [coe_captured, newClosure]
  have hcloned := h.cloneAll hops
  rw [hcaptured]
  rwa [← add_assoc, add_comm (HostOp.refsOf ops : Multiset RefId)] at hcloned

namespace Accounted

theorem reshape (h : s.Accounted h₀ U O) (hU : U' = U) (hO : O' = O) : s.Accounted h₀ U' O' := by
  rwa [hU, hO]

theorem of_closures (h : s.Accounted h₀ U O) (hrefs : s'.refs = s.refs)
    (hclosures : s'.closures = s.closures) : s'.Accounted h₀ U O :=
  ⟨by simpa only [hrefs, Shared.captured, hclosures] using h.refs,
    by simpa only [Shared.users, hclosures] using h.users⟩

theorem newClosure (h : s.Accounted h₀ U O)
    (hops : ∀ r ∈ HostOp.refsOf ops, r ∈ (s.captured : Multiset RefId) + O) :
    (s.newClosure ops).2.Accounted h₀ ((s.newClosure ops).1 ::ₘ U) O := by
  refine ⟨accounted_newClosure h.refs hops, fun id => ?_⟩
  rw [users_newClosure, h.users, Multiset.count_cons]
  rfl

end Accounted

section Modify

variable {c : Closure} {f : Closure → Closure}

private theorem users_modify (hc : s.closures[id]? = some c) (k : ClosureId) :
    (((s.closures.modify id f)[k]?).map (·.users)).getD 0 =
      if k = id then (f c).users else s.users k := by
  rw [Array.getElem?_modify, users]
  by_cases hk : id = k
  · subst hk
    simp [hc]
  · simp [hk, Ne.symm hk]

private theorem captured_modify (hc : s.closures[id]? = some c) (hf : ∀ c, (f c).ops = c.ops)
    (hs : s'.closures = s.closures.modify id f) :
    (s'.captured : Multiset RefId) + (if c.users ≠ 0 then ↑(HostOp.refsOf c.ops) else 0) =
      s.captured + (if (f c).users ≠ 0 then ↑(HostOp.refsOf c.ops) else 0) := by
  rw [coe_captured, coe_captured, hs, Array.toList_modify]
  have hsum := sum_map_modify (fun c : Closure =>
    if c.users ≠ 0 then (HostOp.refsOf c.ops : Multiset RefId) else 0) f
    (by simpa using hc : s.closures.toList[id]? = some c)
  simpa only [hf] using hsum

private theorem closures_leaveClosure (hc : s.closures[id]? = some c) :
    (s.leaveClosure id).closures =
      s.closures.modify id fun c => { c with users := c.users - 1 } := by
  simp only [leaveClosure, hc]
  refine Array.ext_getElem? fun k => ?_
  rw [Array.getElem?_modify, Array.getElem?_setIfInBounds]
  split
  · subst k
    obtain ⟨hlt, hget⟩ := Array.getElem?_eq_some_iff.mp hc
    simp [hlt, hget]
  · rfl

end Modify

namespace Accounted

theorem useClosure (h : s.Accounted h₀ U O) (hid : id ∈ U) :
    (s.useClosure id).Accounted h₀ (id ::ₘ U) O := by
  have hused : s.users id ≠ 0 := by
    rw [h.users]
    exact Multiset.count_ne_zero.mpr hid
  have hused' := hused
  unfold Shared.users at hused'
  cases hc : s.closures[id]? with
  | none => simp [hc] at hused'
  | some c =>
      simp only [hc, Option.map_some, Option.getD_some] at hused'
      have hclosures : (s.useClosure id).closures =
        s.closures.modify id fun c => { c with users := c.users + 1 } := rfl
      have hcaptured := captured_modify (f := fun c => { c with users := c.users + 1 }) hc
        (fun _ => rfl) hclosures
      simp only [hused', ne_eq, not_false_eq_true, if_true, Nat.add_eq_zero_iff, Nat.one_ne_zero,
        and_false, add_left_inj] at hcaptured
      refine ⟨hcaptured ▸ h.refs, fun k => ?_⟩
      refine (users_modify hc k).trans ?_
      rw [Multiset.count_cons, ← h.users]
      split
      · subst k
        simp [Shared.users, hc]
      · rfl

theorem leaveClosure (h : s.Accounted h₀ (id ::ₘ U) O) : (s.leaveClosure id).Accounted h₀ U O := by
  have hused : s.users id = U.count id + 1 := by rw [h.users, Multiset.count_cons_self]
  have hused' := hused
  unfold Shared.users at hused'
  cases hc : s.closures[id]? with
  | none => simp [hc] at hused'
  | some c =>
      simp only [hc, Option.map_some, Option.getD_some] at hused'
      have hclosures := closures_leaveClosure hc
      have hcaptured := captured_modify (f := fun c => { c with users := c.users - 1 }) hc
        (fun _ => rfl) hclosures
      have hleft : (s.leaveClosure id).refs =
          if c.users = 1 then s.refs.releaseAll (HostOp.refsOf c.ops) else s.refs := by
        simp only [Shared.leaveClosure, hc]
      have hlast : c.users - 1 = 0 ↔ c.users = 1 := by omega
      have hsome : c.users ≠ 0 := by omega
      simp only [hsome, ne_eq, not_false_eq_true, if_true, hlast] at hcaptured
      refine ⟨?_, fun k => ?_⟩
      · have hrefs := h.refs
        rw [hleft]
        by_cases hone : c.users = 1
        · rw [if_neg (not_not_intro hone), add_zero] at hcaptured
          rw [← hcaptured, add_comm (Multiset.ofList _), add_assoc] at hrefs
          rw [if_pos hone]
          exact hrefs.releaseAll
        · rw [if_pos hone, add_left_inj] at hcaptured
          rwa [hcaptured, if_neg hone]
      · have hk := h.users k
        rw [Multiset.count_cons] at hk
        unfold Shared.users
        rw [hclosures, users_modify hc]
        split
        · subst k
          dsimp only
          omega
        · rw [hk, if_neg ‹_›, add_zero]

theorem leaveClosures {ids : List ClosureId} (h : s.Accounted h₀ (ids + U) O) :
    (s.leaveClosures ids).Accounted h₀ U O := by
  induction ids generalizing s with
  | nil => simpa [Shared.leaveClosures] using h
  | cons id ids ih =>
      rw [← Multiset.cons_coe, Multiset.cons_add] at h
      exact ih h.leaveClosure

end Accounted

theorem keeps_newClosure (ops : List HostOp) (s : Shared) : s.Keeps (s.newClosure ops).2 :=
  Extended.push Closure.Becomes.refl _ _

theorem keeps_useClosure (id : ClosureId) (s : Shared) : s.Keeps (s.useClosure id) :=
  Extended.modify Closure.Becomes.refl fun _ _ => rfl

theorem keeps_leaveClosure (id : ClosureId) (s : Shared) : s.Keeps (s.leaveClosure id) := by
  cases hc : s.closures[id]? with
  | none => exact Keeps.of_closures (by simp only [leaveClosure, hc])
  | some c =>
      rw [Keeps, closures_leaveClosure hc]
      exact Extended.modify Closure.Becomes.refl fun _ _ => rfl

theorem keeps_leaveClosures (ids : List ClosureId) (s : Shared) :
    s.Keeps (s.leaveClosures ids) := by
  induction ids generalizing s with
  | nil => exact Keeps.refl s
  | cons id ids ih => exact (keeps_leaveClosure id s).trans (ih _)

theorem hasBody_newClosure (ops : List HostOp) (s : Shared) :
    (s.newClosure ops).2.HasBody (s.newClosure ops).1 ops :=
  ⟨⟨ops, 1⟩, by simp [newClosure], rfl⟩

end Shared

/-! ## Functions of stores -/

/-- The partners of code are ahead, and the body of a host function is among some closures. -/
def FuncBody.Founded (s : Shared) (ids : List ClosureId) : FuncBody → Prop
  | .code _ c => c.Forward
  | .host ops => ∃ id ∈ ids, s.HasBody id ops
  | .command m .. => ∀ c ∈ m.codes, c.Forward
  | .wasi _ | .idle => True

/-- All functions of a store are founded on the closures that it uses. -/
def Store.Founded (s : Shared) (st : Store) : Prop :=
  ∀ f ∈ st.funcs, f.body.Founded s st.closures

theorem FuncBody.Founded.mono {s s' : Shared} {ids ids' : List ClosureId} {body : FuncBody}
    (h : body.Founded s ids) (hs : s.Keeps s') (hids : ids ⊆ ids') : body.Founded s' ids' := by
  cases body with
  | host ops =>
      obtain ⟨id, hid, hbody⟩ := h
      exact ⟨id, hids hid, hbody.keeps hs⟩
  | code | command | wasi | idle => exact h

theorem Store.Founded.append {s s' : Shared} {st st' : Store} {fs : Array Func}
    (h : st.Founded s) (hs : s.Keeps s') (hfuncs : st'.funcs = st.funcs ++ fs)
    (hids : st.closures ⊆ st'.closures) (hfs : ∀ f ∈ fs, f.body.Founded s' st'.closures) :
    st'.Founded s' := by
  intro f hf
  rw [hfuncs, Array.mem_append] at hf
  exact hf.elim (fun hf => (h f hf).mono hs hids) (hfs f)

theorem Store.Founded.keeps {s s' : Shared} {st : Store} (h : st.Founded s) (hs : s.Keeps s') :
    st.Founded s' :=
  h.append hs (Array.append_empty).symm (List.Subset.refl _) (by simp)

/-- A store got more functions, and nothing else in it changed. -/
structure World.Hires (w w' : World) : Prop where
  store : ∃ fs closures, w'.store = { w.store with funcs := w.store.funcs ++ fs, closures }
  bodies : w.shared.Keeps w'.shared

namespace World.Hires

variable {w w' w'' : World}

theorem of_store (h : w'.store = w.store) (hs : w.shared.Keeps w'.shared) : w.Hires w' :=
  ⟨⟨#[], w.store.closures, by rw [h, Array.append_empty]⟩, hs⟩

theorem trans (h : w.Hires w') (h' : w'.Hires w'') : w.Hires w'' := by
  obtain ⟨⟨fs, ids, hstore⟩, hs⟩ := h
  obtain ⟨⟨fs', ids', hstore'⟩, hs'⟩ := h'
  refine ⟨⟨fs ++ fs', ids', ?_⟩, hs.trans hs'⟩
  rw [hstore', hstore]
  simp only [Array.append_assoc]

theorem newFunc (type : FuncType) (body : FuncBody) (w : World) :
    w.Hires (w.newFunc type body).2 :=
  ⟨⟨#[⟨type, body⟩], w.store.closures, by simp [World.newFunc, mapStore]⟩, Shared.Keeps.refl _⟩

end World.Hires

/-! ## Linkers -/

/-- The body of a definition is there. -/
def Definition.Founded (s : Shared) : Definition → Prop
  | .host _ ops id => s.HasBody id ops
  | .item .. | .wasi _ => True

theorem Definition.Founded.keeps {s s' : Shared} {d : Definition} (h : d.Founded s)
    (hs : s.Keeps s') : d.Founded s' := by
  cases d with
  | host type ops id => exact Shared.HasBody.keeps h hs
  | item | wasi => exact h

theorem Definition.founded_of_bare {d : Definition} (h : d.closures = []) (s : Shared) :
    d.Founded s := by
  cases d with
  | host type ops id => cases h
  | item | wasi => trivial

namespace Linker

variable {l l' : Linker} {n : LinkName} {d old : Definition}

/-- Each name of a linker is defined once, and the bodies of its definitions are there. -/
structure Founded (s : Shared) (l : Linker) : Prop where
  distinct : (l.definitions.map (·.1)).Nodup
  bodies : ∀ e ∈ l.definitions, e.2.Founded s

theorem Founded.keeps {s s' : Shared} (h : l.Founded s) (hs : s.Keeps s') : l.Founded s' :=
  ⟨h.distinct, fun e he => (h.bodies e he).keeps hs⟩

theorem Founded.insert {s : Shared} (h : l.Founded s) (hd : d.Founded s) (n : LinkName) :
    (l.insert n d).Founded s := by
  refine ⟨?_, fun e he => ?_⟩
  · simp only [Linker.insert, List.map_cons, List.nodup_cons]
    refine ⟨fun hmem => ?_, (List.filter_sublist.map _).nodup h.distinct⟩
    obtain ⟨e, he, hn⟩ := List.mem_map.mp hmem
    exact (of_decide_eq_true (List.mem_filter.mp he).2) hn
  · rcases List.mem_cons.mp he with rfl | he
    · exact hd
    · exact h.bodies e (List.mem_filter.mp he).1

private theorem filter_of_ne {ds : List (LinkName × Definition)} (h : ∀ e ∈ ds, e.1 ≠ n) :
    ds.filter (·.1 ≠ n) = ds := List.filter_eq_self.mpr fun e he => decide_eq_true (h e he)

theorem closures_insert_of_free (h : l.find? n = none) (d : Definition) :
    (l.insert n d).closures = d.closures ++ l.closures := by
  have hfree : ∀ e ∈ l.definitions, e.1 ≠ n := fun e he =>
    (bne_iff_ne.mp (List.lookup_eq_none_iff.mp h e he)).symm
  rw [closures, insert, filter_of_ne hfree, List.flatMap_cons, closures]

/-- A new definition of a name uses its own closures, and the old one no longer does. -/
theorem closures_insert_of_taken {s : Shared} (hl : l.Founded s) (h : l.find? n = some old)
    (d : Definition) :
    (old.closures : Multiset ClosureId) + (l.insert n d).closures = d.closures + l.closures := by
  obtain ⟨before, after, hdefs, hfree⟩ := List.lookup_eq_some_iff.mp h
  have hdistinct := hl.distinct
  rw [hdefs, List.map_append, List.map_cons, List.nodup_append] at hdistinct
  have hbefore : ∀ e ∈ before, e.1 ≠ n := fun e he => (bne_iff_ne.mp (hfree e he)).symm
  have hafter : ∀ e ∈ after, e.1 ≠ n := by
    rintro e he rfl
    exact (List.nodup_cons.mp hdistinct.2.1).1 (List.mem_map.mpr ⟨e, he, rfl⟩)
  have hrest : l.definitions.filter (·.1 ≠ n) = before ++ after := by
    rw [hdefs, List.filter_append, List.filter_cons_of_neg (by simp), filter_of_ne hbefore,
      filter_of_ne hafter]
  rw [closures, insert, hrest, closures, hdefs]
  simp only [List.flatMap_cons, List.flatMap_append, ← Multiset.coe_add]
  ac_rfl

/-- A linker is at work with a store, which was once that of `w₀`. The users of bodies are its
definitions, the functions of the store, and `U`. -/
structure Sound (h₀ : RefHeap) (U : Multiset ClosureId) (O : Multiset RefId) (w₀ : World)
    (l : Linker) (w : World) : Prop where
  shared : w.shared.Accounted h₀ (l.closures + (w.store.closures + U)) O
  linker : l.Founded w.shared
  store : w.store.Founded w.shared
  hires : w₀.Hires w

namespace Sound

variable {h₀ : RefHeap} {U : Multiset ClosureId} {O : Multiset RefId} {w₀ w : World} {s' : Shared}

/-- A name is defined, and its body has a user already. -/
theorem define
    (h : w.shared.Accounted h₀ (d.closures + (l.closures + (w.store.closures + U))) O)
    (hl : l.Founded w.shared) (hd : d.Founded w.shared) (hs : w.store.Founded w.shared)
    (hw : w₀.Hires w) (hdef : l.define n d w.shared = .ok (l', s')) :
    l'.Sound h₀ U O w₀ { w with shared := s' } := by
  unfold Linker.define at hdef
  split at hdef
  · rename_i hfree
    cases hdef
    refine ⟨h.reshape ?_ rfl, hl.insert hd n, hs, hw⟩
    rw [closures_insert_of_free hfree, ← Multiset.coe_add, add_assoc]
  · rename_i old htaken
    split at hdef <;> cases hdef
    have hkept := Shared.keeps_leaveClosures old.closures w.shared
    refine ⟨Shared.Accounted.leaveClosures (h.reshape ?_ rfl), (hl.insert hd n).keeps hkept,
      hs.keeps hkept,
      hw.trans (.of_store rfl hkept)⟩
    rw [← add_assoc, closures_insert_of_taken hl htaken, add_assoc]

/-- Definitions that use no bodies are added, up to the first that is refused. -/
theorem defineAll {ds : List (LinkName × Definition)} (h : l.Sound h₀ U O w₀ w)
    (hds : ∀ e ∈ ds, e.2.closures = []) :
    (l.defineAll ds w.shared).2.1.Sound h₀ U O w₀
      { w with shared := (l.defineAll ds w.shared).2.2 } := by
  induction ds generalizing l w with
  | nil => exact h
  | cons e ds ih =>
      obtain ⟨n, d⟩ := e
      have hd : d.closures = [] := hds _ List.mem_cons_self
      unfold Linker.defineAll
      split
      · rename_i hdef
        refine ih (w := { w with shared := _ }) (define (h.shared.reshape ?_ rfl) h.linker
          (Definition.founded_of_bare hd _) h.store h.hires hdef) fun e he =>
            hds e (List.mem_cons_of_mem _ he)
        rw [hd, Multiset.coe_nil, zero_add]
      · exact h

/-- A function is added to the store. -/
theorem newFunc {body : FuncBody} (h : l.Sound h₀ U O w₀ w) (type : FuncType)
    (hbody : body.Founded w.shared w.store.closures) :
    l.Sound h₀ U O w₀ (w.newFunc type body).2 := by
  have hfuncs : (w.newFunc type body).2.store.funcs = w.store.funcs ++ #[⟨type, body⟩] := by
    simp [World.newFunc, World.mapStore]
  refine ⟨h.shared, h.linker, ?_, h.hires.trans (.newFunc type body w)⟩
  refine h.store.append (.refl _) hfuncs (List.Subset.refl _) fun f hf => ?_
  rw [List.mem_singleton.mp (List.mem_toArray.mp hf)]
  exact hbody

theorem toItem (h : l.Sound h₀ U O w₀ w) (hd : (n, d) ∈ l.definitions) :
    l.Sound h₀ U O w₀ (d.toItem w).2 := by
  have hfounded := h.linker.bodies _ hd
  cases d with
  | item i t => exact h
  | wasi f => exact h.newFunc f.type trivial
  | host type ops id =>
      have hid : id ∈ l.closures := List.mem_flatMap.mpr ⟨_, hd, List.mem_singleton_self id⟩
      have hkept := Shared.keeps_useClosure id w.shared
      have hused : l.Sound h₀ U O w₀
          { store := { w.store with closures := id :: w.store.closures }
            shared := w.shared.useClosure id } := by
        refine ⟨?_, h.linker.keeps hkept, ?_, ?_⟩
        · refine (h.shared.useClosure (Multiset.mem_add.mpr (.inl hid))).reshape ?_ rfl
          rw [← Multiset.cons_coe, Multiset.cons_add, Multiset.add_cons]
        · exact h.store.append hkept (Array.append_empty).symm (List.subset_cons_self _ _) (by simp)
        · exact h.hires.trans ⟨⟨#[], id :: w.store.closures, by rw [Array.append_empty]⟩, hkept⟩
      exact hused.newFunc type ⟨id, List.mem_cons_self, Shared.HasBody.keeps hfounded hkept⟩

theorem toItems {ds : List Definition} (h : l.Sound h₀ U O w₀ w)
    (hds : ∀ d ∈ ds, ∃ n, (n, d) ∈ l.definitions) :
    l.Sound h₀ U O w₀ (Definition.toItems ds w).2 := by
  induction ds generalizing w with
  | nil => exact h
  | cons d ds ih =>
      obtain ⟨n, hd⟩ := hds d List.mem_cons_self
      exact ih (h.toItem hd) fun d hd => hds d (List.mem_cons_of_mem _ hd)

end Sound

theorem mem_of_findAll {is : List ImportType} {ds : List Definition} (h : l.findAll is = .ok ds) :
    ∀ d ∈ ds, ∃ n, (n, d) ∈ l.definitions := by
  induction is generalizing ds with
  | nil =>
      cases h
      exact fun d hd => by cases hd
  | cons i is ih =>
      rw [findAll_cons] at h
      cases hi : l.find? ⟨i.module, i.name⟩ with
      | none => simp [hi] at h
      | some d =>
          cases hrest : l.findAll is with
          | error e => simp [hi, hrest, Except.map] at h
          | ok ds' =>
              simp only [hi, hrest, Except.map, Except.ok.injEq] at h
              subst h
              intro d' hd'
              rcases List.mem_cons.mp hd' with rfl | hd'
              · obtain ⟨before, after, hdefs, -⟩ := List.lookup_eq_some_iff.mp hi
                exact ⟨⟨i.module, i.name⟩, by simp [hdefs]⟩
              · exact ih hrest d' hd'

theorem mem_of_resolve {m : CompiledModule} {typeOf : Definition → ItemType}
    {ds : List Definition} (h : l.resolve m typeOf = .ok ds) :
    ∀ d ∈ ds, ∃ n, (n, d) ∈ l.definitions := by
  cases hfound : l.findAll m.signature.imports with
  | error e => simp [resolve, hfound, bind, Except.bind] at h
  | ok ds' =>
      rw [resolve_of_findAll hfound] at h
      cases hfit : World.fitTypes m.signature.imports (ds'.map typeOf) with
      | error e => simp [hfit, Except.map] at h
      | ok u =>
          simp only [hfit, Except.map, Except.ok.injEq] at h
          exact h ▸ mem_of_findAll hfound

namespace Sound

variable {h₀ : RefHeap} {U : Multiset ClosureId} {O : Multiset RefId} {w₀ w : World} {s' : Shared}

theorem defineCommand {module : String} {m : CompiledModule} {es : List ExportType}
    (h : l.Sound h₀ U O w₀ w) (hm : ∀ c ∈ m.codes, c.Forward) :
    (Linker.defineCommand module m es l w).2.1.Sound h₀ U O w₀
      (Linker.defineCommand module m es l w).2.2 := by
  induction es generalizing l w with
  | nil => exact h
  | cons e es ih =>
      simp only [Linker.defineCommand]
      split
      · rename_i type htype
        cases hr : l.resolve m Definition.type with
        | error reason => exact h
        | ok ds =>
            have hcommand : (FuncBody.command m (Definition.toItems ds w).1 e.name).Founded
                (Definition.toItems ds w).2.shared (Definition.toItems ds w).2.store.closures := hm
            have hadded := (h.toItems (mem_of_resolve hr)).newFunc type hcommand
            dsimp only
            split
            · rename_i hdef
              refine ih (define ?_ hadded.linker (Definition.founded_of_bare rfl _) hadded.store
                hadded.hires hdef)
              exact hadded.shared.reshape (zero_add _) rfl
            · exact hadded
      all_goals
        split
        · exact ih h
        · exact h

end Sound

end Linker

/-- An operation on a linker keeps the users of bodies counted. -/
theorem LinkerCall.sound_run {c : LinkerCall} {l l' : Linker} {w₀ w w' : World}
    {r : Except Failure Unit} {h₀ : RefHeap} {U : Multiset ClosureId} {O : Multiset RefId}
    (hrun : c.run l w = some (r, l', w')) (h : l.Sound h₀ U O w₀ w) (hc : c.IsPlain)
    (hrefs : ∀ r ∈ c.refs, r ∈ (w.shared.captured : Multiset RefId) + O) :
    l'.Sound h₀ U O w₀ w' := by
  have hsettle {a : Except Error (Linker × Shared)}
      (ha : ∀ p, a = .ok p → p.1.Sound h₀ U O w₀ { w with shared := p.2 })
      (hs : settle l w a = (r, l', w')) : l'.Sound h₀ U O w₀ w' := by
    cases a with
    | ok p => cases hs; exact ha p rfl
    | error e => cases hs; exact h
  cases c with
  | allowShadowing allow =>
      cases hrun
      exact ⟨h.shared, ⟨h.linker.distinct, h.linker.bodies⟩, h.store, h.hires⟩
  | define n item =>
      refine hsettle (fun p hp => ?_) (Option.some.inj hrun)
      unfold Linker.defineItem at hp
      split at hp
      · rename_i type _
        cases hd : l.define n (.item item type) w.shared with
        | ok q =>
            rw [hd] at hp
            cases hp
            exact .define (h.shared.reshape (zero_add _) rfl) h.linker
              (Definition.founded_of_bare rfl _) h.store h.hires hd
        | error e => rw [hd] at hp; cases hp
      · cases hp
  | defineFunc n type ops =>
      refine hsettle (fun p hp => ?_) (Option.some.inj hrun)
      simp only [Linker.defineFunc] at hp
      have hnew := h.shared.newClosure hrefs
      have hkept := Shared.keeps_newClosure ops w.shared
      have hbody := Shared.hasBody_newClosure ops w.shared
      generalize w.shared.newClosure ops = answer at hp hnew hkept hbody
      obtain ⟨id, s⟩ := answer
      dsimp only at hp hnew hkept hbody
      cases hd : l.define n (.host type ops id) s with
      | ok q =>
          rw [hd] at hp
          cases hp
          have hstore : Store.Founded s w.store :=
            h.store.keeps hkept
          have hused : s.Accounted h₀ ((Definition.host type ops id).closures +
              (l.closures + (w.store.closures + U))) O :=
            hnew.reshape (by simp [Definition.closures]) rfl
          exact Linker.Sound.define (w := { w with shared := s }) hused (h.linker.keeps hkept) hbody
            hstore (h.hires.trans (.of_store rfl hkept)) hd
      | error e => rw [hd] at hp; cases hp
  | defineInstance module addr =>
      cases hrun
      refine h.defineAll fun e he => ?_
      obtain ⟨⟨name, item⟩, -, he⟩ := List.mem_filterMap.mp he
      obtain ⟨type, -, rfl⟩ := Option.map_eq_some_iff.mp he
      rfl
  | defineWasi =>
      have hbare : ∀ e ∈ Linker.wasiDefinitions, e.2.closures = [] := fun e he => by
        obtain ⟨f, -, rfl⟩ := List.mem_map.mp he
        rfl
      have hall := h.defineAll hbare
      cases hrun
      exact hall
  | defineModule limit module m =>
      obtain ⟨hrole, o, bytes, hm⟩ := hc
      simp only [run, Linker.defineModule, hrole] at hrun
      cases hrun
      exact h.defineCommand (CompiledModule.forward_ofBinary hm)

end WasmHost

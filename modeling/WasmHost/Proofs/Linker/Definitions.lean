import WasmHost.Linker

/-!
# Names and what they stand for

A linker only ever changes by insertions. Each one binds one name and leaves the others alone, so
what a name stands for after some insertions is what the latest one under that very name says, or
what it stood for before.
-/

namespace WasmHost.Linker

variable {l : Linker} {n k : LinkName} {d : Definition}

/-! ## One insertion -/

@[simp] theorem find?_insert_self (l : Linker) (n : LinkName) (d : Definition) :
    (l.insert n d).find? n = some d := by
  simp [find?, insert]

theorem find?_insert_of_ne (h : k ≠ n) : (l.insert n d).find? k = l.find? k := by
  have hk : (k == n) = false := beq_eq_false_iff_ne.mpr h
  simp only [find?, insert, List.lookup_cons, hk]
  induction l.definitions with
  | nil => rfl
  | cons e es ih =>
      obtain ⟨n', d'⟩ := e
      by_cases he : n' = n
      · subst he
        simp only [List.filter_cons, ne_eq, not_true_eq_false, decide_false, Bool.false_eq_true,
          if_false, List.lookup_cons, hk]
        exact ih
      · simp only [List.filter_cons, ne_eq, he, not_false_eq_true, decide_true, if_true,
          List.lookup_cons]
        rw [← ih]

@[simp] theorem allowsShadowing_insert (l : Linker) (n : LinkName) (d : Definition) :
    (l.insert n d).allowsShadowing = l.allowsShadowing := rfl

theorem find?_insert_eq_none :
    (l.insert n d).find? k = none ↔ k ≠ n ∧ l.find? k = none := by
  by_cases hk : k = n
  · simp [hk]
  · simp [hk, find?_insert_of_ne hk]

theorem isSome_find?_insert (h : (l.find? k).isSome) : ((l.insert n d).find? k).isSome := by
  by_cases hk : k = n
  · rw [hk, find?_insert_self]
    rfl
  · rw [find?_insert_of_ne hk]
    exact h

/-- Whether the linker takes a definition of a name. -/
def takes (l : Linker) (n : LinkName) : Bool := l.allowsShadowing || (l.find? n).isNone

theorem define_of_takes {s : Shared} (h : l.takes n) (d : Definition) :
    ∃ s', l.define n d s = .ok (l.insert n d, s') := by
  unfold define
  cases hf : l.find? n with
  | none => exact ⟨s, rfl⟩
  | some old =>
      have hs : l.allowsShadowing = true := by simpa [takes, hf] using h
      exact ⟨s.leaveClosures old.closures, by simp [hs]⟩

theorem define_of_not_takes (h : l.takes n = false) (d : Definition) (s : Shared) :
    l.define n d s = .error (definedTwice n) := by
  obtain ⟨hs, hf⟩ : l.allowsShadowing = false ∧ (l.find? n).isNone = false := by
    simpa [takes] using h
  unfold define
  cases hn : l.find? n with
  | none => simp [hn] at hf
  | some old => simp [hs]

theorem takes_eq_false (hs : l.allowsShadowing = false) (hf : (l.find? n).isSome) :
    l.takes n = false := by
  simp [takes, hs, Option.isNone_eq_false_iff.mpr hf]

/-! ## Several insertions -/

/-- Makes insertions one behind the other. -/
def insertAll (ds : List (LinkName × Definition)) (l : Linker) : Linker :=
  ds.foldl (fun l e => l.insert e.1 e.2) l

/-- What the latest of some insertions under a name says. -/
def latest? (n : LinkName) (ds : List (LinkName × Definition)) : Option Definition :=
  ds.reverse.lookup n

theorem latest?_cons (n : LinkName) (e : LinkName × Definition)
    (ds : List (LinkName × Definition)) :
    latest? n (e :: ds) = (latest? n ds).or (if n = e.1 then some e.2 else none) := by
  rw [latest?, List.reverse_cons, List.lookup_append]
  obtain ⟨k, d⟩ := e
  by_cases h : n = k
  · simp [latest?, h]
  · simp [latest?, h, List.lookup_cons, beq_eq_false_iff_ne.mpr h]

theorem latest?_append (n : LinkName) (ds es : List (LinkName × Definition)) :
    latest? n (ds ++ es) = (latest? n es).or (latest? n ds) := by
  simp [latest?, List.lookup_append]

@[simp] theorem allowsShadowing_insertAll (ds : List (LinkName × Definition)) (l : Linker) :
    (l.insertAll ds).allowsShadowing = l.allowsShadowing := by
  induction ds generalizing l with
  | nil => rfl
  | cons e ds ih => exact ih (l.insert e.1 e.2)

theorem find?_insertAll (ds : List (LinkName × Definition)) (l : Linker) (n : LinkName) :
    (l.insertAll ds).find? n = (latest? n ds).or (l.find? n) := by
  induction ds generalizing l with
  | nil => rfl
  | cons e ds ih =>
      rw [insertAll, List.foldl_cons, latest?_cons, Option.or_assoc]
      refine (ih _).trans ?_
      by_cases hn : n = e.1
      · simp [hn]
      · simp [hn, find?_insert_of_ne hn]

theorem mem_of_latest? {ds : List (LinkName × Definition)} (h : latest? n ds = some d) :
    (n, d) ∈ ds := by
  obtain ⟨before, after, hds, -⟩ := List.lookup_eq_some_iff.mp h
  rw [← List.mem_reverse, hds]
  exact List.mem_append_right before List.mem_cons_self

/-- Each of the insertions is one that the linker takes when its turn comes. -/
def TakesAll : List (LinkName × Definition) → Linker → Prop
  | [], _ => True
  | e :: ds, l => l.takes e.1 ∧ TakesAll ds (l.insert e.1 e.2)

/-- Without shadowing, a name that was bound before is not inserted again. -/
theorem TakesAll.latest?_eq_none {ds : List (LinkName × Definition)} (h : TakesAll ds l)
    (hs : l.allowsShadowing = false) (hn : (l.find? n).isSome) : latest? n ds = none := by
  induction ds generalizing l with
  | nil => rfl
  | cons e ds ih =>
      obtain ⟨he, hds⟩ := h
      have hne : n ≠ e.1 := by
        rintro rfl
        rw [takes_eq_false hs hn] at he
        cases he
      rw [latest?_cons, ih hds hs (isSome_find?_insert hn)]
      simp [hne]

/-! ## Definitions that are offered one behind the other -/

/-- The definitions that the linker takes of those that are offered to it one behind the other: all
up to the first whose name is taken already. -/
def taken : List (LinkName × Definition) → Linker → List (LinkName × Definition)
  | [], _ => []
  | e :: ds, l => if l.takes e.1 then e :: taken ds (l.insert e.1 e.2) else []

theorem mem_of_mem_taken {ds : List (LinkName × Definition)} {e : LinkName × Definition}
    (h : e ∈ l.taken ds) : e ∈ ds := by
  induction ds generalizing l with
  | nil => exact h
  | cons d ds ih =>
      unfold taken at h
      split at h
      · rcases List.mem_cons.mp h with rfl | h
        · exact List.mem_cons_self
        · exact List.mem_cons_of_mem _ (ih h)
      · cases h

theorem takesAll_taken (ds : List (LinkName × Definition)) (l : Linker) :
    TakesAll (taken ds l) l := by
  induction ds generalizing l with
  | nil => trivial
  | cons e ds ih =>
      unfold taken
      split
      · exact ⟨‹_›, ih _⟩
      · trivial

theorem defineAll_linker (ds : List (LinkName × Definition)) (l : Linker) (s : Shared) :
    (l.defineAll ds s).2.1 = l.insertAll (taken ds l) := by
  induction ds generalizing l s with
  | nil => rfl
  | cons e ds ih =>
      obtain ⟨n, d⟩ := e
      unfold defineAll taken
      cases ht : l.takes n with
      | true =>
          obtain ⟨s', hd⟩ := define_of_takes (s := s) ht d
          simp only [hd]
          exact ih _ s'
      | false => simp [define_of_not_takes ht, insertAll]

end WasmHost.Linker

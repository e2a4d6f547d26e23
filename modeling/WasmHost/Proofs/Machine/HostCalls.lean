import WasmHost.Proofs.Machine.Changes

/-!
# The two ends of a host function

A host function begins with the values that were passed, as they look from outside, and with a zero
or a null for each result. When it ends, its caller gets the results if each of them has its
declared kind; otherwise the first one that has not ends the call with a trap.
-/

namespace WasmHost

namespace Machine

open World

variable {m : Machine} {h : HostFrame}

/-! ## The beginning -/

/-- The host function at the beginning of a call. -/
def freshHost (w : World) (type : FuncType) (ops : List HostOp) (caller : Option InstanceAddr)
    (args : List StoreVal) : HostFrame :=
  { type, caller, held := args, args := args.map w.view
    results := type.results.map Val.default, todo := ops }

/-- A host function sees what was passed and has zeros and nulls for its results. -/
theorem enter_host {func : FuncAddr} {type : FuncType} {ops : List HostOp} {args : List StoreVal}
    {caller : Option InstanceAddr} (known : m.world.store.funcs[func]? = some ⟨type, .host ops⟩) :
    m.enter func args caller =
      pushActivation (.host (freshHost m.world type ops caller args))
        { m with world := ((m.world.holdAll args).revealAll args).2 } := by
  simp only [enter, known, revealAll_fst, view_holdAll, freshHost]

theorem retains_enter_host (args : List StoreVal) (w : World) :
    w.Retains ((w.holdAll args).revealAll args).2 :=
  Alters.retains ((changes_holdAll args w).trans (changes_revealAll args _))

/-! ## The end -/

/-- The text of the trap that a result of an undeclared kind ends in. -/
def misfitText (found declared : ValType) : String :=
  s!"host function returned {found.name} where {declared.name} was declared"

/-- Results of the declared kinds are taken into the store. -/
theorem acceptResults_of_fits {ts : List ValType} {vs : List HostVal} (fits : vs.map Val.type = ts)
    (w : World) : acceptResults ts vs w = (none, w.acceptAll vs) := by
  subst fits
  induction vs generalizing w with
  | nil => rfl
  | cons v vs ih =>
      simp only [List.map_cons, acceptResults, ne_eq, not_true_eq_false, if_false, ih]
      rfl

/-- The place of the first result that has not its declared kind. -/
def FirstMisfit (ts : List ValType) (vs : List HostVal) (k : Nat) : Prop :=
  (∃ t v, ts[k]? = some t ∧ vs[k]? = some v ∧ v.type ≠ t) ∧
    ∀ j < k, vs[j]?.map Val.type = ts[j]?

/-- Results are taken up to the first that has not its declared kind. -/
theorem acceptResults_of_misfit {ts : List ValType} {vs : List HostVal} {k : Nat} {t : ValType}
    {v : HostVal} (ht : ts[k]? = some t) (hv : vs[k]? = some v) (misfit : v.type ≠ t)
    (fits : ∀ j < k, vs[j]?.map Val.type = ts[j]?) (w : World) :
    acceptResults ts vs w = (some (v.type, t), w.acceptAll (vs.take k)) := by
  induction k generalizing ts vs w with
  | zero =>
      obtain ⟨ts, rfl⟩ : ∃ ts', ts = t :: ts' := by cases ts <;> simp_all
      obtain ⟨vs, rfl⟩ : ∃ vs', vs = v :: vs' := by cases vs <;> simp_all
      simp only [acceptResults, if_pos misfit]
      rfl
  | succ k ih =>
      cases ts with
      | nil => cases ht
      | cons t' ts =>
          cases vs with
          | nil => cases hv
          | cons v' vs =>
              have hfirst : v'.type = t' := by simpa using fits 0 (Nat.succ_pos k)
              have hfits := fun j hj => fits (j + 1) (Nat.succ_lt_succ hj)
              have hrest := ih ht hv hfits (w.accept v').2
              simp only [acceptResults, hfirst, ne_eq, not_true_eq_false, if_false, hrest]
              rfl

/-- Results fit, or there is a first one that does not. -/
theorem fits_or_firstMisfit {ts : List ValType} {vs : List HostVal} (h : vs.length = ts.length) :
    vs.map Val.type = ts ∨ ∃ k, FirstMisfit ts vs k := by
  induction ts generalizing vs with
  | nil =>
      obtain rfl := List.length_eq_zero_iff.mp h
      exact .inl rfl
  | cons t ts ih =>
      cases vs with
      | nil => cases h
      | cons v vs =>
          by_cases hv : v.type = t
          · rcases ih (Nat.succ.inj h) with hfits | ⟨k, hmisfit, hbefore⟩
            · exact .inl (List.cons_eq_cons.mpr ⟨hv, hfits⟩)
            · refine .inr ⟨k + 1, hmisfit, ?_⟩
              rintro (_ | j) hj
              · exact congrArg some hv
              · exact hbefore j (Nat.lt_of_succ_lt_succ hj)
          · exact .inr ⟨0, ⟨t, v, rfl, rfl, hv⟩, fun j hj => absurd hj (Nat.not_lt_zero j)⟩

theorem store_close (h : HostFrame) (w : World) :
    ∃ v : World, v.store = w.store ∧ h.close w = v.unholdAll h.held :=
  ⟨_, (store_discardAll h.results _).trans (store_discardAll h.args w), rfl⟩

@[simp] theorem view_close (h : HostFrame) (w : World) : (h.close w).view = w.view := by
  obtain ⟨v, hv, hclose⟩ := store_close h w
  rw [hclose, view_unholdAll, view_of_store hv]

variable {rest : List Activation}

/-- A host function whose results have their declared kinds gives them to its caller. -/
theorem finishHost_of_fits (hstack : m.stack = .host h :: rest)
    (fits : h.results.map Val.type = h.type.results) :
    ∃ vals w, m.finishHost h = ⟨w, rest, .back vals, m.used - Activation.hostSize⟩ ∧
      vals.map w.view = h.results ∧ (∀ v ∈ vals, w.Boxed v) ∧ m.world.Retains w := by
  have htaken : m.world.Alters _ := changes_acceptAll h.results m.world
  have hview := view_acceptAll h.results m.world
  have hboxed := boxed_acceptAll h.results m.world
  generalize hr : m.world.acceptAll h.results = r at htaken hview hboxed
  obtain ⟨vals, w⟩ := r
  have hclosed : w.Alters (h.close ((w.exposeAll vals).unholdAll vals)) :=
    ((changes_exposeAll vals w).trans (changes_unholdAll vals _)).trans (h.changes_close _)
  refine ⟨vals, h.close ((w.exposeAll vals).unholdAll vals), ?_, ?_, fun v hv => ?_,
    Alters.retains (htaken.trans hclosed)⟩
  · simp only [finishHost, acceptResults_of_fits fits, hr, giveBack, leaveHost, popActivation,
      hstack]
    rfl
  · rw [view_close, view_unholdAll, view_exposeAll]
    exact hview
  · exact hclosed.keeps.boxed (hboxed v hv)

/-- A host function with a result of another kind than was declared ends with a trap, which names
the first such kind. -/
theorem finishHost_of_misfit (hstack : m.stack = .host h :: rest) {k : Nat}
    (misfit : FirstMisfit h.type.results h.results k) :
    ∃ t v w, h.type.results[k]? = some t ∧ h.results[k]? = some v ∧
      m.finishHost h =
        ⟨w, rest, .fault ⟨.host (.ofText (misfitText v.type t)), w.trace rest⟩,
          m.used - Activation.hostSize⟩ ∧
      m.world.Retains w := by
  obtain ⟨⟨t, v, ht, hv, hne⟩, hbefore⟩ := misfit
  have htaken : m.world.Alters _ := changes_acceptAll (h.results.take k) m.world
  generalize hr : m.world.acceptAll (h.results.take k) = r at htaken
  obtain ⟨vals, w⟩ := r
  refine ⟨t, v, h.close (w.unholdAll vals), ht, hv, ?_,
    Alters.retains ((htaken.trans (changes_unholdAll vals w)).trans (h.changes_close _))⟩
  simp only [finishHost, acceptResults_of_misfit ht hv hne hbefore, hr, failHost, leaveHost, raise,
    popActivation, hstack]
  rfl

section

variable (m h rest)

theorem objects_putResult (i : Nat) (v : HostVal) (w : World) :
    (h.putResult i v w).2.objects = w.objects := by
  unfold HostFrame.putResult
  split <;> exact objects_discard _ w

theorem objects_setResult (i : Nat) (v : HostVal) (w : World) :
    (h.setResult i v w).2.objects = w.objects := by
  unfold HostFrame.setResult
  rw [objects_putResult]
  cases v.foreign? <;> rfl

theorem objects_close (w : World) : (h.close w).objects = w.objects := by
  simp [HostFrame.close]

theorem objects_leaveHost : (m.leaveHost h).world.objects = m.world.objects := by
  simp [leaveHost, objects_close]

theorem objects_failHost (t : Trap) : (m.failHost t h).world.objects = m.world.objects :=
  objects_leaveHost m h

theorem objects_acceptResults (ts : List ValType) (vs : List HostVal) (w : World) :
    (acceptResults ts vs w).2.2.objects = w.objects := by
  induction ts generalizing vs w with
  | nil => rfl
  | cons t ts ih =>
      cases vs with
      | nil => rfl
      | cons v vs =>
          simp only [acceptResults]
          split
          · rfl
          · exact (ih vs _).trans (objects_accept v w)

theorem objects_finishHost : (m.finishHost h).world.objects = m.world.objects := by
  unfold finishHost
  dsimp only
  split
  · simp [objects_failHost, objects_acceptResults]
  · simp [objects_leaveHost, objects_acceptResults]

theorem objects_hostResume (vals : List StoreVal) (p : PendingCall) :
    (m.hostResume vals p h rest).world.objects = m.world.objects := by
  simp only [hostResume, onHost, objects_unholdAll, objects_discardAll]
  split <;> simp [objects_setResult]

end

end Machine

end WasmHost

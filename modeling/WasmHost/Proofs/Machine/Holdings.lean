import WasmHost.Proofs.Machine.Accounts
import WasmHost.Proofs.Machine.Reach

/-!
# What running calls hold

Host functions at work have clones of their arguments and results and hold the boxes of what was
passed; commands hold the boxes of their arguments; code has seen what it can still use.
`Machine.Sound` says that all of this is counted, and every step keeps it so.
-/

namespace WasmHost

open Val World

variable {h₀ : RefHeap} {O base : Multiset RefId} {H home : Multiset BoxId} {P : Set RefId}
  {S S' : Set BoxId} {w : World}

/-! ## Frames of code between calls -/

namespace CodeFrame

variable {f : CodeFrame} {first : Nat}

theorem foldl_min_le {bs : List RunBlock} {p : Nat} :
    bs.foldl (fun p b => min p b.next) p ≤ p ∧
      ∀ b ∈ bs, bs.foldl (fun p b => min p b.next) p ≤ b.next := by
  induction bs generalizing p with
  | nil => exact ⟨Nat.le_refl p, by simp⟩
  | cons b bs ih =>
      obtain ⟨hp, hbs⟩ := ih (p := min p b.next)
      refine ⟨Nat.le_trans hp (Nat.min_le_left _ _), fun b' hb' => ?_⟩
      rcases List.mem_cons.mp hb' with rfl | hb'
      · exact Nat.le_trans hp (Nat.min_le_right _ _)
      · exact hbs b' hb'

theorem le_foldl_min {bs : List RunBlock} {p : Nat} (hp : first ≤ p)
    (hbs : ∀ b ∈ bs, first ≤ b.next) : first ≤ bs.foldl (fun p b => min p b.next) p := by
  induction bs generalizing p with
  | nil => exact hp
  | cons b bs ih =>
      exact ih (Nat.le_min.mpr ⟨hp, hbs b List.mem_cons_self⟩)
        fun b' hb' => hbs b' (List.mem_cons_of_mem b hb')

theorem needsLocal_of_readsFrom {i : Nat} (h : f.code.ReadsFrom f.earliest i) :
    f.needsLocal i := by
  obtain ⟨pc, hpc, hop⟩ := h
  refine List.any_eq_true.mpr ⟨.localGet i, ?_, by simp⟩
  rw [List.mem_iff_getElem?]
  refine ⟨pc - f.earliest, ?_⟩
  rw [List.getElem?_drop, Nat.add_sub_cancel' hpc]
  simpa using hop

theorem mem_boxes {v : StoreVal} {b : BoxId} (hv : v ∈ f.needed) (hb : v.foreign? = some b) :
    b ∈ f.boxes := List.mem_filterMap.mpr ⟨v, hv, hb⟩

/-- A frame that made a call keeps what it can use, if its boxes stay. -/
theorem Safe.collect {live : List BoxId} (h : f.advance.Safe S first) (hlive : f.boxes ⊆ live) :
    f.advance.Safe (S ∩ {b | b ∈ live}) f.earliest := by
  have hfirst : first ≤ f.earliest := le_foldl_min h.pc h.blocks
  refine ⟨fun b hb => ⟨h.operands b hb, hlive ?_⟩, fun i v hv hr b hb => ⟨?_, hlive ?_⟩,
    foldl_min_le.1, foldl_min_le.2, h.forward⟩
  · obtain ⟨v, hv, hb⟩ := mem_foreigns.mp hb
    exact mem_boxes (List.mem_append.mpr (.inr hv)) hb
  · obtain ⟨pc, hpc, hop⟩ := hr
    exact h.locals i v hv ⟨pc, Nat.le_trans hfirst hpc, hop⟩ b hb
  · obtain ⟨u, hu, hb⟩ := mem_foreigns.mp hb
    rw [List.mem_singleton.mp hu] at hb
    refine mem_boxes (List.mem_append.mpr (.inl ?_)) hb
    refine List.mem_map.mpr ⟨(v, i), List.mem_filter.mpr ⟨?_, needsLocal_of_readsFrom hr⟩, rfl⟩
    exact List.mk_mem_zipIdx_iff_getElem?.mpr (Array.getElem?_toList.trans hv)

end CodeFrame

/-! ## Calls at work -/

/-- The boxes that an activation holds. -/
def Activation.held : Activation → Multiset BoxId
  | .host h => foreigns h.held + h.pending.elim 0 fun p => foreigns p.held
  | .command c => foreigns c.held
  | .code _ => 0

/-- The references of which the activations of a stack have clones. -/
def clonesOf (stack : List Activation) : Multiset RefId :=
  (stack.map fun a => (a.clones : Multiset RefId)).sum

/-- The boxes that the activations of a stack hold. -/
def heldBy (stack : List Activation) : Multiset BoxId := (stack.map Activation.held).sum

@[simp] theorem clonesOf_nil : clonesOf [] = 0 := rfl

@[simp] theorem clonesOf_cons (a : Activation) (rest : List Activation) :
    clonesOf (a :: rest) = a.clones + clonesOf rest := rfl

@[simp] theorem heldBy_nil : heldBy [] = 0 := rfl

@[simp] theorem heldBy_cons (a : Activation) (rest : List Activation) :
    heldBy (a :: rest) = a.held + heldBy rest := rfl

/-- What a suspended frame of code can use is in `S`, and what a host function passes by itself is
in `P`. -/
def Activation.Safe (P : Set RefId) (S : Set BoxId) : Activation → Prop
  | .code f => ∃ first, f.advance.Safe S first
  | .host h => ∀ r ∈ HostOp.refsOf h.todo, r ∈ P
  | .command _ => True

theorem Activation.Safe.mono {a : Activation} (h : a.Safe P S) (hS : S ⊆ S') : a.Safe P S' := by
  cases a with
  | code f => exact h.imp fun _ hf => hf.mono hS
  | host | command => exact h

/-- The partners of code are ahead, and what a host function passes by itself is in `P`. -/
def FuncBody.Backed (P : Set RefId) : FuncBody → Prop
  | .code _ c => c.Forward
  | .host ops => ∀ r ∈ HostOp.refsOf ops, r ∈ P
  | .command m .. => ∀ c ∈ m.codes, c.Forward
  | .wasi _ | .idle => True

/-- All functions of a store are backed. -/
def Store.Backed (P : Set RefId) (s : Store) : Prop := ∀ f ∈ s.funcs, f.body.Backed P

namespace Machine

/-- Everything is counted, where `base` has the clones and `home` holds the boxes that the machine
does not know of. -/
structure Steady (h₀ : RefHeap) (base : Multiset RefId) (home : Multiset BoxId) (P : Set RefId)
    (S : Set BoxId) (m : Machine) : Prop where
  world : m.world.Sound h₀ (base + clonesOf m.stack) (home + heldBy m.stack) S
  stack : ∀ a ∈ m.stack, a.Safe P S

/-- Moreover what goes on at the top is safe: the code that runs, or the results that it gets. -/
structure Sound (h₀ : RefHeap) (base : Multiset RefId) (home : Multiset BoxId) (P : Set RefId)
    (S : Set BoxId) (m : Machine) : Prop extends Steady h₀ base home P S m where
  running : m.control = .run → ∀ f rest, m.stack = .code f :: rest → ∃ first, f.Safe S first
  back : ∀ vals, m.control = .back vals → ∀ b ∈ foreigns vals, b ∈ S

variable {m : Machine}

namespace Steady

theorem faulted {f : Fault} (h : m.Steady h₀ base home P S) (hc : m.control = .fault f) :
    m.Sound h₀ base home P S := by
  refine ⟨h, fun hrun => ?_, fun vals hback => ?_⟩
  · rw [hc] at hrun
    cases hrun
  · rw [hc] at hback
    cases hback

theorem pop {a : Activation} {rest : List Activation} (hstack : m.stack = a :: rest)
    (world : m.world.Sound h₀ (base + clonesOf rest) (home + heldBy rest) S)
    (hrest : ∀ a ∈ rest, a.Safe P S) : m.popActivation.Steady h₀ base home P S := by
  have hpop : m.popActivation = { m with stack := rest, used := m.used - a.size } := by
    simp only [Machine.popActivation, hstack]
  rw [hpop]
  exact ⟨world, hrest⟩

theorem raise (h : m.Steady h₀ base home P S) (c : Cause) : (m.raise c).Sound h₀ base home P S :=
  ⟨⟨h.world, h.stack⟩, by simp [Machine.raise], by simp [Machine.raise]⟩

theorem giveBack {vals : List StoreVal} (h : m.Steady h₀ base home P S)
    (hvals : ∀ b ∈ foreigns vals, b ∈ S) : (m.giveBack vals).Sound h₀ base home P S := by
  refine ⟨⟨h.world, h.stack⟩, by simp [Machine.giveBack], ?_⟩
  rintro _ ⟨⟩
  exact hvals

end Steady

/-- An activation is put on the stack. -/
theorem Steady.pushActivation {a : Activation}
    (world : m.world.Sound h₀ (a.clones + (base + clonesOf m.stack))
      (a.held + (home + heldBy m.stack)) S)
    (hstack : ∀ a ∈ m.stack, a.Safe P S) (ha : a.Safe P S)
    (running : ∀ f, a = .code f → ∃ first, f.Safe S first) :
    (m.pushActivation a).Sound h₀ base home P S := by
  refine ⟨⟨world.reshape (add_left_comm ..) (le_of_eq (add_left_comm ..)), fun a' ha' => ?_⟩,
    fun _ f rest hf => ?_, fun vals hback => ?_⟩
  · rcases List.mem_cons.mp ha' with rfl | ha'
    · exact ha
    · exact hstack a' ha'
  · exact running f (List.cons.inj hf).1
  · cases hback

/-! ## Calls begin -/

theorem Steady.enter {args : List StoreVal} (h : m.Steady h₀ base home P S)
    (hfuncs : m.world.store.Backed P) (hargs : ∀ b ∈ foreigns args, b ∈ S) (func : FuncAddr)
    (caller : Option InstanceAddr) : (m.enter func args caller).Sound h₀ base home P S := by
  have hheld := h.world.holdAll fun b hb => .inr (hargs b hb)
  have houtcome := enter_outcome m func args caller
  generalize m.enter func args caller = m' at houtcome ⊢
  cases houtcome with
  | unknown | idle => exact h.giveBack (by simp)
  | full => exact h.raise _
  | @code type owner code known =>
      have hbody := hfuncs _ (Array.mem_of_getElem? known)
      have hframe : ({ owner, code, locals := (args ++ code.locals.map Val.default).toArray
                       blocks := [{ next := code.ops.size, arity := type.results.length }] }
          : CodeFrame).Safe S 0 := by
        refine ⟨by simp [CodeFrame.operands], fun i v hv _ b hb => ?_, Nat.zero_le _,
          fun _ _ => Nat.zero_le _, hbody⟩
        rw [List.getElem?_toArray] at hv
        rcases List.mem_append.mp (List.mem_of_getElem? hv) with hv | hv
        · exact hargs b (foreigns_of_mem hv hb)
        · have hb := foreigns_of_mem hv hb
          rw [foreigns_map_default] at hb
          cases hb
      refine Steady.pushActivation ?_ h.stack ⟨0, hframe.advance⟩ fun g hg => ?_
      · simpa [Activation.clones, Activation.held] using h.world
      · cases hg
        exact ⟨0, hframe⟩
  | host known =>
      have hrevealed := hheld.revealAll fun b hb => .inr (hargs b hb)
      refine Steady.pushActivation (hrevealed.reshape ?_ ?_) h.stack
        (hfuncs _ (Array.mem_of_getElem? known)) fun g hg => ?_
      · simp only [Activation.clones]
        exact congrArg (· + _) ((foreigns_append _ _).trans (by rw [foreigns_map_default, add_zero]))
      · simp [Activation.held]
      · cases hg
  | @command _ module imports _ _ _ _ made =>
      have hmade := hheld.instantiate module imports
      rw [made] at hmade
      refine Steady.pushActivation ?_ h.stack trivial fun g hg => ?_
      · simpa [Activation.clones, Activation.held] using hmade
      · cases hg
  | @refused _ module imports _ _ _ _ refused =>
      have hmade := hheld.instantiate module imports
      rw [refused] at hmade
      refine Steady.raise ?_ _
      exact ⟨hmade.unholdAll, h.stack⟩
  | @wasi _ g _ known outcome =>
      have hserved (addr : Nat) : (m.world.served g args addr).2.Sound h₀
          (base + clonesOf m.stack) (home + heldBy m.stack) S := h.world.of_le rfl rfl le_rfl
      cases outcome with
      | unattended => exact h.raise _
      | failed =>
          refine Steady.raise ?_ _
          exact ⟨hserved _, h.stack⟩
      | gave =>
          refine Steady.giveBack ?_ fun b hb => ?_
          · exact ⟨hserved _, h.stack⟩
          · obtain ⟨v, hv, hb⟩ := mem_foreigns.mp hb
            obtain ⟨t, -, rfl⟩ := List.mem_map.mp hv
            rw [foreign?_ofBits] at hb
            cases hb

end Machine

/-! ## Host functions -/

theorem HostOp.refsOf_append (ops ops' : List HostOp) :
    HostOp.refsOf (ops ++ ops') = HostOp.refsOf ops ++ HostOp.refsOf ops' := by
  induction ops with
  | nil => rfl
  | cons op ops ih => simp only [List.cons_append, HostOp.refsOf, ih, List.append_assoc]

theorem mem_refs {v : HostVal} {r : RefId} (hr : r ∈ foreigns [v]) : r ∈ v.foreign?.toList := by
  obtain ⟨u, hu, hr⟩ := mem_foreigns.mp hr
  rw [List.mem_singleton.mp hu] at hr
  exact Option.mem_toList.mpr hr

theorem Store.Backed.congr {s s' : Store} (h : s.Backed P) (hfuncs : s'.funcs = s.funcs) :
    s'.Backed P := by
  rwa [Store.Backed, hfuncs]

theorem Activation.Safe.collect {a : Activation} {live : List BoxId} (h : a.Safe P S)
    (hlive : ∀ f, a = .code f → f.boxes ⊆ live) : a.Safe P (S ∩ {b | b ∈ live}) := by
  cases a with
  | code f =>
      obtain ⟨first, hf⟩ := h
      exact ⟨f.earliest, hf.collect (hlive f rfl)⟩
  | host | command => exact h

/-- A host function is at work above `rest`: everything is counted, and what the function passes by
itself is in `P`. -/
structure HostFrame.Sound (h₀ : RefHeap) (base : Multiset RefId) (home : Multiset BoxId)
    (P : Set RefId) (S : Set BoxId) (rest : List Activation) (w : World) (h : HostFrame) :
    Prop where
  world : w.Sound h₀ (foreigns (h.args ++ h.results) + (base + clonesOf rest))
    ((Activation.host h).held + (home + heldBy rest)) S
  todo : ∀ r ∈ HostOp.refsOf h.todo, r ∈ P
  rest : ∀ a ∈ rest, a.Safe P S

/-- A value that is passed on gets a clone of its own. -/
theorem World.Sound.cloneVal {v : HostVal} (h : w.Sound h₀ O H S) (hv : ∀ r ∈ foreigns [v], r ∈ O) :
    (v.foreign?.elim w (w.clone ·)).Sound h₀ (foreigns [v] + O) H S := by
  cases hr : v.foreign? with
  | none => rwa [foreigns_of_none hr, zero_add]
  | some r =>
      rw [foreigns_of_some hr] at hv ⊢
      exact h.clone (hv r (Multiset.mem_singleton_self r))

namespace HostFrame

variable {h : HostFrame} {rest : List Activation}

theorem putResult_fst (i : Nat) (v : HostVal) (h : HostFrame) (w : World) :
    ∃ results, (h.putResult i v w).1 = { h with results } := by
  unfold putResult
  split
  · exact ⟨_, rfl⟩
  · exact ⟨h.results, rfl⟩

theorem sound_putResult {i : Nat} {v : HostVal}
    (hw : w.Sound h₀ (foreigns [v] + (foreigns (h.args ++ h.results) + O)) H S) :
    (h.putResult i v w).2.Sound h₀
      (foreigns ((h.putResult i v w).1.args ++ (h.putResult i v w).1.results) + O) H S := by
  unfold putResult
  split
  · rename_i old hold
    have hset := sum_map_modify (fun v : HostVal => foreigns [v]) (fun _ => v) hold
    rw [← List.set_eq_modify, ← foreigns_eq_sum, ← foreigns_eq_sum] at hset
    refine World.Sound.discard (hw.reshape ?_ le_rfl)
    dsimp only
    rw [foreigns_append, foreigns_append]
    calc foreigns [old] + (foreigns h.args + foreigns (h.results.set i v) + O)
        = foreigns h.args + (foreigns (h.results.set i v) + foreigns [old]) + O := by ac_rfl
      _ = foreigns [v] + (foreigns h.args + foreigns h.results + O) := by rw [hset]; ac_rfl
  · exact hw.discard

theorem sound_setResult {i : Nat} {v : HostVal}
    (hw : w.Sound h₀ (foreigns (h.args ++ h.results) + O) H S)
    (hv : ∀ r ∈ foreigns [v], r ∈ foreigns (h.args ++ h.results) + O) :
    (h.setResult i v w).2.Sound h₀
      (foreigns ((h.setResult i v w).1.args ++ (h.setResult i v w).1.results) + O) H S :=
  sound_putResult (hw.cloneVal hv)

theorem sound_close (hw : w.Sound h₀ (foreigns (h.args ++ h.results) + O) (foreigns h.held + H) S) :
    (h.close w).Sound h₀ O H S := by
  rw [foreigns_append, add_assoc] at hw
  exact hw.discardAll.discardAll.unholdAll

theorem mem_args (h : HostFrame) (k : Nat) {r : RefId} (hr : r ∈ foreigns [h.arg k]) :
    r ∈ foreigns (h.args ++ h.results) := by
  unfold arg at hr
  rw [List.getD_eq_getElem?_getD] at hr
  cases hk : h.args[k]? with
  | none => rw [hk] at hr; cases hr
  | some v =>
      rw [hk] at hr
      exact foreigns_of_mem (List.mem_append_left _ (List.mem_of_getElem? hk)) hr

namespace Sound

variable {m : Machine}

theorem withWorld {v : World} (hs : h.Sound h₀ base home P S rest w)
    (hrefs : v.shared.refs = w.shared.refs) (hboxes : v.store.boxes = w.store.boxes)
    (hslots : v.store.slots = w.store.slots) : h.Sound h₀ base home P S rest v :=
  ⟨hs.world.of_le hrefs hboxes (by rw [hslots]), hs.todo, hs.rest⟩

theorem goOn (hs : h.Sound h₀ base home P S rest w) (m : Machine) :
    (m.onHost h rest w).Sound h₀ base home P S := by
  refine ⟨⟨hs.world.reshape (add_left_comm ..) (le_of_eq (add_left_comm ..)), fun a ha => ?_⟩,
    fun _ f rest' hstack => ?_, fun vals hback => ?_⟩
  · rcases List.mem_cons.mp ha with rfl | ha
    · exact hs.todo
    · exact hs.rest a ha
  · cases hstack
  · cases hback

theorem leave {a : Activation} (hs : h.Sound h₀ base home P S rest m.world)
    (hstack : m.stack = a :: rest) : (m.leaveHost h).Steady h₀ base home P S := by
  have hheld : foreigns h.held + (home + heldBy rest) ≤
      (Activation.host h).held + (home + heldBy rest) :=
    add_le_add_left (Multiset.le_add_right _ _) _
  exact Machine.Steady.pop hstack (sound_close (hs.world.weaken hheld)) hs.rest

theorem fail {a : Activation} (hs : h.Sound h₀ base home P S rest m.world)
    (hstack : m.stack = a :: rest) (t : Trap) : (m.failHost t h).Sound h₀ base home P S :=
  (hs.leave hstack).raise _

theorem afterFailure {a : Activation} (hs : h.Sound h₀ base home P S rest m.world)
    (hstack : m.stack = a :: rest) (f : Failure) (catches : Bool) :
    (m.afterFailure f catches h rest).Sound h₀ base home P S := by
  unfold Machine.afterFailure
  split
  · have hs' : h.Sound h₀ base home P S rest (m.world.log (.caught f.message f.isTrap)) :=
      hs.withWorld rfl rfl rfl
    exact hs'.goOn m
  · exact hs.fail hstack _

theorem acceptResults {vs : List HostVal} (ts : List ValType) (hw : w.Sound h₀ O H S)
    (hvs : ∀ r ∈ foreigns vs, r ∈ O) :
    (Machine.acceptResults ts vs w).2.2.Sound h₀ O
      (foreigns (Machine.acceptResults ts vs w).2.1 + H) S := by
  induction ts generalizing vs w H with
  | nil => simpa [Machine.acceptResults] using hw
  | cons t ts ih =>
      cases vs with
      | nil => simpa [Machine.acceptResults] using hw
      | cons v vs =>
          simp only [Machine.acceptResults]
          split
          · simpa using hw
          · rw [foreigns_cons] at hvs
            have haccepted := ih (hw.accept fun r hr => hvs r (Multiset.mem_add.mpr (.inl hr)))
              fun r hr => hvs r (Multiset.mem_add.mpr (.inr hr))
            dsimp only
            rwa [foreigns_cons, add_assoc, add_left_comm]

theorem finish {a : Activation} (hs : h.Sound h₀ base home P S rest m.world)
    (hstack : m.stack = a :: rest) : ∃ S', (m.finishHost h).Sound h₀ base home P S' := by
  have haccepted := acceptResults h.type.results hs.world fun r hr => by
    rw [foreigns_append, Multiset.mem_add, Multiset.mem_add]
    exact .inl (.inr hr)
  unfold Machine.finishHost
  dsimp only
  generalize Machine.acceptResults h.type.results h.results m.world = answer at haccepted ⊢
  obtain ⟨bad, vals, w⟩ := answer
  dsimp only at haccepted ⊢
  cases bad with
  | some kinds =>
      have hs' : h.Sound h₀ base home P S rest ({ m with world := w.unholdAll vals }).world :=
        ⟨haccepted.unholdAll, hs.todo, hs.rest⟩
      exact ⟨S, hs'.fail hstack _⟩
  | none =>
      have hs' : h.Sound h₀ base home P _ rest
          ({ m with world := (w.exposeAll vals).unholdAll vals }).world :=
        ⟨(haccepted.exposeAll kept_of_held).unholdAll, hs.todo, fun a ha =>
          (hs.rest a ha).mono Set.subset_union_left⟩
      exact ⟨_, (hs'.leave hstack).giveBack fun b hb => .inr hb⟩

theorem call {a : Activation} {args : List HostVal} (hs : h.Sound h₀ base home P S rest m.world)
    (hstack : m.stack = a :: rest) (hfuncs : m.world.store.Backed P)
    (hargs : ∀ r ∈ foreigns args, r ∈ foreigns (h.args ++ h.results) + (base + clonesOf rest))
    (func : FuncAddr) (result : Option Nat) (catches : Bool) :
    ∃ S', (m.hostCall func args result catches h rest).Sound h₀ base home P S' := by
  unfold Machine.hostCall
  split
  · exact ⟨S, hs.afterFailure hstack _ _⟩
  · have haccepted := hs.world.acceptAll hargs
    have hexposed := haccepted.exposeAll kept_of_held
    refine ⟨_, Machine.Steady.enter ⟨hexposed.reshape ?_ ?_, fun a ha => ?_⟩ (hfuncs.congr ?_)
      (fun b hb => .inr hb) func none⟩
    · exact add_left_comm ..
    · simp only [heldBy_cons, Activation.held, Option.elim_some]
      refine le_of_le_of_eq (Multiset.le_add_right _ (h.pending.elim 0 fun p => foreigns p.held)) ?_
      ac_rfl
    · rcases List.mem_cons.mp ha with rfl | ha
      · exact hs.todo
      · exact (hs.rest a ha).mono Set.subset_union_left
    · exact congrArg (·.funcs) ((accounts_exposeAll _ _).trans (accounts_acceptAll args m.world))

theorem withResult {i : Nat} {v : HostVal} (hs : h.Sound h₀ base home P S rest w)
    (hv : ∀ r ∈ foreigns [v], r ∈ foreigns (h.args ++ h.results) + (base + clonesOf rest)) :
    (h.setResult i v w).1.Sound h₀ base home P S rest (h.setResult i v w).2 := by
  have hset := sound_setResult (i := i) hs.world hv
  obtain ⟨results, hresults⟩ := putResult_fst i v h (v.foreign?.elim w (w.clone ·))
  have heq : (h.setResult i v w).1 = { h with results } := hresults
  rw [heq] at hset ⊢
  exact ⟨hset, hs.todo, hs.rest⟩

/-- A value that holds no reference needs no clone. -/
theorem withPlain {i : Nat} {v : HostVal} (hs : h.Sound h₀ base home P S rest w)
    (hv : v.foreign? = none) :
    (h.putResult i v w).1.Sound h₀ base home P S rest (h.putResult i v w).2 := by
  have hset : h.putResult i v w = h.setResult i v w := by rw [setResult, hv, Option.elim_none]
  rw [hset]
  refine hs.withResult fun r hr => ?_
  rw [foreigns_of_none hv] at hr
  cases hr

/-- One operation of a host function. -/
theorem op {a : Activation} {op : HostOp} (hs : h.Sound h₀ base home P S rest m.world)
    (hstack : m.stack = a :: rest) (hfuncs : m.world.store.Backed P) (hP : ∀ r ∈ P, r ∈ base)
    (hop : ∀ r ∈ op.refs, r ∈ P) : ∃ S', (m.hostOp op h rest).Sound h₀ base home P S' := by
  have howned {r : RefId} (hr : r ∈ P) :
      r ∈ foreigns (h.args ++ h.results) + (base + clonesOf rest) :=
    Multiset.mem_add.mpr (.inr (Multiset.mem_add.mpr (.inl (hP r hr))))
  have hmoved {w : World} (hw : w.Sound h₀ (foreigns (h.args ++ h.results) + (base + clonesOf rest))
      ((Activation.host h).held + (home + heldBy rest)) S) :
      ∃ S', (m.onHost h rest w).Sound h₀ base home P S' :=
    ⟨S, HostFrame.Sound.goOn ⟨hw, hs.todo, hs.rest⟩ m⟩
  have houtcome := Machine.hostOp_outcome m h rest op
  generalize m.hostOp op h rest = m' at houtcome ⊢
  cases houtcome with
  | set i v => exact ⟨S, (hs.withResult fun r hr => howned (hop r (mem_refs hr))).goOn m⟩
  | copy i k =>
      exact ⟨S, (hs.withResult fun r hr => Multiset.mem_add.mpr (.inl (mem_args h k hr))).goOn m⟩
  | added i => exact ⟨S, (hs.withPlain rfl).goOn m⟩
  | peeked => exact ⟨S, (hs.withPlain (foreign?_ofBits _ _)).goOn m⟩
  | trapped | refused | unfueled => exact ⟨S, hs.fail hstack _⟩
  | logged => exact hmoved (hs.world.of_le rfl rfl le_rfl)
  | poked _ _ written => exact hmoved (hs.world.writeMemory written)
  | grown _ grown => exact hmoved ((hs.world.growMemory grown).of_le rfl rfl le_rfl)
  | globalSet _ set => exact hmoved (hs.world.setGlobal (fun r hr => howned (hop r (mem_refs hr))) set)
  | called =>
      refine hs.call hstack hfuncs (fun r hr => ?_) _ _ _
      obtain ⟨v, hv, hr⟩ := mem_foreigns.mp hr
      obtain ⟨x, hx, rfl⟩ := List.mem_map.mp hv
      replace hr := mem_foreigns.mpr ⟨_, List.mem_singleton_self _, hr⟩
      cases x with
      | arg k => exact Multiset.mem_add.mpr (.inl (mem_args h k hr))
      | value v => exact howned (hop r (List.mem_flatMap.mpr ⟨_, hx, mem_refs hr⟩))
  | fueled added => exact hmoved (hs.world.addFuel added)
  | collected =>
      refine ⟨_, HostFrame.Sound.goOn ⟨hs.world.collect m.liveBoxes, hs.todo, fun a' ha' => ?_⟩ m⟩
      refine (hs.rest a' ha').collect fun f hf => ?_
      rw [Machine.liveBoxes, hstack]
      exact fun b hb => List.mem_flatMap.mpr ⟨a', List.mem_cons_of_mem a ha', by rwa [hf]⟩
  | interrupted => exact hmoved (hs.world.of_le (refs_setPending _ _ _) rfl le_rfl)
  | branched k zero nonzero =>
      have hs' : ({ h with todo := (if h.arg k = .i32 0 then zero else nonzero) ++ h.todo }
          : HostFrame).Sound h₀ base home P S rest m.world := by
        refine ⟨hs.world, fun r hr => ?_, hs.rest⟩
        rw [HostOp.refsOf_append, List.mem_append] at hr
        refine hr.elim (fun hr => hop r ?_) (hs.todo r)
        rw [HostOp.refs, List.mem_append]
        split at hr
        · exact .inl hr
        · exact .inr hr
      exact ⟨S, hs'.goOn m⟩

theorem step {a : Activation} (hs : h.Sound h₀ base home P S rest m.world)
    (hstack : m.stack = a :: rest) (hfuncs : m.world.store.Backed P) (hP : ∀ r ∈ P, r ∈ base) :
    ∃ S', (m.hostStep h rest).Sound h₀ base home P S' := by
  unfold Machine.hostStep
  split
  · exact hs.finish hstack
  · rename_i op todo htodo
    have hrefs := hs.todo
    simp only [htodo, HostOp.refsOf, List.mem_append] at hrefs
    have hs' : ({ h with todo } : HostFrame).Sound h₀ base home P S rest m.world :=
      ⟨hs.world, fun r hr => hrefs r (.inr hr), hs.rest⟩
    exact hs'.op hstack hfuncs hP fun r hr => hrefs r (.inl hr)

/-- What a call brought is given up. -/
theorem giveUp {vs : List HostVal} {held : List StoreVal}
    (hs : h.Sound h₀ (foreigns vs + base) (foreigns held + home) P S rest w) :
    h.Sound h₀ base home P S rest ((w.discardAll vs).unholdAll held) := by
  refine ⟨World.Sound.unholdAll (World.Sound.discardAll (hs.world.reshape ?_ (le_of_eq ?_))),
    hs.todo, hs.rest⟩ <;> ac_rfl

/-- The boxes of the arguments of a call are held until it returns. -/
theorem called {p : PendingCall} (hs : h.Sound h₀ base home P S rest w)
    (hp : h.pending = some p) : ({ h with pending := none } : HostFrame).Sound h₀ base
      (foreigns p.held + home) P S rest w := by
  refine ⟨hs.world.weaken (le_of_eq ?_), hs.todo, hs.rest⟩
  simp only [Activation.held, hp, Option.elim_none, Option.elim_some]
  ac_rfl

theorem resume {vals : List StoreVal} {p : PendingCall}
    (hs : h.Sound h₀ base home P S rest m.world) (hp : h.pending = some p)
    (hvals : ∀ b ∈ foreigns vals, b ∈ S) : (m.hostResume vals p h rest).Sound h₀ base home P S := by
  have hpending := hs.called hp
  have hrevealed := hpending.world.revealAll fun b hb => .inr (hvals b hb)
  simp only [Machine.hostResume]
  generalize m.world.revealAll vals = answer at hrevealed ⊢
  obtain ⟨results, w⟩ := answer
  dsimp only at hrevealed ⊢
  have hs' : ({ h with pending := none } : HostFrame).Sound h₀ (foreigns results + base)
      (foreigns p.held + home) P S rest (w.log (.values results)) := by
    refine ⟨World.Sound.of_le (hrevealed.reshape ?_ le_rfl) rfl rfl le_rfl, hs.todo, hs.rest⟩
    ac_rfl
  refine HostFrame.Sound.goOn ?_ m
  split
  · rename_i i v vs
    refine (hs'.withResult fun r hr => ?_).giveUp
    simp only [Multiset.mem_add]
    rw [foreigns_cons, Multiset.mem_add]
    exact .inr (.inl (.inl (.inl hr)))
  · exact hs'.giveUp

theorem fault {a : Activation} {f : Fault} (hs : h.Sound h₀ base home P S rest m.world)
    (hstack : m.stack = a :: rest) (hc : m.control = .fault f) :
    (m.hostFault f h rest).Sound h₀ base home P S := by
  unfold Machine.hostFault
  split
  · rename_i p hp
    have hpending := hs.called hp
    have hs' : ({ h with pending := none } : HostFrame).Sound h₀ base home P S rest
        ({ m with world := m.world.unholdAll p.held }).world :=
      ⟨World.Sound.unholdAll (hpending.world.weaken (le_of_eq (by ac_rfl))), hs.todo, hs.rest⟩
    exact hs'.afterFailure hstack _ _
  · have hcontrol : (m.leaveHost h).control = .fault f := by
      simp [Machine.leaveHost, Machine.popActivation, hstack, hc]
    exact (hs.leave hstack).faulted hcontrol

end Sound

end HostFrame

/-! ## Steps -/

theorem CodeFrame.advance_pushAll (vs : List StoreVal) (f : CodeFrame) :
    (f.pushAll vs).advance = f.advance.pushAll vs := by
  have hpush (v : StoreVal) (f : CodeFrame) : (f.push v).advance = f.advance.push v := by
    unfold push
    split <;> simp_all [advance]
  unfold pushAll
  induction vs generalizing f with
  | nil => rfl
  | cons v vs ih =>
      rw [List.foldl_cons, List.foldl_cons, ih, hpush]

theorem Outcome.Tallies.funcs {o : Outcome} (h : o.Tallies w) :
    o.world.store.funcs = w.store.funcs := by
  have hmet : w.meetDeadline.2.store.funcs = w.store.funcs := by
    unfold meetDeadline
    split <;> rfl
  cases h with
  | burns hb =>
      obtain ⟨n, hn⟩ := hb.accounts
      exact congrArg (·.funcs) hn
  | renewed _ accounts => exact (congrArg (·.funcs) accounts).trans hmet
  | interrupted _ accounts => exact (congrArg (·.funcs) accounts).trans hmet

namespace Machine

variable {m m' : Machine} {rest : List Activation}

theorem Sound.hostFrame {h : HostFrame} (hm : m.Sound h₀ base home P S)
    (hstack : m.stack = .host h :: rest) : h.Sound h₀ base home P S rest m.world := by
  have hworld := hm.world
  have hsafe := hm.stack
  rw [hstack] at hworld hsafe
  refine ⟨hworld.reshape (add_left_comm ..) (le_of_eq (add_left_comm ..)),
    hsafe _ List.mem_cons_self, fun a ha => hsafe a (List.mem_cons_of_mem _ ha)⟩

theorem Sound.commandStep {c : CommandFrame} (hm : m.Sound h₀ base home P S)
    (hstack : m.stack = .command c :: rest) (hfuncs : m.world.store.Backed P) :
    (m.commandStep c rest).Sound h₀ base home P S := by
  have hworld := hm.world
  have hsafe := hm.stack
  rw [hstack] at hworld hsafe
  have hstarting : Steady h₀ base home P S
      { m with stack := .command { c with stage := .starting } :: rest } :=
    ⟨hworld, fun a ha => (List.mem_cons.mp ha).elim (fun ha => ha ▸ trivial) fun ha =>
      hsafe a (List.mem_cons_of_mem _ ha)⟩
  unfold Machine.commandStep
  dsimp only
  split
  · exact hstarting.enter hfuncs (by simp) _ _
  · exact hstarting.giveBack (by simp)

theorem Sound.commandResume {c : CommandFrame} {vals : List StoreVal}
    (hm : m.Sound h₀ base home P S) (hstack : m.stack = .command c :: rest)
    (hc : m.control = .back vals) (hfuncs : m.world.store.Backed P) :
    ∃ S', (m.commandResume vals c rest).Sound h₀ base home P S' := by
  have hworld := hm.world
  have hsafe := hm.stack
  have hvals := hm.back vals hc
  rw [hstack] at hworld hsafe
  have hrest : ∀ a ∈ rest, a.Safe P S := fun a ha => hsafe a (List.mem_cons_of_mem _ ha)
  have howners : base + clonesOf rest = base + clonesOf (.command c :: rest) := by
    simp [Activation.clones]
  have hheld : foreigns c.held + (home + heldBy rest) = home + heldBy (.command c :: rest) := by
    simp only [heldBy_cons, Activation.held]
    ac_rfl
  replace hworld := hworld.reshape howners (le_of_eq hheld)
  unfold Machine.commandResume
  split
  · have hexposed := (hworld.exposeAll fun b hb => .inr (hvals b hb)).unholdAll
    have hpopped : Steady h₀ base home P (S ∪ {b | b ∈ foreigns vals})
        ({ m with world := (m.world.exposeAll vals).unholdAll c.held }).popActivation :=
      .pop hstack hexposed fun a ha => (hrest a ha).mono Set.subset_union_left
    exact ⟨_, hpopped.giveBack fun b hb => .inr hb⟩
  · dsimp only
    have hcalling {w : World} {S' : Set BoxId} (hS : S ⊆ S')
        (hw : w.Sound h₀ (base + clonesOf rest) (foreigns c.held + (home + heldBy rest)) S') :
        Steady h₀ base home P S'
          { m with world := w, stack := .command { c with stage := .calling } :: rest } := by
      refine ⟨hw.reshape howners.symm (le_of_eq hheld.symm), fun a ha => ?_⟩
      rcases List.mem_cons.mp ha with rfl | ha
      · exact trivial
      · exact (hrest a ha).mono hS
    split
    · refine ⟨_, (hcalling Set.subset_union_left (hworld.exposeAll kept_of_held)).enter
        (hfuncs.congr ?_) (fun b hb => .inr hb) _ none⟩
      exact congrArg (·.funcs) (accounts_exposeAll c.held m.world)
    · exact ⟨S, (hcalling subset_rfl hworld).giveBack (by simp)⟩

/-- A step of running code keeps everything counted. -/
theorem Sound.codeStep {f : CodeFrame} {w : World} {used : Nat}
    (hm : Sound h₀ base home P S ⟨w, .code f :: rest, .run, used⟩) (hfuncs : w.store.Backed P)
    (hs : step ⟨w, .code f :: rest, .run, used⟩ = .inl m') :
    ∃ S', m'.Sound h₀ base home P S' := by
  obtain ⟨first, hf⟩ := hm.running rfl f rest rfl
  have hrest : ∀ a ∈ rest, a.Safe P S := fun a ha => hm.stack a (List.mem_cons_of_mem _ ha)
  have hstep := keeps_frameStep hm.world hf
  have hsteady {g : CodeFrame} {v : World} {S' : Set BoxId} (hS : S ⊆ S')
      (hv : v.Sound h₀ (base + clonesOf (.code f :: rest)) (home + heldBy (.code f :: rest)) S')
      (hg : g.Safe S' first) : Steady h₀ base home P S' ⟨v, .code g :: rest, .run, used⟩ := by
    refine ⟨hv, fun a ha => ?_⟩
    rcases List.mem_cons.mp ha with rfl | ha
    · exact ⟨first, hg.advance⟩
    · exact (hrest a ha).mono hS
  have hfuncs' := hfuncs.congr (tallies_frameStep f w).funcs
  simp only [step] at hs
  split at hs <;> rename_i ho <;> rw [ho] at hstep hfuncs' <;> cases hs
  · cases hstep with
    | next hS hw hg =>
        exact ⟨_, hsteady hS hw hg, fun _ _ _ h => by cases h; exact ⟨first, hg⟩, by simp⟩
  · cases hstep with
    | trap hS hw hg => exact ⟨_, (hsteady hS hw hg).raise _⟩
  · cases hstep with
    | call hS hw hg hargs => exact ⟨_, (hsteady hS hw hg).enter hfuncs' hargs _ _⟩
  · cases hstep with
    | exit hS hw hvals =>
        have hleft : Steady h₀ base home P _
            ⟨_, rest, .run, used - Activation.codeSize⟩ :=
          ⟨hw.reshape (by simp [Activation.clones]) (by simp [Activation.held]),
            fun a ha => (hrest a ha).mono hS⟩
        exact ⟨_, hleft.giveBack hvals⟩

/-- A step keeps everything counted. -/
theorem Sound.step (hm : m.Sound h₀ base home P S) (hfuncs : m.world.store.Backed P)
    (hP : ∀ r ∈ P, r ∈ base) (hs : m.step = .inl m') : ∃ S', m'.Sound h₀ base home P S' := by
  have hrest {a : Activation} {rest : List Activation} (hstack : m.stack = a :: rest) :
      ∀ a ∈ rest, a.Safe P S := fun b hb => hm.stack b (hstack ▸ List.mem_cons_of_mem a hb)
  cases step_sound hs with
  | next | trap | call | exit => exact hm.codeStep hfuncs hs
  | @resume w f rest _ vals =>
      obtain ⟨first, hf⟩ := hm.stack _ List.mem_cons_self
      have hg := hf.pushAll (hm.back vals rfl)
      rw [← CodeFrame.advance_pushAll] at hg
      refine ⟨S, ⟨hm.world, fun a ha => ?_⟩, fun _ _ _ h => ?_, by simp⟩
      · rcases List.mem_cons.mp ha with rfl | ha
        · exact ⟨first, hg.advance⟩
        · exact hrest rfl a ha
      · cases h
        exact ⟨first, hg⟩
  | @unwind w f rest =>
      have hworld : w.Sound h₀ (base + clonesOf rest) (home + heldBy rest) S :=
        hm.world.reshape (by simp [Activation.clones]) (by simp [Activation.held])
      exact ⟨S, (Steady.pop rfl hworld (hrest rfl)).faulted rfl⟩
  | hostRun => exact (hm.hostFrame rfl).step rfl hfuncs hP
  | hostBack pending => exact ⟨S, (hm.hostFrame rfl).resume pending (hm.back _ rfl)⟩
  | hostLeft => exact ⟨S, ⟨hm.world, hm.stack⟩, fun _ _ _ h => (by cases h), by simp⟩
  | hostFault => exact ⟨S, (hm.hostFrame rfl).fault rfl rfl⟩
  | commandRun => exact ⟨S, hm.commandStep rfl hfuncs⟩
  | commandBack => exact hm.commandResume rfl rfl hfuncs
  | @commandFault w c rest =>
      have hheld : foreigns c.held + (home + heldBy rest) =
          home + heldBy (.command c :: rest) := by
        simp only [heldBy_cons, Activation.held]
        ac_rfl
      have hworld : (w.unholdAll c.held).Sound h₀ (base + clonesOf rest) (home + heldBy rest) S :=
        .unholdAll (hm.world.reshape (by simp [Activation.clones]) (le_of_eq hheld))
      exact ⟨S, (Steady.pop rfl hworld (hrest rfl)).faulted rfl⟩

end Machine

end WasmHost

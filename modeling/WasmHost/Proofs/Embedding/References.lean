import WasmHost.Proofs.Embedding.Fuel
import WasmHost.Proofs.Embedding.Holdings

/-!
# Finalizers run once, and not too early

The clones of a foreign reference belong to the handles of the embedder, to the bodies of host
functions in use, to the values of host functions at work, and to the boxes of stores. In every run
of an embedding each clone has just one such owner, so that a thing is finalized when the last of
them is gone: not before, not twice, and not too late.
-/

namespace WasmHost

open Val World

variable {h₀ : RefHeap} {S : Set BoxId}

theorem sum_map_middle {α M : Type} [AddCommMonoid M] (f : α → M) (before after : List α) (a : α) :
    ((before ++ a :: after).map f).sum = f a + ((before ++ after).map f).sum := by
  simp only [List.map_append, List.map_cons, List.sum_append, List.sum_cons]
  ac_rfl

/-! ## A store in its embedding -/

namespace Site

/-- The call that is under way, if there is one. -/
def call (s : Site) : Task := s.task.getD .nothing

/-- The clones that host functions at work and live boxes have. -/
def kept (s : Site) : Multiset RefId := clonesOf s.call.stack + s.store.boxed

/-- Each box is held as often as something holds it, and what running code can still use is in `S`,
which code has seen. -/
structure Sound (S : Set BoxId) (s : Site) : Prop where
  held : ∀ b, (s.store.slots + (foreigns s.call.held + heldBy s.call.stack)).count b ≤
    s.store.holds b
  seen : S ⊆ s.store.seen
  stack : ∀ a ∈ s.call.stack, a.Safe s.store.passes S
  running : s.call.control = .run → ∀ f rest, s.call.stack = .code f :: rest →
    ∃ first, f.Safe S first
  back : ∀ vals, s.call.control = .back vals → ∀ b ∈ foreigns vals, b ∈ S

variable {s : Site}

theorem Sound.machine {base : Multiset RefId} {sh : Shared} (h : s.Sound S)
    (hrefs : h₀.Accounted (base + s.kept) sh.refs) :
    (s.call.machine ⟨s.store, sh⟩).Sound h₀ base (foreigns s.call.held) s.store.passes S := by
  rw [kept, ← add_assoc] at hrefs
  exact ⟨⟨⟨hrefs, h.held, h.seen⟩, h.stack⟩, h.running, h.back⟩

theorem Sound.of_machine {base : Multiset RefId} {w : World} {t : Option Task}
    (h : ((t.getD .nothing).machine w).Sound h₀ base (foreigns (t.getD .nothing).held)
      w.store.passes S) : (⟨w.store, t⟩ : Site).Sound S :=
  ⟨h.world.held, h.world.seen, h.stack, h.running, h.back⟩

theorem Sound.hires {sh : Shared} {w : World} (h : s.Sound S)
    (hw : World.Hires ⟨s.store, sh⟩ w) :
    ({ s with store := w.store } : Site).Sound S ∧
      ({ s with store := w.store } : Site).kept = s.kept := by
  obtain ⟨⟨fs, ids, hstore⟩, -⟩ := hw
  dsimp only at hstore
  have hpasses : s.store.passes ⊆ w.store.passes := Store.passes_append (by rw [hstore])
  refine ⟨⟨?_, ?_, fun a ha => ?_, h.running, h.back⟩, ?_⟩
  · rw [hstore]
    exact h.held
  · rw [hstore]
    exact h.seen
  · have hsafe := h.stack a ha
    cases a with
    | host f => exact fun r hr => hpasses (hsafe r hr)
    | code | command => exact hsafe
  · rw [kept, kept, hstore]
    rfl

end Site

/-! ## Embeddings -/

namespace Embedding

/-- The clones that belong to stores and what runs in them. -/
def kept (e : Embedding) : Multiset RefId := (e.sites.map Site.kept).sum

/-- The users of the bodies of host functions. -/
def users (e : Embedding) : Multiset ClosureId :=
  (e.linkers.map fun l => (l.closures : Multiset ClosureId)).sum +
    (e.sites.map fun s => (s.store.closures : Multiset ClosureId)).sum

/-- Each clone has its owner, and each body its users. The heap was once `h₀`. -/
structure Sound (h₀ : RefHeap) (e : Embedding) : Prop where
  shared : e.shared.Accounted h₀ e.users (e.handles + e.kept)
  linkers : ∀ l ∈ e.linkers, l.Founded e.shared
  stores : ∀ s ∈ e.sites, s.store.Founded e.shared
  sites : ∀ s ∈ e.sites, ∃ S, s.Sound S

variable {e e' : Embedding} {events log : List Event}

theorem coe_clones (s : Site) : (s.clones : Multiset RefId) = clonesOf s.call.stack := by
  obtain ⟨store, task⟩ := s
  cases task with
  | none => rfl
  | some t =>
      simp only [Site.clones, Site.call, Option.elim_some, Option.getD_some, clonesOf]
      induction t.stack with
      | nil => rfl
      | cons a as ih =>
          rw [List.flatMap_cons, ← Multiset.coe_add, ih]
          rfl

theorem mem_of_owned_at {r : RefId} {before after : List Site} {s : Site} (h : r ∈ e.owned)
    (hsites : e.sites = before ++ s :: after) :
    r ∈ (e.shared.captured : Multiset RefId) +
      (e.handles + ((before ++ after).map Site.kept).sum) + clonesOf s.call.stack := by
  have hother {t : Site} (ht : t ∈ before ++ after) (hr : r ∈ t.clones) :
      r ∈ ((before ++ after).map Site.kept).sum := by
    obtain ⟨lefts, rights, hrest⟩ := List.append_of_mem ht
    rw [hrest, sum_map_middle, Site.kept, ← coe_clones]
    simp [hr]
  simp only [owned, hsites, List.mem_append, List.mem_flatMap, List.mem_cons] at h
  simp only [Multiset.mem_add, Multiset.mem_coe, ← coe_clones]
  rcases h with (h | ⟨t, ht, hr⟩) | h
  · exact .inl (.inr (.inl h))
  · rcases ht with ht | rfl | ht
    · exact .inl (.inr (.inr (hother (List.mem_append_left _ ht) hr)))
    · exact .inr hr
    · exact .inl (.inr (.inr (hother (List.mem_append_right _ ht) hr)))
  · exact .inl (.inl h)

theorem mem_of_owned {r : RefId} (h : r ∈ e.owned) :
    r ∈ (e.shared.captured : Multiset RefId) + (e.handles + e.kept) := by
  simp only [owned, List.mem_append, List.mem_flatMap] at h
  simp only [Multiset.mem_add, Multiset.mem_coe]
  rcases h with (h | ⟨s, hs, h⟩) | h
  · exact .inr (.inl h)
  · obtain ⟨before, after, hsites⟩ := List.append_of_mem hs
    rw [kept, hsites, sum_map_middle, Site.kept, ← coe_clones]
    simp [h]
  · exact .inl h

namespace Sound

/-- Handles come and go, and nothing else changes. -/
theorem withHandles {sh : Shared} {handles : List RefId} (h : e.Sound h₀)
    (hs : sh.closures = e.shared.closures)
    (hrefs : h₀.Accounted (e.shared.captured + (handles + e.kept)) sh.refs) :
    ({ e with shared := sh, handles } : Embedding).Sound h₀ := by
  have hkept : e.shared.Keeps sh := .of_closures hs
  refine ⟨⟨?_, ?_⟩, fun l hl => (h.linkers l hl).keeps hkept, fun s hsite => ?_, h.sites⟩
  · rw [Shared.captured, hs]
    exact hrefs
  · intro id
    rw [Shared.users, hs]
    exact h.shared.users id
  · exact (h.stores s hsite).keeps hkept

/-- A store changes, and a linker perhaps; the others stay as they are. -/
theorem withSite {before after : List Site} {s s' : Site} {sh : Shared} {linkers : List Linker}
    {handles : List RefId} (h : e.Sound h₀) (hsites : e.sites = before ++ s :: after)
    (hkept : e.shared.Keeps sh)
    (hshared : sh.Accounted h₀
      ((linkers.map fun l => (l.closures : Multiset ClosureId)).sum + (s'.store.closures +
        ((before ++ after).map fun s => (s.store.closures : Multiset ClosureId)).sum))
      (handles + (s'.kept + ((before ++ after).map Site.kept).sum)))
    (hlinkers : ∀ l ∈ linkers, l.Founded sh) (hstore : s'.store.Founded sh)
    (hsite : ∃ S, s'.Sound S) :
    ({ e with shared := sh, sites := before ++ s' :: after, linkers, handles } : Embedding).Sound
      h₀ := by
  have hother {t : Site} (ht : t ∈ before ++ s' :: after) : t = s' ∨ t ∈ e.sites := by
    rw [hsites]
    simp only [List.mem_append, List.mem_cons] at ht ⊢
    tauto
  refine ⟨?_, hlinkers, fun t ht => ?_, fun t ht => ?_⟩
  · refine hshared.reshape ?_ ?_
    · simp only [users, sum_map_middle]
    · simp only [kept, sum_map_middle]
  · rcases hother ht with rfl | ht
    · exact hstore
    · exact (h.stores t ht).keeps hkept
  · rcases hother ht with rfl | ht
    · exact hsite
    · exact h.sites t ht

/-- Users of bodies go away. -/
theorem withoutUsers {sites : List Site} {linkers : List Linker} {sh : Shared}
    (h : e.Sound h₀) (hsites : sites ⊆ e.sites) (hlinkers : linkers ⊆ e.linkers)
    (hkept : e.shared.Keeps sh)
    (hshared : sh.Accounted h₀ ({ e with sites, linkers } : Embedding).users
      (e.handles + ({ e with sites } : Embedding).kept)) :
    ({ e with shared := sh, sites, linkers } : Embedding).Sound h₀ := by
  refine ⟨hshared, fun l hl => (h.linkers l (hlinkers hl)).keeps hkept, fun s hs => ?_,
    fun s hs => h.sites s (hsites hs)⟩
  exact (h.stores s (hsites hs)).keeps hkept

/-- The boxes of a store that goes away are given up. -/
theorem released {before after : List Site} {s : Store} (h : e.Sound h₀)
    (hsites : e.sites = before ++ { store := s } :: after) :
    ({ e.shared with
      refs := e.shared.refs.releaseAll ((s.boxes.toList.filter Box.isLive).map (·.ref)) } :
        Shared).Accounted h₀ (s.closures + ({ e with sites := before ++ after } : Embedding).users)
      (e.handles + ({ e with sites := before ++ after } : Embedding).kept) := by
  refine ⟨RefHeap.Accounted.releaseAll ?_, fun id => ?_⟩
  · have hrefs := h.shared.refs
    have hboxed : (((s.boxes.toList.filter Box.isLive).map (·.ref) : List RefId) :
        Multiset RefId) = ({ store := s } : Site).kept := by
      rw [coe_map_filter, Site.kept, Store.boxed]
      exact (zero_add _).symm
    rw [hboxed]
    rw [kept, hsites, sum_map_middle] at hrefs
    refine hrefs.reshape ?_
    rw [kept, Shared.captured, Shared.captured]
    ac_rfl
  · have hid := h.shared.users id
    rw [users, hsites, sum_map_middle, add_left_comm] at hid
    exact hid

/-- What happens in one store. -/
theorem act {before after : List Site} {s : Site} {gained : List RefId} {w : World}
    {task : Option Task} (h : e.Sound h₀) (hsites : e.sites = before ++ s :: after)
    (act : World.Act (· ∈ e.owned) ⟨s.store, e.shared⟩ s.task events gained w task) :
    ({ e with
      shared := w.shared, sites := before ++ ⟨w.store, task⟩ :: after
      handles := gained ++ e.handles } : Embedding).Sound h₀ := by
  have hmem : s ∈ e.sites := by simp [hsites]
  obtain ⟨S, hS⟩ := h.sites s hmem
  have hrefs := h.shared.refs
  rw [kept, hsites, sum_map_middle] at hrefs
  have hfounded := h.stores s hmem
  have husers := h.shared.users
  rw [users, hsites, sum_map_middle, add_left_comm] at husers
  have husedBy : ∀ id ∈ s.store.closures, e.shared.users id ≠ 0 := fun id hid => by
    rw [husers]
    exact Multiset.count_ne_zero.mpr (Multiset.mem_add.mpr (.inl hid))
  have hm : (s.call.machine ⟨s.store, e.shared⟩).Sound h₀
      (e.shared.captured + (e.handles + ((before ++ after).map Site.kept).sum))
      (foreigns s.call.held) s.store.passes S := hS.machine (hrefs.reshape (by ac_rfl))
  obtain ⟨S', hS'⟩ := act.sound hm (fun r hr => mem_of_owned_at hr hsites) hfounded
    (hfounded.captured husedBy)
  refine h.withSite hsites act.staffs.keeps ⟨?_, fun id => ?_⟩
    (fun l hl => (h.linkers l hl).keeps act.staffs.keeps) (act.staffs.founded hfounded)
    ⟨S', .of_machine hS'⟩
  · refine hS'.world.refs.reshape ?_
    rw [← Multiset.coe_add]
    simp only [Site.kept, Site.call, Task.machine]
    ac_rfl
  · rw [act.staffs.users husers id, add_left_comm]

/-- A linker and a store can be at work with each other. -/
theorem linkerSound {before after : List Site} {s : Site} {lefts rights : List Linker} {l : Linker}
    (h : e.Sound h₀) (hsites : e.sites = before ++ s :: after)
    (hlinkers : e.linkers = lefts ++ l :: rights) :
    l.Sound h₀ (((lefts ++ rights).map fun l => (l.closures : Multiset ClosureId)).sum +
        ((before ++ after).map fun s => (s.store.closures : Multiset ClosureId)).sum)
      (e.handles + e.kept) ⟨s.store, e.shared⟩ ⟨s.store, e.shared⟩ := by
  refine ⟨h.shared.reshape ?_ rfl, h.linkers l (by simp [hlinkers]), h.stores s (by simp [hsites]),
    .of_store rfl (.refl _)⟩
  rw [users, hsites, hlinkers, sum_map_middle, sum_map_middle]
  ac_rfl

theorem withLinker {before after : List Site} {s : Site} {lefts rights : List Linker}
    {l l' : Linker} {w : World} (h : e.Sound h₀) (hsites : e.sites = before ++ s :: after)
    (hl : l'.Sound h₀ (((lefts ++ rights).map fun l => (l.closures : Multiset ClosureId)).sum +
        ((before ++ after).map fun s => (s.store.closures : Multiset ClosureId)).sum)
      (e.handles + e.kept) ⟨s.store, e.shared⟩ w)
    (hlinkers : e.linkers = lefts ++ l :: rights) :
    ({ e with
      shared := w.shared, sites := before ++ { s with store := w.store } :: after
      linkers := lefts ++ l' :: rights } : Embedding).Sound h₀ := by
  obtain ⟨S, hS⟩ := h.sites s (by simp [hsites])
  obtain ⟨hsound, hsame⟩ := hS.hires hl.hires
  refine h.withSite hsites hl.hires.bodies (hl.shared.reshape ?_ ?_) (fun k hk => ?_) hl.store
    ⟨S, hsound⟩
  · rw [sum_map_middle]
    exact (add_assoc _ _ _).trans (congrArg _ (add_left_comm _ _ _))
  · rw [hsame, kept, hsites, sum_map_middle]
  · rcases List.mem_append.mp hk with hk | hk
    · exact (h.linkers k (by simp [hlinkers, hk])).keeps hl.hires.bodies
    · rcases List.mem_cons.mp hk with rfl | hk
      · exact hl.linker
      · exact (h.linkers k (by simp [hlinkers, hk])).keeps hl.hires.bodies

theorem newStore (h : e.Sound h₀) (engine : Engine) :
    ({ e with
      shared := (World.create engine e.shared).shared
      sites := e.sites ++ [{ store := (World.create engine e.shared).store }] } :
        Embedding).Sound h₀ := by
  have hnew : ({ store := (World.create engine e.shared).store } : Site).Sound ∅ := by
    refine ⟨by simp [Site.call, Task.nothing, World.create, Store.slots, Store.globalSlots,
      Store.tableSlots], Set.empty_subset _, ?_, ?_, ?_⟩
    · exact fun a ha => by cases ha
    · rintro - f rest ⟨⟩
    · rintro vals ⟨⟩
  have hkept : e.shared.Keeps (World.create engine e.shared).shared := .of_closures rfl
  have hshared : (World.create engine e.shared).shared.Accounted h₀ e.users
      (e.handles + e.kept) := h.shared.of_closures rfl rfl
  refine ⟨hshared.reshape ?_ ?_, fun l hl => (h.linkers l hl).keeps hkept, fun s hs => ?_,
    fun s hs => ?_⟩
  · simp [users, World.create]
  · simp [kept, Site.kept, Site.call, Task.nothing, World.create, Store.boxed]
  · rcases List.mem_append.mp hs with hs | hs
    · exact (h.stores s hs).keeps hkept
    · rw [List.mem_singleton.mp hs]
      exact fun f hf => by simp [World.create] at hf
  · rcases List.mem_append.mp hs with hs | hs
    · exact h.sites s hs
    · exact ⟨∅, List.mem_singleton.mp hs ▸ hnew⟩

theorem dropStore {before after : List Site} {s : Store} (h : e.Sound h₀)
    (hsites : e.sites = before ++ { store := s } :: after) :
    ({ e with
      shared := ({ store := s, shared := e.shared } : World).dropStore
      sites := before ++ after } : Embedding).Sound h₀ := by
  have hshared := h.released hsites
  refine h.withoutUsers ?_ (List.Subset.refl _) ?_
    (Shared.Accounted.of_closures hshared.leaveClosures rfl rfl)
  · rw [hsites]
    exact ((List.sublist_cons_self _ _).append_left _).subset
  · have hkept : e.shared.Keeps { e.shared with
        refs := e.shared.refs.releaseAll ((s.boxes.toList.filter Box.isLive).map (·.ref)) } :=
      .of_closures rfl
    exact (hkept.trans (Shared.keeps_leaveClosures s.closures _)).trans (.of_closures rfl)

theorem dropLinker {before after : List Linker} {l : Linker} (h : e.Sound h₀)
    (hlinkers : e.linkers = before ++ l :: after) :
    ({ e with
      shared := e.shared.leaveClosures l.closures
      linkers := before ++ after } : Embedding).Sound h₀ := by
  have husers : e.users =
      l.closures + ({ e with linkers := before ++ after } : Embedding).users := by
    rw [users, users, hlinkers, sum_map_middle, add_assoc]
  have hshared := h.shared
  rw [husers] at hshared
  refine h.withoutUsers (List.Subset.refl _) ?_ (Shared.keeps_leaveClosures l.closures _)
    hshared.leaveClosures
  rw [hlinkers]
  exact ((List.sublist_cons_self _ _).append_left _).subset

theorem step (h : e.Sound h₀) (step : e.Step events e') : e'.Sound h₀ := by
  cases step with
  | newRef payload =>
      refine h.withHandles rfl ?_
      have hnew := h.shared.refs.new payload
      rwa [← Multiset.cons_coe, Multiset.cons_add, Multiset.add_cons]
  | @cloneRef r known =>
      refine h.withHandles rfl ?_
      have hcloned := h.shared.refs.clone (mem_of_owned known)
      rwa [← Multiset.cons_coe, Multiset.cons_add, Multiset.add_cons]
  | @dropRef before after r held =>
      refine h.withHandles rfl ?_
      have hrefs := h.shared.refs
      have hhandles : (e.handles : Multiset RefId) = r ::ₘ (before ++ after : List RefId) := by
        rw [held, Multiset.cons_coe, Multiset.coe_eq_coe]
        exact List.perm_middle
      rw [hhandles, Multiset.cons_add, Multiset.add_cons] at hrefs
      exact hrefs.release
  | newStore engine => exact h.newStore engine
  | dropStore sites => exact h.dropStore sites
  | act sites act => exact h.act sites act
  | request signal =>
      have hrefs : (e.shared.setPending signal true).refs = e.shared.refs := refs_setPending _ _ _
      have hclosures : (e.shared.setPending signal true).closures = e.shared.closures := by
        unfold Shared.setPending
        split <;> rfl
      exact h.withHandles hclosures (hrefs ▸ h.shared.refs)
  | changeFiles files => exact h.withHandles rfl h.shared.refs
  | newLinker =>
      refine ⟨h.shared.reshape (by simp [users, Linker.closures]) rfl, fun l hl => ?_, h.stores,
        h.sites⟩
      rcases List.mem_append.mp hl with hl | hl
      · exact h.linkers l hl
      · rw [List.mem_singleton.mp hl]
        exact ⟨List.nodup_nil, fun e he => by cases he⟩
  | dropLinker linkers => exact h.dropLinker linkers
  | @link before after s lefts rights l l' c r w sites linkers _ plain refs done =>
      have hl := h.linkerSound sites linkers
      exact h.withLinker sites (LinkerCall.sound_run done hl plain fun r hr =>
        mem_of_owned (refs r hr)) linkers
  | @resolve before after s l n d sites _ known found =>
      obtain ⟨lefts, rights, linkers⟩ := List.append_of_mem known
      obtain ⟨ds, ds', hdefs, -⟩ := List.lookup_eq_some_iff.mp found
      have hl := (h.linkerSound sites linkers).toItem (n := n) (d := d) (by simp [hdefs])
      have hresolved := h.withLinker sites hl linkers
      rwa [← linkers] at hresolved

theorem run (h : Run log e) : ∃ h₀, e.Sound h₀ := by
  induction h with
  | start files =>
      refine ⟨{}, ⟨⟨.refl _, fun r => ?_, ?_⟩, fun id => ?_⟩, fun l hl => ?_, fun s hs => ?_,
        fun s hs => ?_⟩
      · simp [RefHeap.count, Shared.captured, kept]
      · simp [RefHeap.gone]
      · simp [Shared.users, users]
      · cases hl
      · cases hs
      · cases hs
  | step _ step ih =>
      obtain ⟨h₀, h⟩ := ih
      exact ⟨h₀, h.step step⟩

end Sound

end Embedding

/-! ## What is held -/

/-- A store was handed the reference: it has a box for it, live or not. -/
def Store.Received (s : Store) (r : RefId) : Prop := ∃ x ∈ s.boxes, x.ref = r

theorem Store.received_of_boxed {s : Store} {r : RefId} (h : r ∈ s.boxed) : s.Received r := by
  obtain ⟨x, hx, hr⟩ := exists_of_mem_sum_map h
  refine ⟨x, Array.mem_toList_iff.mp hx, ?_⟩
  split at hr
  · exact (Multiset.mem_singleton.mp hr).symm
  · cases hr

/-- Something in the store, or in the call that is under way in it, holds the box. -/
inductive Site.Holds (s : Site) (b : BoxId) : Prop
  | global {g : Global} (known : g ∈ s.store.globals) (value : g.value.foreign? = some b)
  | element {t : Table} {v : StoreVal} (known : t ∈ s.store.tables) (elem : v ∈ t.elems)
      (value : v.foreign? = some b)
  /-- An argument of a call from outside. -/
  | argument {v : StoreVal} (arg : v ∈ s.call.held) (value : v.foreign? = some b)
  /-- An argument of a host function or command at work, or of a call that a host function made. -/
  | active {a : Activation} (active : a ∈ s.call.stack) (held : b ∈ a.held)
  /-- A result on its way to the caller. -/
  | result {vals : List StoreVal} {v : StoreVal} (back : s.call.control = .back vals)
      (mem : v ∈ vals) (value : v.foreign? = some b)
  /-- An operand of a frame of code, or a local that code behind the instruction at hand reads. -/
  | code {f : CodeFrame} (active : .code f ∈ s.call.stack) (needed : b ∈ f.boxes)
  /-- The local that the instruction at hand reads. -/
  | reading {f : CodeFrame} {rest : List Activation} {i : Nat} {v : StoreVal}
      (running : s.call.control = .run) (top : s.call.stack = .code f :: rest)
      (op : f.code.ops[f.pc]? = some (.localGet i)) (known : f.locals[i]? = some v)
      (value : v.foreign? = some b)

/-- Something that is alive holds the reference: the embedder, the body of a host function that is
in use, a host function at work, or a box that something in its store holds. -/
inductive Embedding.Holds (e : Embedding) (r : RefId) : Prop
  | handle (handle : r ∈ e.handles)
  | body (captured : r ∈ e.shared.captured)
  | host {s : Site} (known : s ∈ e.sites) (clone : r ∈ s.clones)
  | box {s : Site} {b : BoxId} {x : Box} (known : s ∈ e.sites) (holds : s.Holds b)
      (box : s.store.boxes[b]? = some x) (ref : x.ref = r)

namespace Site.Sound

variable {s : Site} {sh : Shared}

end Site.Sound

namespace Embedding

variable {e : Embedding} {log : List Event}

namespace Sound

/-- What nobody has a clone of, and no store a live box for, is gone. -/
theorem count_of_unboxed (h : e.Sound h₀) {r : RefId} (howned : r ∉ e.owned)
    (hboxed : ∀ s ∈ e.sites, r ∉ s.store.boxed) : e.shared.refs.count r = 0 := by
  rw [h.shared.refs.counts, Multiset.count_eq_zero]
  simp only [owned, List.mem_append, List.mem_flatMap, not_or] at howned
  simp only [Multiset.mem_add, Multiset.mem_coe, not_or]
  refine ⟨howned.2, howned.1.1, fun hr => ?_⟩
  obtain ⟨s, hs, hr⟩ := exists_of_mem_sum_map hr
  rw [Site.kept, Multiset.mem_add, ← coe_clones] at hr
  rcases hr with hr | hr
  · exact howned.1.2 ⟨s, hs, hr⟩
  · exact hboxed s hs hr

theorem rebase (h : e.Sound h₀) : e.Sound e.shared.refs :=
  ⟨⟨⟨.refl _, h.shared.refs.counts, h.shared.refs.logged⟩, h.shared.users⟩, h.linkers, h.stores,
    h.sites⟩

end Sound

/-- A store whose only global holds a reference, with one clone more for each handle. -/
def withGlobal (handles : Nat) : World :=
  { store :=
      { engine := plainEngine false false, signal := 0, deadline := 1
        globals := #[⟨⟨.externref, true⟩, .externref (some 0)⟩], boxes := #[⟨0, 1, false⟩] }
    shared :=
      { refs := { things := #[⟨"x", handles + 1⟩] }, signals := #[{ engine := 0 }]
        files := ⟨[], #[]⟩ } }

end Embedding

/-! ## A reference in a local that is not read again -/

/-- The binary of a module with a function that moves the value of an imported global into a local
and then calls an imported function. -/
def moverBinary : Wasm.Bytes :=
  [0x00, 0x61, 0x73, 0x6d, 0x01, 0x00, 0x00, 0x00, 0x01, 0x04, 0x01, 0x60, 0x00, 0x00, 0x02, 0x0c,
    0x02, 0x00, 0x01, 0x67, 0x00, 0x00, 0x00, 0x01, 0x78, 0x03, 0x6f, 0x01, 0x03, 0x02, 0x01, 0x00,
    0x07, 0x05, 0x01, 0x01, 0x66, 0x00, 0x01, 0x0a, 0x10, 0x01, 0x0e, 0x01, 0x01, 0x6f, 0x23, 0x00,
    0x21, 0x00, 0xd0, 0x6f, 0x24, 0x00, 0x10, 0x00, 0x0b]

/-- The body of the function. -/
def moverBody : Wasm.Code :=
  ⟨[(1, .externref)],
    [.globalGet 0, .localSet 0, .refNull .externref, .globalSet 0, .call 0, .done]⟩

/-- The module. -/
def mover : CompiledModule :=
  { compatibility := ({} : EngineOptions).compatibility, binary := moverBinary
    module :=
      { types := [⟨[], []⟩], funcs := [0], codes := [moverBody], exports := [⟨"f", .func, 1⟩]
        imports := [⟨"", "g", .func 0⟩, ⟨"", "x", .global ⟨.externref, true⟩⟩] }
    codes := #[.make 1 ⟨[], []⟩ moverBody ⟨43, 44, #[46, 48, 50, 52, 54, 56]⟩] }

namespace Machine

/-- The machine after some steps, if it does not end before. -/
def after : Nat → Machine → Option Machine
  | 0, m => some m
  | k + 1, m =>
    match m.step with
    | .inl m => after k m
    | .inr _ => none

end Machine

namespace Embedding

theorem Run.after {log : List Event} {w : World} {t : Task} {k : Nat} {m : Machine}
    (h : Run log (alone w (some t))) (hm : (t.machine w).after k = some m) :
    ∃ log, Run log (alone m.world (some (t.leave m))) := by
  induction k generalizing log w t with
  | zero =>
      cases hm
      exact ⟨log, h⟩
  | succ k ih =>
      simp only [Machine.after] at hm
      cases hs : (t.machine w).step with
      | inl m' =>
          rw [hs] at hm
          exact ih (t := t.leave m') (h.act (.work hs)) hm
      | inr r =>
          rw [hs] at hm
          cases hm

end Embedding

end WasmHost

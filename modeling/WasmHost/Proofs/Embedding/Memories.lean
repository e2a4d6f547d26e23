import WasmHost.Proofs.Embedding.Changes
import WasmHost.Proofs.Embedding.ExportViews
import WasmHost.Proofs.World.Memories

/-!
# The memories of a store in use

Each memory of a store has a type that it was declared with, by the embedder or by the module of an
instance. Whatever happens in the store afterwards, the memory has evolved from a new one of that
type, and this settles how large it can be, when it can grow and what it holds then.
-/

namespace WasmHost

open World

variable {w w' : World}

namespace Usage

variable {u u' v : Usage} {a : Nat} {t : MemoryType}

/-- A step lets the memories of the store evolve, or the embedder makes a memory. -/
theorem Step.evolves (h : u.Step u') : u.world.Evolves u'.world ∨ ∃ t, u.Makes t u' := by
  rcases h.world_cases with halters | made | ⟨config, context, set⟩
  · exact .inl halters.evolves
  · exact .inr made
  · cases set
    exact .inl (.of_objects rfl)

theorem kept_newMemory (h : w.newMemory t = some (a, w')) :
    Extended Memory.Evolves w.store.memories w'.store.memories := by
  simp only [newMemory] at h
  split at h <;> cases h
  exact .push (fun _ => .refl) _ _

theorem stems_newMemory (h : w.newMemory t = some (a, w')) :
    w'.Stems a t ∧ t.limits.min ≤ t.bound ∧ t.bound ≤ Wasm.maxPages := by
  simp only [newMemory] at h
  split at h <;> cases h
  rename_i hbounds
  refine ⟨⟨.fresh none t, none, ?_, .inl rfl, .refl⟩, hbounds⟩
  simp only [mapStore, Array.getElem?_push_size, Memory.fresh, MemoryType.bound,
    Option.getD_none, Nat.min_eq_left hbounds.2]

theorem Step.kept (h : u.Step u') :
    Extended Memory.Evolves u.world.store.memories u'.world.store.memories := by
  rcases h.evolves with hevolves | ⟨t, -, hnew⟩
  · exact hevolves.kept
  · exact kept_newMemory hnew

theorem kept_of_later (h : Relation.ReflTransGen Step u v) :
    Extended Memory.Evolves u.world.store.memories v.world.store.memories := by
  induction h with
  | refl => exact .refl (fun _ => .refl) _
  | tail _ step ih => exact ih.trans .trans step.kept

/-- The memory with a number was declared with a type: by the embedder who made it, or by the module
of an instance. -/
inductive Declares : Usage → Nat → MemoryType → Prop
  | made {u v : Usage} {a : Nat} {t : MemoryType} {w : World} (before : u.Reachable)
      (free : u.IsFree) (made : u.world.newMemory t = some (a, w))
      (later : Relation.ReflTransGen Step { u with world := w } v) : Declares v a t
  | own {v : Usage} {i : Instance} {a : Nat} {t : MemoryType}
      (there : i ∈ v.world.store.instances) (declared : (a, t) ∈ i.ownMemories) : Declares v a t

theorem Declares.later (hu : u.Reachable) (h : u.Declares a t)
    (later : Relation.ReflTransGen Step u v) : v.Declares a t := by
  cases h with
  | made before free made before' => exact .made before free made (before'.trans later)
  | own there declared =>
      obtain ⟨j, hj, rfl⟩ := Array.mem_iff_getElem.mp there
      obtain ⟨-, hext⟩ := hu.later later
      obtain ⟨i', hi', hbecomes⟩ := hext.instances j _ (Array.getElem?_eq_getElem hj)
      exact .own (Array.mem_of_getElem? hi') (hbecomes.ownMemories ▸ declared)

/-- Every memory was declared. -/
theorem Reachable.declares (hu : u.Reachable) :
    ∀ a < u.world.store.memories.size, ∃ t, u.Declares a t := by
  induction hu with
  | start engine s =>
      intro a ha
      cases ha
  | @step u u' before step ih =>
      intro a ha
      rcases Nat.lt_or_ge a u.world.store.memories.size with hold | hnew
      · obtain ⟨t, ht⟩ := ih a hold
        exact ⟨t, ht.later before (.single step)⟩
      · rcases step.evolves with hevolves | ⟨t, free, hmade⟩
        · obtain ⟨i, hi, t, ht⟩ := hevolves.new a hnew ha
          exact ⟨t, .own hi ht⟩
        · refine ⟨t, .made before free (a := a) ?_ .refl⟩
          rw [hmade]
          simp only [newMemory] at hmade
          split at hmade <;> cases hmade
          simp only [mapStore, Array.size_push] at ha ⊢
          rw [Nat.le_antisymm hnew (Nat.le_of_lt_succ ha)]

/-- The memories that an instance declares have evolved from new ones. -/
theorem Reachable.own_stems (hu : u.Reachable) {i : Instance}
    (hi : i ∈ u.world.store.instances) (ht : (a, t) ∈ i.ownMemories) : u.world.Stems a t := by
  induction hu generalizing i with
  | start engine s => simp [create] at hi
  | @step u u' before step ih =>
      obtain ⟨j, hj, rfl⟩ := Array.mem_iff_getElem.mp hi
      have hext := (before.typed.step step).2
      rcases Nat.lt_or_ge j u.world.store.instances.size with hold | hnew
      · obtain ⟨i', hi', hbecomes⟩ := hext.instances j _ (Array.getElem?_eq_getElem hold)
        obtain rfl := Option.some.inj ((Array.getElem?_eq_getElem hj).symm.trans hi')
        rw [hbecomes.ownMemories] at ht
        exact (ih (Array.getElem_mem hold) ht).of_kept hext step.kept
      · rcases step.evolves with hevolves | ⟨t, -, hmade⟩
        · exact hevolves.own j _ hnew (Array.getElem?_eq_getElem hj) _ ht
        · simp only [newMemory] at hmade
          split at hmade <;> cases hmade
          simp only [mapStore] at hj
          omega

/-- A memory that was declared has evolved from a new one of its type, which is one that memories
can have. -/
theorem Reachable.stems (hu : u.Reachable) (h : u.Declares a t) :
    u.world.Stems a t ∧ t.limits.min ≤ t.bound ∧ t.bound ≤ Wasm.maxPages := by
  cases h with
  | made before free made later =>
      obtain ⟨hstems, hbounds⟩ := stems_newMemory made
      have hstep := before.step (.store (c := .newMemory t) [] free trivial)
      simp only [StoreCall.run, made, Option.map_some, Option.getD_some] at hstep
      exact ⟨hstems.of_kept (hstep.later later).2 (kept_of_later later), hbounds⟩
  | own there declared =>
      refine ⟨hu.own_stems there declared, ?_⟩
      have hlinked := hu.typed.world.instances _ there
      obtain ⟨f, valid⟩ := hlinked.compiled.valid
      exact valid.checks.bound_memories t (List.of_mem_zip declared).2

end Usage

/-! ## Growth -/

/-- What holds of a memory that was declared with a type, and of its growth. -/
structure World.MemoryLaw (w : World) (a : Nat) (t : MemoryType) : Prop where
  size : (w.memory a).size = 65536 * (w.memory a).pages
  view : ∃ bytes, w.readMemory a 0 (w.memory a).size = some bytes ∧
    bytes.length = 65536 * (w.memory a).pages
  within : (w.memory a).pages ≤ 65536 ∧ ∀ n ∈ t.limits.max, (w.memory a).pages ≤ n
  /-- Old bytes stay, new ones are zero, and no type is shown otherwise. -/
  grown : ∀ {d p : Nat} {w' : World}, w.growMemory a d = .ok (p, w') →
    p = (w.memory a).pages ∧ (w'.memory a).pages = p + d ∧
      (∀ i < 65536 * p, (w'.memory a).byte i = (w.memory a).byte i) ∧
      (∀ i, 65536 * p ≤ i → i < 65536 * (p + d) → (w'.memory a).byte i = 0) ∧
      ∀ item, w'.externType item = w.externType item
  refused : ∀ {d : Nat} {e : Error} (live : List BoxId), w.growMemory a d = .error e →
    ((StoreCall.growMemory a d).run live w).2 = w
  /-- Without a pool there is room up to the bounds. -/
  onDemand : w.store.engine.options.pooling = none → ∀ d : Nat,
    (∃ p w', w.growMemory a d = .ok (p, w')) ↔
      (w.memory a).pages + d ≤ 65536 ∧ ∀ n ∈ t.limits.max, (w.memory a).pages + d ≤ n

namespace World

variable {a : Nat} {t : MemoryType} {m : Memory}

theorem memory_of_getElem? (h : w.store.memories[a]? = some m) : w.memory a = m := by
  rw [memory, h, Option.getD_some]

theorem le_bound_iff (h : t.bound ≤ Wasm.maxPages) {n : Nat} :
    n ≤ t.bound ↔ n ≤ 65536 ∧ ∀ k ∈ t.limits.max, n ≤ k := by
  unfold MemoryType.bound at h ⊢
  cases hmax : t.limits.max with
  | none => simp [Wasm.maxPages]
  | some k =>
      rw [hmax] at h
      simp only [Option.getD_some, Wasm.maxPages] at h ⊢
      constructor
      · intro hn
        refine ⟨Nat.le_trans hn h, fun k' hk => ?_⟩
        obtain rfl := Option.some.inj hk
        exact hn
      · rintro ⟨-, hall⟩
        exact hall k rfl

theorem growMemory_eq_ok {d p : Nat} (h : w.growMemory a d = .ok (p, w')) :
    p = (w.memory a).pages ∧ w' = w.mapMemory a (·.grow d) := by
  simp only [growMemory, growPages] at h
  split at h
  · rename_i r hr
    cases h
    split at hr <;> cases hr
    exact ⟨rfl, rfl⟩
  · cases h

theorem growMemory_ok_iff {d : Nat} :
    (∃ p w', w.growMemory a d = .ok (p, w')) ↔ (w.memory a).canGrow d := by
  simp only [growMemory, growPages]
  by_cases hroom : (w.memory a).canGrow d
  · simp [hroom]
  · simp [hroom]

/-- The number of a memory has no part in the type of any item. -/
theorem externType_mapMemory (f : Memory → Memory) (item : Item) :
    (w.mapMemory a f).externType item = w.externType item := by
  cases item <;> rfl

theorem Stems.law (h : w.Stems a t) (hmin : t.limits.min ≤ t.bound)
    (hbound : t.bound ≤ Wasm.maxPages) : w.MemoryLaw a t := by
  obtain ⟨m, slot, hm, hslot, hevolves⟩ := h
  obtain ⟨hthere, -⟩ := Array.getElem?_eq_some_iff.mp hm
  obtain rfl : w.memory a = m := memory_of_getElem? hm
  have hblank := hevolves.isBlankBehind (Memory.isBlankBehind_fresh slot t)
  have hpages : (w.memory a).pages ≤ t.bound := by
    have hle := hevolves.pages_le
    have hlimit := Memory.limit_fresh_le slot t
    exact Nat.le_trans hle (Nat.max_le.mpr ⟨hmin, hlimit⟩)
  have hsize : (w.memory a).size = 65536 * (w.memory a).pages := Nat.mul_comm _ _
  refine ⟨hsize, ?_, (le_bound_iff hbound).mp hpages, ?_, ?_, ?_⟩
  · refine ⟨(w.memory a).slice 0 (w.memory a).size, ?_, ?_⟩
    · simp [readMemory, Memory.read?, Memory.fits]
    · simp [Memory.slice, hsize]
  · intro d p w' hgrown
    obtain ⟨rfl, rfl⟩ := growMemory_eq_ok hgrown
    rw [memory_mapMemory _ hthere]
    refine ⟨rfl, rfl, fun i _ => rfl, fun i hi _ => ?_, externType_mapMemory _⟩
    exact hblank i (hsize ▸ hi)
  · intro d e live hrefused
    simp only [StoreCall.run, hrefused]
    rfl
  · intro hpool d
    have hlimit : (w.memory a).limit = t.bound := by
      have hslot : slot = none := by
        rcases hslot with h | h
        · exact h
        · rw [h, EngineOptions.pooledPages, hpool, Option.map_none]
      rw [hevolves.becomes.limit, hslot]
      exact Nat.min_eq_left hbound
    rw [growMemory_ok_iff, Memory.canGrow, hlimit, decide_eq_true_iff]
    exact le_bound_iff hbound

end World

namespace Usage

variable {u v : Usage}

/-- The law of memories. Every memory of a store in use was declared with a type. From any time on
it only evolves, by growth and by bytes that are written within it, and at all times it is as large
as its pages, keeps within its bounds, and grows by zeros exactly where there is room, with nothing
changed where there is none. -/
theorem memories_obey_law (hu : u.Reachable) (later : Relation.ReflTransGen Step u v) :
    (∀ a < v.world.store.memories.size, ∃ t, v.Declares a t) ∧
      ∀ a t, u.Declares a t →
        v.Declares a t ∧ (u.world.memory a).Evolves (v.world.memory a) ∧
          v.world.MemoryLaw a t := by
  obtain ⟨hv, -⟩ := hu.later later
  refine ⟨hv.declares, fun a t ht => ?_⟩
  have hdeclared := ht.later hu later
  obtain ⟨⟨m, slot, hm, -⟩, -⟩ := hu.stems ht
  obtain ⟨m', hm', hevolves⟩ := kept_of_later later a m hm
  obtain ⟨hstems, hmin, hbound⟩ := hv.stems hdeclared
  rw [memory_of_getElem? hm, memory_of_getElem? hm']
  exact ⟨hdeclared, hevolves, hstems.law hmin hbound⟩

/-- A memory of one page that can grow to two. -/
def twoPages : MemoryType := ⟨⟨1, some 2⟩, false⟩

/-- A new store with such a memory. -/
def withTwoPages : Usage :=
  { world := ((StoreCall.newMemory twoPages).run []
      (World.create (.default 0) { files := ⟨[], #[]⟩ })).2 }

/-- The memory grows once and no further. -/
theorem two_pages_obey_law : ∃ v : Usage, withTwoPages.Reachable ∧
    Relation.ReflTransGen Step withTwoPages v ∧ withTwoPages.Declares 0 twoPages ∧
    (withTwoPages.world.memory 0).Evolves (v.world.memory 0) ∧ (v.world.memory 0).pages = 2 ∧
    v.world.MemoryLaw 0 twoPages ∧
    ∀ p w', v.world.growMemory 0 1 ≠ .ok (p, w') := by
  have free {w : World} : ({ world := w } : Usage).IsFree := fun _ ht => by cases ht
  have hstart := Reachable.start (.default 0) { files := ⟨[], #[]⟩ }
  have hmade : withTwoPages.Reachable :=
    hstart.step (.store (c := .newMemory twoPages) [] free trivial)
  have hdeclared : withTwoPages.Declares 0 twoPages := .made hstart free rfl .refl
  have hgrown : Step withTwoPages
      { withTwoPages with world := ((StoreCall.growMemory 0 1).run [] withTwoPages.world).2 } :=
    .store (c := .growMemory 0 1) [] free trivial
  obtain ⟨-, hall⟩ := memories_obey_law hmade (.single hgrown)
  obtain ⟨-, hevolves, hlaw⟩ := hall 0 twoPages hdeclared
  refine ⟨_, hmade, .single hgrown, hdeclared, hevolves, rfl, hlaw, fun p w' h => ?_⟩
  cases h

end Usage

end WasmHost

import WasmHost.Proofs.Embedding.Usage
import WasmHost.Proofs.Linker.Commands

/-!
# The order of commands

A function of a command makes an instance with items that were there before it. So one call of a
command can lead to another without any code in between, but only to one that is older. That holds
of every store in use. What an instance can reach by itself are its own functions, which are code,
and the functions that it imports.
-/

namespace WasmHost

open World

namespace World

/-- The functions that a command imports are older than the command. -/
def Ordered (w : World) : Prop :=
  ∀ (a : FuncAddr) (type : FuncType) (m : CompiledModule) (items : List Item) (entry : String),
    w.store.funcs[a]? = some ⟨type, .command m items entry⟩ → ∀ b : FuncAddr, .func b ∈ items → b < a

/-- The function is code. -/
def IsCode (w : World) (a : FuncAddr) : Prop :=
  ∃ type owner code, w.store.funcs[a]? = some ⟨type, .code owner code⟩

variable {w w' : World} {a : FuncAddr}

theorem IsCode.extends (h : w.IsCode a) (hw : w.Extends w') : w'.IsCode a := by
  obtain ⟨type, owner, code, hf⟩ := h
  obtain ⟨f, hf', rfl⟩ := hw.funcs a _ hf
  exact ⟨type, owner, code, hf'⟩

namespace Ordered

theorem of_append {fs : Array Func} (h : w.Ordered) (hf : w'.store.funcs = w.store.funcs ++ fs)
    (hfs : ∀ f ∈ fs, ∀ m items entry, f.body = .command m items entry →
      ∀ b : FuncAddr, .func b ∈ items → b < w.store.funcs.size) : w'.Ordered := by
  intro a type m items entry hknown b hb
  rw [hf] at hknown
  rcases Nat.lt_or_ge a w.store.funcs.size with hlt | hge
  · rw [Array.getElem?_append_left hlt] at hknown
    exact h a type m items entry hknown b hb
  · rw [Array.getElem?_append_right hge] at hknown
    exact Nat.lt_of_lt_of_le (hfs _ (Array.mem_of_getElem? hknown) m items entry rfl b hb) hge

theorem of_funcs (h : w.Ordered) (hf : w'.store.funcs = w.store.funcs) : w'.Ordered :=
  h.of_append (hf.trans (Array.append_empty ..).symm) fun f hmem => by
    cases Array.not_mem_empty f hmem

/-- Functions of modules can be added at will. -/
theorem of_code {fs : Array Func} (h : w.Ordered) (hf : w'.store.funcs = w.store.funcs ++ fs)
    (hfs : ∀ f ∈ fs, ∃ owner code, f.body = .code owner code) : w'.Ordered := by
  refine h.of_append hf fun f hmem m items entry hbody => ?_
  obtain ⟨owner, code, hcode⟩ := hfs f hmem
  cases hbody.symm.trans hcode

theorem newFunc (h : w.Ordered) (type : FuncType) {body : FuncBody}
    (hbody : ∀ m items entry, body = .command m items entry →
      ∀ b : FuncAddr, .func b ∈ items → b < w.store.funcs.size) :
    (w.newFunc type body).2.Ordered := by
  have hpush : (w.newFunc type body).2.store.funcs = w.store.funcs ++ #[⟨type, body⟩] :=
    Array.append_singleton.symm
  refine h.of_append hpush fun f hmem => ?_
  obtain rfl := Array.mem_singleton.mp hmem
  exact hbody

theorem grows (h : w.Ordered) (hg : w.Grows w') : w'.Ordered := by
  obtain ⟨fs, hfs, hg⟩ := hg
  exact h.of_code (congrArg (·.funcs) hg) fun _ => hfs.body

theorem step {m m' : Machine} (h : m.world.Ordered) (hs : m.Steps m') : m'.world.Ordered := by
  obtain ⟨fs, hfs, hf⟩ := (Machine.settles_step hs).funcs
  exact h.of_code hf fun _ => hfs.body

end Ordered

end World

variable {w w' : World}

/-! ## What an embedder does -/

theorem StoreCall.ordered_run (c : StoreCall) (live : List BoxId) (h : w.Ordered) :
    (c.run live w).2.Ordered := by
  rcases c.accounts_run live w with hsame | rfl | ⟨n, rfl⟩ | ⟨type, ops, rfl⟩ |
    ⟨m, imports, owner, -, hmade⟩
  · exact h.of_funcs (congrArg (·.funcs) hsame)
  · exact h.newFunc _ (by simp)
  · refine h.of_funcs ?_
    simp only [run, World.addFuel]
    split <;> rfl
  · exact (h.of_funcs rfl).newFunc type (by simp)
  · exact h.of_code (congrArg (·.funcs) hmade) fun _ => CompiledModule.body_newFuncs

theorem Definition.ordered_toItem (d : Definition) (h : w.Ordered) : (d.toItem w).2.Ordered := by
  cases d with
  | item i t => exact h
  | host type ops id => exact (h.of_funcs rfl).newFunc type (by simp)
  | wasi g => exact h.newFunc g.type (by simp)

theorem Definition.ordered_toItems (ds : List Definition) (h : w.Ordered) :
    (toItems ds w).2.Ordered := by
  induction ds generalizing w with
  | nil => exact h
  | cons d ds ih => exact ih (d.ordered_toItem h)

theorem Definition.genuine_toItem {d : Definition} (h : d.Genuine w) :
    (d.toItem w).2.IsGenuine (d.toItem w).1 := by
  cases d with
  | item i t => exact h.1
  | host type ops id => exact genuine_newFunc _ type _
  | wasi g => exact genuine_newFunc w g.type _

theorem Definition.genuine_toItems {ds : List Definition} (h : ∀ d ∈ ds, d.Genuine w) :
    ∀ i ∈ (toItems ds w).1, (toItems ds w).2.IsGenuine i := by
  induction ds generalizing w with
  | nil => exact fun i hi => absurd hi List.not_mem_nil
  | cons d ds ih =>
      obtain ⟨hd, hds⟩ := List.forall_mem_cons.mp h
      have hrest := ih fun e he => (hds e he).extends (Alters.extends_ (d.changes_toItem w))
      exact List.forall_mem_cons.mpr
        ⟨(genuine_toItem hd).extends (Alters.extends_ (changes_toItems ds (d.toItem w).2)), hrest⟩

/-- Each function of a command comes after the items that it imports. -/
theorem Linker.ordered_defineCommand {module : String} {m : CompiledModule} {es : List ExportType}
    {l : Linker} (h : w.Ordered) (hl : l.Genuine w) :
    (defineCommand module m es l w).2.2.Ordered := by
  induction es generalizing l w with
  | nil => exact h
  | cons e es ih =>
      simp only [defineCommand]
      cases htype : e.type with
      | func type =>
          cases hr : l.resolve m Definition.type with
          | error reason => exact h
          | ok ds =>
              have hitems := Definition.genuine_toItems (genuine_of_resolve hl hr)
              have hext := Alters.extends_ (Definition.changes_toItems ds w)
              have hordered := Definition.ordered_toItems ds h
              dsimp only
              generalize (Definition.toItems ds w).2 = v at hitems hext hordered ⊢
              generalize (Definition.toItems ds w).1 = items at hitems ⊢
              have hnew : (v.newFunc type (.command m items e.name)).2.Ordered := by
                refine hordered.newFunc type fun m' items' entry heq b hb => ?_
                cases heq
                exact hitems _ hb
              split
              · rename_i p shared hdefine
                obtain rfl : p = _ := (define_linker hdefine).2
                have hgrown := hext.trans (extends_newFunc v type (.command m items e.name))
                have hdefined : Definition.Genuine (v.newFunc type (.command m items e.name)).2
                    (.item (.func (v.newFunc type (.command m items e.name)).1) (.func type)) :=
                  ⟨genuine_newFunc v type _, provides_newFunc v type _⟩
                refine ih (hnew.of_funcs rfl) ?_
                exact ((hl.extends hgrown).insert (n := ⟨module, e.name⟩) hdefined).extends
                  (.of_objects rfl)
              · exact hnew
      | global | table | memory =>
          dsimp only
          split
          · exact ih h hl
          · exact h

theorem LinkerCall.ordered_run {c : LinkerCall} {l l' : Linker} {r : Except Failure Unit}
    (h : w.Ordered) (hl : l.Genuine w) (plain : c.IsPlain) (done : c.run l w = some (r, l', w')) :
    w'.Ordered := by
  have hsettled {r' : Except Error (Linker × Shared)} (hr : settle l w r' = (r, l', w')) :
      w'.Ordered := by
    cases r' <;> cases hr
    · exact h
    · exact h.of_funcs rfl
  cases c with
  | allowShadowing allow =>
      cases done
      exact h
  | define n item => exact hsettled (Option.some.inj done)
  | defineFunc n type ops => exact hsettled (Option.some.inj done)
  | defineInstance module addr =>
      simp only [run, Option.some.injEq, Prod.mk.injEq] at done
      obtain ⟨-, -, rfl⟩ := done
      exact h.of_funcs rfl
  | defineWasi =>
      simp only [run, Option.some.injEq, Prod.mk.injEq] at done
      obtain ⟨-, -, rfl⟩ := done
      exact h.of_funcs rfl
  | defineModule limit module m =>
      simp only [run, Linker.defineModule, plain.1] at done
      cases done
      exact Linker.ordered_defineCommand h hl

namespace Usage

variable {u u' : Usage}

theorem ordered_step (h : u.world.Ordered) (typed : u.Typed) (step : u.Step u') :
    u'.world.Ordered := by
  cases step with
  | shared s => exact h.of_funcs rfl
  | store live free genuine => exact StoreCall.ordered_run _ live h
  | @call func args idle fits => exact h.grows (grows_call u.world func args)
  | start idle start => exact h.grows (Machine.grows_enter (.idle u.world) rfl _ _ _)
  | work task step => exact Ordered.step (m := Task.machine _ u.world) h step
  | @move t f rest task at_host c => exact h.grows (c.grows_run f rest (t.machine u.world))
  | @answer t r w task ended =>
      obtain rfl : w = u.world := Machine.step_end ended
      exact h.of_funcs (congrArg (·.funcs) (t.accounts_finish r u.world))
  | newLinker => exact h
  | dropLinker s linkers => exact h.of_funcs rfl
  | link linkers free plain genuine done =>
      exact LinkerCall.ordered_run h (typed.linkers _ (by simp [linkers])) plain done
  | resolve known free found => exact Definition.ordered_toItem _ h

/-- In every store in use the commands are in order. -/
theorem Reachable.ordered (h : u.Reachable) : u.world.Ordered := by
  induction h with
  | start engine s =>
      intro a type m items entry hknown
      cases hknown
  | step before hs ih => exact ordered_step ih before.typed hs

end Usage

/-! ## What an instance can reach by itself -/

/-- A function that an instance exports is one of its functions. -/
theorem Instance.Linked.mem_funcs_of_export {i : Instance} {addr : InstanceAddr} {name : String}
    {a : FuncAddr} (h : i.Linked w) (hi : w.store.instances[addr]? = some i)
    (ha : (w.getExport addr name).bind Item.func? = some a) : a ∈ i.funcs := by
  obtain ⟨item, hitem, hfunc⟩ := Option.bind_eq_some_iff.mp ha
  obtain ⟨e, he, -, rfl⟩ := h.exists_export hi hitem
  obtain ⟨f, valid⟩ := h.compiled.valid
  obtain ⟨t, ht⟩ := Option.isSome_iff_exists.mp (valid.checks.exports e he)
  obtain ⟨b, hb, -⟩ := h.items e.kind e.index t ht
  have haddr := Instance.addr?_exported hb
  cases hk : e.kind with
  | func =>
      rw [hk] at hb haddr
      obtain rfl : a = b := Option.some.inj (hfunc.symm.trans haddr)
      exact Array.mem_of_getElem? hb
  | global | table | memory =>
      simp only [exported, exportItem, hk] at hfunc
      cases hfunc

theorem World.mem_funcs_of_start {i : Instance} {addr : InstanceAddr} {a : FuncAddr}
    (hi : w.store.instances[addr]? = some i) (ha : w.startFunc? addr = some a) : a ∈ i.funcs := by
  simp only [startFunc?, hi, Option.bind_eq_bind, Option.bind_some, Option.bind_eq_some_iff] at ha
  obtain ⟨s, -, hs⟩ := ha
  exact Array.mem_of_getElem? hs

theorem World.funcs_instantiate {m : CompiledModule} {items : List Item} {addr : InstanceAddr}
    (h : w.instantiate m items = (.ok addr, w')) :
    ∃ owner, w'.store.funcs = w.store.funcs ++ m.newFuncs owner := by
  have hmade := (accounts_fill (w.allocate m items).1 (w.allocate m items).2).trans
    (accounts_allocate m items w)
  unfold instantiate at h
  split at h
  · cases h
  · dsimp only at h
    split at h <;> rename_i hr <;> cases h
    rw [hr] at hmade
    exact ⟨_, congrArg (·.funcs) hmade⟩

/-- The functions of a new instance are those that it imports, and code. -/
theorem World.isCode_or_imported {m : CompiledModule} {items : List Item} {addr : InstanceAddr}
    (h : w.instantiate m items = (.ok addr, w')) :
    ∃ i, w'.store.instances[addr]? = some i ∧ ∀ a ∈ i.funcs, .func a ∈ items ∨ w'.IsCode a := by
  obtain ⟨i, hi, rfl, hindexes⟩ := exists_indexed h
  refine ⟨i, hi, fun a ha => ?_⟩
  obtain ⟨owner, hfuncs⟩ := funcs_instantiate h
  have hall : i.funcs = (items.filterMap Item.func?).toArray ++
      Array.range' w.store.funcs.size i.module.codes.size := hindexes .func
  rw [hall, Array.mem_append] at ha
  rcases ha with ha | ha
  · obtain ⟨item, hitem, hfunc⟩ := List.mem_filterMap.mp (List.mem_toArray.mp ha)
    cases item <;> cases hfunc
    exact .inl hitem
  · obtain ⟨k, hk, rfl⟩ := Array.mem_range'.mp ha
    refine .inr ⟨i.module.codes[k].type, owner, i.module.codes[k], ?_⟩
    rw [hfuncs, Array.getElem?_append_right (by omega)]
    simp [CompiledModule.newFuncs, hk]

end WasmHost

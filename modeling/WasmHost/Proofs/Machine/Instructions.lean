import WasmHost.Proofs.Machine.Changes
import WasmHost.Proofs.Machine.Frames
import WasmHost.Proofs.Wasm.Plain

/-!
# Instructions of well typed frames

An instruction of a well typed frame leaves a frame that is well typed, passes arguments of the
kinds that the called function takes, or leaves the function with results of the kinds that it
gives. The store stays well typed.
-/

namespace WasmHost

open World CodeFrame
open Wasm (OpenBlock)

/-- What comes of an instruction is well typed: the frame that goes on, the arguments of a call, the
results. -/
def Outcome.Typed (w : World) (code : FuncCode) (o : Outcome) : Prop :=
  w.Respects o.world ∧
    match o with
    | .next f w' => f.code = code ∧ f.Typed w'
    | .trap .. => True
    | .call func args f w' => f.code = code ∧ ∃ g, w'.store.funcs[func]? = some g ∧
        args.map Val.type = g.type.params ∧ f.Awaits w' g.type.results
    | .exit vals _ => vals.map Val.type = code.type.results

variable {w w' : World} {f : CodeFrame} {i : Instance} {c : Wasm.Context} {b : RunBlock}
  {bs : List RunBlock} {o o' : OpenBlock} {os : List OpenBlock} {stack vs : List StoreVal}
  {params results : List ValType}

theorem Outcome.typed_trap (code : FuncCode) (cause : TrapCode) (f : CodeFrame)
    (hw : w.Respects w') : (Outcome.trap cause f w').Typed w code := ⟨hw, trivial⟩

/-- An instruction that goes on only under a condition, and traps otherwise. -/
theorem Outcome.typed_guard {p : Prop} [Decidable p] {code : FuncCode} {cause : TrapCode}
    {f : CodeFrame} {o : Outcome} (h : p → o.Typed w code) :
    (if p then o else .trap cause f w).Typed w code := by
  split
  · exact h ‹_›
  · exact typed_trap code cause f (.refl w)

/-- A frame at an instruction, with what is known of it: its instance, the open blocks in the
typing and at run time, and the kinds of its operands. -/
structure CodeFrame.Ready (w : World) (f : CodeFrame) (op : Wasm.Op) (i : Instance)
    (c : Wasm.Context) (o : OpenBlock) (os : List OpenBlock) (b : RunBlock) (bs : List RunBlock) :
    Prop where
  belongs : f.Belongs w i c
  place : f.code.At c f.pc (o :: os)
  instruction : f.code.ops[f.pc]? = some op
  blocks : f.blocks = b :: bs
  nested : f.code.Nested c b o bs os
  operands : o.Exactly (b.stack.map Val.type)

/-! ## Going on -/

namespace CodeFrame.Ready

variable {op : Wasm.Op}

/-- A frame that goes on to the next place with operands that fit there. -/
theorem proceed (r : f.Ready w op i c o os b bs) (hnext : f.code.At c (f.pc + 1) (o' :: os))
    (same : o.Same o') (hexact : o'.Exactly (stack.map Val.type)) (hw : w.Respects w') :
    (WasmHost.proceed (f.withTop stack b bs) w').Typed w f.code := by
  have h := r.belongs
  refine ⟨hw, rfl, Typed.extends ?_ hw.grown⟩
  exact ⟨i, c, o', os, { b with stack }, bs,
    ⟨h.owner, h.linked, h.context, h.code, h.locals⟩, hnext, rfl, r.nested.same rfl rfl same,
    .inl hexact⟩

/-- An instruction that takes some operands and leaves others. -/
theorem apply (r : f.Ready w op i c o os b bs) (happly : o.apply params results = some o')
    (hnext : f.code.At c (f.pc + 1) (o' :: os)) :
    ∃ args vs : List StoreVal, f.withTop (args.reverse ++ vs) b bs = f ∧
      args.map Val.type = params ∧
      (∀ (res : List StoreVal) (w' : World), res.map Val.type = results → w.Respects w' →
        (WasmHost.proceed (f.withTop (res.reverse ++ vs) b bs) w').Typed w f.code) ∧
      (f.withTop vs b bs).Awaits w results := by
  obtain ⟨rest, hrest, hexact⟩ := r.operands.apply happly
  obtain ⟨args, vs, hstack, hargs, rfl⟩ := exists_operands hrest
  have same := Wasm.OpenBlock.same_of_apply happly
  have h := r.belongs
  refine ⟨args, vs, ?_, hargs, fun res w' hres hw => ?_, i, c, o', os, { b with stack := vs }, bs,
    ⟨h.owner, h.linked, h.context, h.code, h.locals⟩, hnext, rfl, r.nested.same rfl rfl same,
    hexact⟩
  · rw [← hstack]
    exact withTop_self r.blocks
  · refine r.proceed hnext same ?_ hw
    rw [List.map_append, List.map_reverse, hres]
    exact hexact

/-- The rule of an instruction that looks at nothing but its operands. -/
theorem types (r : f.Ready w op i c o os b bs) (hplain : op.IsPlain) : ∃ params results,
    (c.withLocals (f.code.type.params ++ f.code.locals)).Types op params results := by
  obtain ⟨blocks', hcheck, -⟩ := r.belongs.code.checked r.place r.instruction
  obtain ⟨params, results, -, htype, -⟩ := Wasm.Context.types_of_checkOp hcheck hplain
  exact ⟨params, results, htype⟩

theorem plain (r : f.Ready w op i c o os b bs)
    (htype : (c.withLocals (f.code.type.params ++ f.code.locals)).Types op params results) :
    ∃ args vs : List StoreVal, f.withTop (args.reverse ++ vs) b bs = f ∧
      args.map Val.type = params ∧
      (∀ (res : List StoreVal) (w' : World), res.map Val.type = results → w.Respects w' →
        (WasmHost.proceed (f.withTop (res.reverse ++ vs) b bs) w').Typed w f.code) ∧
      (f.withTop vs b bs).Awaits w results := by
  obtain ⟨blocks', hcheck, hnext⟩ := r.belongs.code.checked r.place r.instruction
  obtain ⟨params', results', o', htype', happly, rfl⟩ :=
    Wasm.Context.types_of_checkOp hcheck htype.isPlain
  obtain ⟨rfl, rfl⟩ := htype.unique htype'
  exact r.apply happly hnext

end CodeFrame.Ready

/-! ## What the indices of a frame stand for -/

namespace CodeFrame.Belongs

/-- The number in the store of an item of the frame's instance is that of an object of its type. -/
theorem has_address (h : f.Belongs w i c) (kind : ItemKind) {k : Nat} {t : ItemType}
    (ht : i.module.module.itemType? kind k = some t) {items : Instance → Array Nat}
    (hitems : items i = i.addrs kind) : w.Has t (f.address w items k) := by
  obtain ⟨a, ha, hhas⟩ := h.linked.items kind k t ht
  simp only [address, ownerOf, h.owner, Option.map_some, Option.getD_some, hitems,
    Array.getD_eq_getD_getElem?, ha]
  exact hhas

theorem has_func (h : f.Belongs w i c) {k : Nat} {t : FuncType} (ht : c.funcs[k]? = some t) :
    w.Has (.func t) (f.address w (·.funcs) k) := by
  obtain ⟨features, hvalid, rfl⟩ := h.context
  rw [hvalid.checks.context_funcs] at ht
  exact h.has_address .func (by simp [Wasm.Module.itemType?, ht]) rfl

theorem has_global (h : f.Belongs w i c) {k : Nat} {t : GlobalType} (ht : c.globals[k]? = some t) :
    w.Has (.global t) (f.address w (·.globals) k) := by
  obtain ⟨features, hvalid, rfl⟩ := h.context
  simp only [Wasm.Module.context, List.getElem?_toArray] at ht
  exact h.has_address .global (by simp [Wasm.Module.itemType?, ht]) rfl

/-- The elements of a table of the frame are of the kind that is declared. -/
theorem element_table (h : f.Belongs w i c) {k : Nat} {t : TableType} (ht : c.tables[k]? = some t) :
    (w.table (f.address w (·.tables) k)).element = t.element := by
  obtain ⟨features, hvalid, rfl⟩ := h.context
  simp only [Wasm.Module.context, List.getElem?_toArray] at ht
  obtain ⟨x, hx, helement⟩ : w.Has (.table t) (f.address w (·.tables) k) :=
    h.has_address .table (by simp [Wasm.Module.itemType?, ht]) rfl
  rw [table, hx, Option.getD_some, helement]

theorem type_local (h : f.Belongs w i c) {k : Nat} {t : ValType}
    (ht : (c.withLocals (f.code.type.params ++ f.code.locals)).locals[k]? = some t) :
    (f.locals.getD k default).type = t := by
  simp only [Wasm.Context.withLocals, List.getElem?_toArray] at ht
  rw [← h.locals, List.getElem?_map, Array.getElem?_toList] at ht
  obtain ⟨v, hv, rfl⟩ := Option.map_eq_some_iff.mp ht
  rw [Array.getD_eq_getD_getElem?, hv, Option.getD_some]

/-- The values of a segment, unless it was dropped, are of its kind. -/
theorem types_segment (h : f.Belongs w i c) (held : w.Valued) {e : Nat} {t : ValType}
    (ht : c.elems[e]? = some t) {v : StoreVal}
    (hv : v ∈ ((f.ownerOf w).map fun i =>
      if i.droppedElems.getD e true then []
      else (i.module.module.elems[e]?.map fun e => w.elemValues i e.items).getD []).getD []) :
    v.type = t := by
  obtain ⟨features, hvalid, rfl⟩ := h.context
  simp only [Wasm.Module.context, List.getElem?_toArray, Wasm.Module.elemTypes,
    List.getElem?_map, Option.map_eq_some_iff] at ht
  obtain ⟨segment, hsegment, rfl⟩ := ht
  simp only [ownerOf, h.owner, Option.map_some, Option.getD_some, hsegment] at hv
  split at hv
  · cases hv
  · have hchecked := hvalid.checks.elems segment
      (List.mem_of_getElem? hsegment)
    exact h.linked.types_elemValues held hchecked rfl v hv

end CodeFrame.Belongs

/-! ## Instructions that look at nothing but their operands -/

theorem exists_one {args : List StoreVal} {t : ValType} (h : args.map Val.type = [t]) :
    ∃ v, args = [v] ∧ v.type = t := by
  obtain ⟨v, rfl, hv⟩ := List.map_eq_singleton_iff.mp h
  exact ⟨v, rfl, hv⟩

theorem exists_two {args : List StoreVal} {t u : ValType} (h : args.map Val.type = [t, u]) :
    ∃ v x, args = [v, x] ∧ v.type = t ∧ x.type = u := by
  obtain ⟨v, rest, rfl, hv, hrest⟩ := List.map_eq_cons_iff.mp h
  obtain ⟨x, rfl, hx⟩ := exists_one hrest
  exact ⟨v, x, rfl, hv, hx⟩

theorem exists_three {args : List StoreVal} {t u s : ValType}
    (h : args.map Val.type = [t, u, s]) :
    ∃ v x y, args = [v, x, y] ∧ v.type = t ∧ x.type = u ∧ y.type = s := by
  obtain ⟨v, rest, rfl, hv, hrest⟩ := List.map_eq_cons_iff.mp h
  obtain ⟨x, y, rfl, hx, hy⟩ := exists_two hrest
  exact ⟨v, x, y, rfl, hv, hx, hy⟩

namespace CodeFrame.Ready

section Plain

variable {op : Wasm.Op} {v : StoreVal} {store : Wasm.StoreOp} {arg : Wasm.MemArg}

/-- An instruction that takes nothing and leaves a value. -/
theorem push (r : f.Ready w op i c o os b bs)
    (htype : (c.withLocals (f.code.type.params ++ f.code.locals)).Types op [] [v.type])
    (hw : w.Respects w') : (WasmHost.proceed (f.push v) w').Typed w f.code := by
  obtain ⟨args, vs, hf, hargs, hgo, -⟩ := r.plain htype
  cases List.map_eq_nil_iff.mp hargs
  rw [← hf]
  exact hgo [v] w' rfl hw

/-- An instruction that takes and leaves nothing. -/
theorem skip (r : f.Ready w op i c o os b bs)
    (htype : (c.withLocals (f.code.type.params ++ f.code.locals)).Types op [] [])
    (hw : w.Respects w') : (WasmHost.proceed f w').Typed w f.code := by
  obtain ⟨args, vs, hf, hargs, hgo, -⟩ := r.plain htype
  cases List.map_eq_nil_iff.mp hargs
  rw [← hf]
  exact hgo [] w' rfl hw

/-! ### Memories -/

theorem execLoad (r : f.Ready w op i c o os b bs) (load : Wasm.LoadOp)
    (htype : (c.withLocals (f.code.type.params ++ f.code.locals)).Types op [.i32] [load.type])
    (arg : Wasm.MemArg) : (WasmHost.execLoad load arg f w).Typed w f.code := by
  obtain ⟨args, vs, hf, hargs, hgo, -⟩ := r.plain htype
  obtain ⟨a, rfl, -⟩ := exists_one hargs
  rw [← hf]
  unfold WasmHost.execLoad
  dsimp only [List.reverse_cons, List.reverse_nil, List.nil_append, List.cons_append,
    popBits_withTop]
  split
  · exact hgo [_] w (by rw [List.map_singleton, Val.type_ofBits]) (.refl w)
  · exact Outcome.typed_trap _ _ _ (.refl w)

theorem execStore (r : f.Ready w (.store store arg) i c o os b bs)
    (place : c.checkMemArg store.bytes arg) : (WasmHost.execStore store arg f w).Typed w f.code := by
  obtain ⟨args, vs, hf, hargs, hgo, -⟩ := r.plain (.store place)
  obtain ⟨a, v, rfl, -, -⟩ := exists_two hargs
  rw [← hf]
  unfold WasmHost.execStore
  dsimp only [List.reverse_cons, List.reverse_nil, List.nil_append, List.cons_append,
    popBits_withTop, pop_withTop]
  refine Outcome.typed_guard fun _ => ?_
  exact hgo [] _ rfl (respects_putBytes _ _ _ w)

/-- An instruction that takes two numbers around a value and leaves nothing. -/
theorem three (r : f.Ready w op i c o os b bs) {t : ValType}
    (htype : (c.withLocals (f.code.type.params ++ f.code.locals)).Types op [.i32, t, .i32] []) :
    ∃ (d v n : StoreVal) (vs : List StoreVal), f.withTop (n :: v :: d :: vs) b bs = f ∧
      v.type = t ∧ ∀ w', w.Respects w' →
        (WasmHost.proceed (f.withTop vs b bs) w').Typed w f.code := by
  obtain ⟨args, vs, hf, hargs, hgo, -⟩ := r.plain htype
  obtain ⟨d, v, n, rfl, -, hv, -⟩ := exists_three hargs
  exact ⟨d, v, n, vs, hf, hv, fun w' hw => hgo [] w' rfl hw⟩

theorem pop3_withTop (d v n : StoreVal) (vs : List StoreVal) (b : RunBlock) (bs : List RunBlock)
    (f : CodeFrame) : pop3 (f.withTop (n :: v :: d :: vs) b bs) =
      (d.toBits, v, n.toBits, f.withTop vs b bs) := rfl

theorem memoryFill {k : Nat} {t : MemoryType} (r : f.Ready w (.memoryFill k) i c o os b bs)
    (bulk : c.features.bulkMemory) (memory : c.memories[k]? = some t) :
    (execMemory (.memoryFill k) f w).Typed w f.code := by
  obtain ⟨d, v, n, vs, hf, -, hgo⟩ := r.three (.memoryFill bulk memory)
  rw [← hf]
  dsimp only [execMemory, pop3_withTop]
  refine Outcome.typed_guard fun _ => ?_
  exact hgo _ (respects_putBytes _ _ _ w)

theorem memoryCopy {k j : Nat} {t s : MemoryType} (r : f.Ready w (.memoryCopy k j) i c o os b bs)
    (bulk : c.features.bulkMemory) (target : c.memories[k]? = some t)
    (source : c.memories[j]? = some s) : (execMemory (.memoryCopy k j) f w).Typed w f.code := by
  obtain ⟨d, v, n, vs, hf, -, hgo⟩ := r.three (.memoryCopy bulk target source)
  rw [← hf]
  dsimp only [execMemory, pop3_withTop]
  split
  · exact Outcome.typed_guard fun _ => hgo _ (respects_putBytes _ _ _ w)
  · exact Outcome.typed_trap _ _ _ (.refl w)

theorem memoryInit {d k n : Nat} {t : MemoryType} (r : f.Ready w (.memoryInit d k) i c o os b bs)
    (bulk : c.features.bulkMemory) (memory : c.memories[k]? = some t)
    (count : c.dataCount = some n) (there : d < n) :
    (execMemory (.memoryInit d k) f w).Typed w f.code := by
  obtain ⟨_, _, _, vs, hf, -, hgo⟩ := r.three (.memoryInit bulk memory count there)
  rw [← hf]
  dsimp only [execMemory, pop3_withTop]
  refine Outcome.typed_guard fun _ => ?_
  exact hgo _ (respects_putBytes _ _ _ w)

theorem memoryGrow {k : Nat} {t : MemoryType} (r : f.Ready w (.memoryGrow k) i c o os b bs)
    (memory : c.memories[k]? = some t) : (execMemory (.memoryGrow k) f w).Typed w f.code := by
  obtain ⟨args, vs, hf, hargs, hgo, -⟩ := r.plain (.memoryGrow memory)
  obtain ⟨a, rfl, -⟩ := exists_one hargs
  rw [← hf]
  dsimp only [execMemory, List.reverse_cons, List.reverse_nil, List.nil_append, List.cons_append,
    popBits_withTop, push_withTop]
  split
  · rename_i hgrown
    exact hgo [_] _ rfl (respects_growPages hgrown)
  · exact hgo [_] w rfl (.refl w)

theorem respects_dropSegment (owner : InstanceAddr) {g : Instance → Instance}
    (hg : ∀ i : Instance, i.Becomes (g i)) (w : World) : w.Respects (dropSegment owner g w) :=
  ⟨Alters.extends_ (.single (.segment owner hg)), rfl, Array.size_modify,
    fun held => ⟨held.globals, held.tables⟩⟩

/-! ### Tables -/

theorem tableGet {k : Nat} {t : TableType} (r : f.Ready w (.tableGet k) i c o os b bs)
    (references : c.features.referenceTypes) (table : c.tables[k]? = some t) (held : w.Valued) :
    (execTable (.tableGet k) f w).Typed w f.code := by
  have helement := r.belongs.element_table table
  obtain ⟨args, vs, hf, hargs, hgo, -⟩ := r.plain (.tableGet references table)
  obtain ⟨a, rfl, -⟩ := exists_one hargs
  rw [← hf]
  dsimp only [execTable, List.reverse_cons, List.reverse_nil, List.nil_append, List.cons_append,
    popBits_withTop, push_withTop]
  split
  · rename_i v hv
    refine hgo [v] _ ?_ (.of_objects (objects_exposeVal v w))
    rw [List.map_singleton, held.type_element (Array.mem_of_getElem? hv)]
    exact congrArg (fun t => [t]) helement
  · exact Outcome.typed_trap _ _ _ (.refl w)

theorem tableSet {k : Nat} {t : TableType} (r : f.Ready w (.tableSet k) i c o os b bs)
    (references : c.features.referenceTypes) (table : c.tables[k]? = some t) :
    (execTable (.tableSet k) f w).Typed w f.code := by
  have helement := r.belongs.element_table table
  obtain ⟨args, vs, hf, hargs, hgo, -⟩ := r.plain (.tableSet references table)
  obtain ⟨a, v, rfl, -, hv⟩ := exists_two hargs
  rw [← hf]
  dsimp only [execTable, List.reverse_cons, List.reverse_nil, List.nil_append, List.cons_append,
    popBits_withTop, pop_withTop]
  refine Outcome.typed_guard fun _ => ?_
  exact hgo [] _ rfl (respects_putElem (hv.trans helement.symm))

theorem tableGrow {k : Nat} {t : TableType} (r : f.Ready w (.tableGrow k) i c o os b bs)
    (references : c.features.referenceTypes) (table : c.tables[k]? = some t) :
    (execTable (.tableGrow k) f w).Typed w f.code := by
  have helement := r.belongs.element_table table
  obtain ⟨args, vs, hf, hargs, hgo, -⟩ := r.plain (.tableGrow references table)
  obtain ⟨v, a, rfl, hv, -⟩ := exists_two hargs
  have hgrown := respects_growElems (hv.trans helement.symm) a.toBits
  rw [← hf] at hgrown ⊢
  dsimp only [execTable]
  split <;> rename_i hr <;>
    exact hgo [_] _ rfl ((congrArg w.Respects (congrArg Prod.snd hr)).mp hgrown)

theorem tableFill {k : Nat} {t : TableType} (r : f.Ready w (.tableFill k) i c o os b bs)
    (bulk : c.features.bulkMemory) (references : c.features.referenceTypes)
    (table : c.tables[k]? = some t) : (execTable (.tableFill k) f w).Typed w f.code := by
  have helement := r.belongs.element_table table
  obtain ⟨d, v, n, vs, hf, hv, hgo⟩ := r.three (.tableFill bulk references table)
  rw [← hf]
  dsimp only [execTable, pop3_withTop]
  refine Outcome.typed_guard fun _ => ?_
  refine hgo _ (respects_putElems fun u hu => ?_)
  rw [(List.mem_replicate.mp hu).2]
  exact hv.trans helement.symm

theorem tableCopy {k j : Nat} {t s : TableType} (r : f.Ready w (.tableCopy k j) i c o os b bs)
    (bulk : c.features.bulkMemory) (target : c.tables[k]? = some t)
    (source : c.tables[j]? = some s) (element : t.element = s.element) (held : w.Valued) :
    (execTable (.tableCopy k j) f w).Typed w f.code := by
  have htarget := r.belongs.element_table target
  have hsource := r.belongs.element_table source
  obtain ⟨d, v, n, vs, hf, -, hgo⟩ := r.three (.tableCopy bulk target source element)
  rw [← hf]
  dsimp only [execTable, pop3_withTop]
  refine Outcome.typed_guard fun _ => ?_
  refine hgo _ (respects_copyElems fun u hu => ?_)
  have hmem := Array.mem_toList_iff.mp (List.mem_of_mem_drop (List.mem_of_mem_take hu))
  rw [held.type_element hmem]
  exact (hsource.trans element.symm).trans htarget.symm

theorem tableInit {e k : Nat} {t : TableType} {s : ValType}
    (r : f.Ready w (.tableInit e k) i c o os b bs) (bulk : c.features.bulkMemory)
    (table : c.tables[k]? = some t) (segment : c.elems[e]? = some s) (element : t.element = s)
    (held : w.Valued) : (execTable (.tableInit e k) f w).Typed w f.code := by
  have htarget := r.belongs.element_table table
  obtain ⟨d, v, n, vs, hf, -, hgo⟩ := r.three (.tableInit bulk table segment element)
  rw [← hf]
  dsimp only [execTable, pop3_withTop]
  refine Outcome.typed_guard fun _ => ?_
  refine hgo _ (respects_putElems fun u hu => ?_)
  have hmem := List.mem_of_mem_drop (List.mem_of_mem_take hu)
  refine Eq.trans ?_ (element.symm.trans htarget.symm)
  exact r.belongs.types_segment held segment hmem

/-! ### Locals, globals and calls -/

theorem localGet {k : Nat} {t : ValType} (r : f.Ready w (.localGet k) i c o os b bs)
    (known : (c.withLocals (f.code.type.params ++ f.code.locals)).locals[k]? = some t) :
    (exec (.localGet k) f w).Typed w f.code := by
  have hv := r.belongs.type_local known
  exact r.push (by rw [hv]; exact .localGet known) (.refl w)

/-- A local that is set to a value of its kind. -/
theorem types_setLocal {locals : Array StoreVal} {k : Nat} {v : StoreVal}
    (hv : ∀ x, locals[k]? = some x → v.type = x.type) :
    (locals.setIfInBounds k v).toList.map Val.type = locals.toList.map Val.type := by
  refine List.ext_getElem? fun j => ?_
  simp only [List.getElem?_map, Array.getElem?_toList, Array.getElem?_setIfInBounds]
  split
  · rename_i heq
    subst heq
    split
    · rename_i hlt
      rw [Array.getElem?_eq_getElem hlt, Option.map_some, Option.map_some,
        hv _ (Array.getElem?_eq_getElem hlt)]
    · rename_i hge
      rw [Array.getElem?_eq_none (Nat.le_of_not_lt hge)]
  · rfl

theorem typed_withLocals {g : CodeFrame} {code : FuncCode} {locals : Array StoreVal}
    (h : (WasmHost.proceed g w').Typed w code)
    (hlocals : locals.toList.map Val.type = g.locals.toList.map Val.type) :
    (WasmHost.proceed { g with locals } w').Typed w code := by
  obtain ⟨hw, hcode, i, c, o, os, b, bs, belongs, hat, hrest⟩ := h
  refine ⟨hw, hcode, i, c, o, os, b, bs, ?_, hat, hrest⟩
  exact ⟨belongs.owner, belongs.linked, belongs.context, belongs.code, hlocals.trans belongs.locals⟩

/-- An instruction that takes a value for a local of its kind, and leaves some of it. -/
theorem setLocal {k : Nat} {t : ValType} (r : f.Ready w op i c o os b bs)
    (known : (c.withLocals (f.code.type.params ++ f.code.locals)).locals[k]? = some t)
    (htype : (c.withLocals (f.code.type.params ++ f.code.locals)).Types op [t] results) :
    ∃ v vs, f.withTop (v :: vs) b bs = f ∧ v.type = t ∧
      ∀ res : List StoreVal, res.map Val.type = results →
        (WasmHost.proceed { f.withTop (res.reverse ++ vs) b bs with
          locals := f.locals.setIfInBounds k v } w).Typed w f.code := by
  obtain ⟨args, vs, hf, hargs, hgo, -⟩ := r.plain htype
  obtain ⟨v, rfl, hv⟩ := exists_one hargs
  refine ⟨v, vs, hf, hv, fun res hres => typed_withLocals (hgo res w hres (.refl w)) ?_⟩
  refine types_setLocal fun x hx => hv.trans ?_
  have htype := r.belongs.type_local known
  rw [Array.getD_eq_getD_getElem?, hx, Option.getD_some] at htype
  exact htype.symm

theorem localSet {k : Nat} {t : ValType} (r : f.Ready w (.localSet k) i c o os b bs)
    (known : (c.withLocals (f.code.type.params ++ f.code.locals)).locals[k]? = some t) :
    (exec (.localSet k) f w).Typed w f.code := by
  obtain ⟨v, vs, hf, -, hgo⟩ := r.setLocal known (.localSet known)
  have hset := hgo [] rfl
  rw [← hf] at hset ⊢
  exact hset

theorem localTee {k : Nat} {t : ValType} (r : f.Ready w (.localTee k) i c o os b bs)
    (known : (c.withLocals (f.code.type.params ++ f.code.locals)).locals[k]? = some t) :
    (exec (.localTee k) f w).Typed w f.code := by
  obtain ⟨v, vs, hf, hv, hgo⟩ := r.setLocal known (.localTee known)
  have hset := hgo [v] (congrArg (fun t => [t]) hv)
  rw [← hf] at hset ⊢
  exact hset

theorem globalGet {k : Nat} {g : GlobalType} (r : f.Ready w (.globalGet k) i c o os b bs)
    (global : c.globals[k]? = some g) (held : w.Valued) :
    (exec (.globalGet k) f w).Typed w f.code := by
  have hv := held.type_global (r.belongs.has_global global)
  exact r.push (by rw [hv]; exact .globalGet global) (.of_objects (objects_exposeVal _ w))

theorem globalSet {k : Nat} {g : GlobalType} (r : f.Ready w (.globalSet k) i c o os b bs)
    (global : c.globals[k]? = some g) (isMutable : g.isMutable) :
    (exec (.globalSet k) f w).Typed w f.code := by
  obtain ⟨_, known, rfl⟩ := r.belongs.has_global global
  obtain ⟨args, vs, hf, hargs, hgo, -⟩ := r.plain (.globalSet global isMutable)
  obtain ⟨v, rfl, hv⟩ := exists_one hargs
  have hcontent : v.type = (w.globalType (f.address w (·.globals) k)).content := by
    rw [globalType, known, Option.map_some, Option.getD_some, hv]
  rw [← hf]
  exact hgo [] _ rfl (respects_putGlobal hcontent)

theorem call {k : Nat} {t : FuncType} (r : f.Ready w (.call k) i c o os b bs)
    (func : c.funcs[k]? = some t) : (exec (.call k) f w).Typed w f.code := by
  obtain ⟨g, hg, rfl⟩ := r.belongs.has_func func
  obtain ⟨args, vs, hf, hargs, -, hawaits⟩ := r.plain (.call func)
  have hcount : ((w.store.funcs[f.address w (·.funcs) k]?).map (·.type.params.length)).getD 0 =
      args.length := by
    rw [hg, Option.map_some, Option.getD_some, ← hargs, List.length_map]
  have hpop : f.popMany args.length = (args, f.withTop vs b bs) := by
    rw [← hf]
    exact popMany_withTop args vs b bs f
  simp only [exec, hcount, hpop]
  exact ⟨.refl w, rfl, g, hg, hargs, hawaits⟩

theorem blockType_index (h : f.Belongs w i c) {n : Nat} {t : FuncType} (ht : c.types[n]? = some t) :
    f.blockType w (.index n) = t := by
  obtain ⟨features, -, rfl⟩ := h.context
  simp only [Wasm.Module.context, List.getElem?_toArray] at ht
  simp only [CodeFrame.blockType, h.owner, Option.bind_some, ht, Option.getD_some]

theorem callIndirect {n k : Nat} {t : TableType} {type : FuncType}
    (r : f.Ready w (.callIndirect n k) i c o os b bs) (table : c.tables[k]? = some t)
    (known : c.types[n]? = some type) (element : t.element = .funcref) :
    (exec (.callIndirect n k) f w).Typed w f.code := by
  have hwanted : f.blockType w (.index n) = type := blockType_index r.belongs known
  obtain ⟨args, vs, hf, hargs, -, hawaits⟩ := r.plain (.callIndirect table known element)
  obtain ⟨args', last, rfl, htypes, hlast⟩ := List.map_eq_append_iff.mp hargs
  obtain ⟨index, rfl, -⟩ := exists_one hlast
  rw [List.reverse_append] at hf
  have hbits : f.popBits = (index.toBits, f.withTop (args'.reverse ++ vs) b bs) := by
    rw [← hf]
    rfl
  have hcount : type.params.length = args'.length := by rw [← htypes, List.length_map]
  simp only [exec, execCallIndirect, hbits, hwanted, hcount, popMany_withTop]
  split
  · exact Outcome.typed_trap _ _ _ (.refl w)
  · rename_i func _
    refine Outcome.typed_guard fun heq => ?_
    obtain ⟨g, hg, rfl⟩ := Option.map_eq_some_iff.mp heq
    exact ⟨.refl w, rfl, g, hg, htypes, hawaits⟩
  · exact Outcome.typed_trap _ _ _ (.refl w)

theorem numeric {num : Wasm.NumOp} (r : f.Ready w (.numeric num) i c o os b bs) :
    (exec (.numeric num) f w).Typed w f.code := by
  obtain ⟨blocks', hcheck, hnext⟩ := r.belongs.code.checked r.place r.instruction
  obtain ⟨_, _, o', htype, happly, rfl⟩ := Wasm.Context.types_of_checkOp hcheck trivial
  cases htype
  obtain ⟨rest, hrest, hexact⟩ := r.operands.apply happly
  simp only [exec, r.blocks]
  split
  · rename_i stack hstack
    have htypes := Wasm.NumOp.types_apply hrest hstack
    exact r.proceed hnext (Wasm.OpenBlock.same_of_apply happly) (by rw [htypes]; exact hexact)
      (.refl w)
  · exact Outcome.typed_trap _ _ _ (.refl w)

/-- All instructions that look at nothing but their operands. -/
theorem execPlain (r : f.Ready w op i c o os b bs) (hplain : op.IsPlain) (held : w.Valued) :
    (exec op f w).Typed w f.code := by
  obtain ⟨_, _, htype⟩ := r.types hplain
  cases htype with
  | nop => exact r.skip .nop (.refl w)
  | call func => exact r.call func
  | callIndirect table type element => exact r.callIndirect table type element
  | localGet known => exact r.localGet known
  | localSet known => exact r.localSet known
  | localTee known => exact r.localTee known
  | globalGet global => exact r.globalGet global held
  | globalSet global isMutable => exact r.globalSet global isMutable
  | tableGet references table => exact r.tableGet references table held
  | tableSet references table => exact r.tableSet references table
  | tableSize references table => exact r.push (.tableSize references table) (.refl w)
  | tableGrow references table => exact r.tableGrow references table
  | tableFill bulk references table => exact r.tableFill bulk references table
  | tableCopy bulk target source element => exact r.tableCopy bulk target source element held
  | tableInit bulk table segment element => exact r.tableInit bulk table segment element held
  | elemDrop bulk segment =>
      exact r.skip (.elemDrop bulk segment) (respects_dropSegment _ (fun _ => by rfl) w)
  | refNull references =>
      exact r.push (by rw [Val.type_default]; exact .refNull references) (.refl w)
  | refFunc references referable => exact r.push (.refFunc references referable) (.refl w)
  | load place => exact r.execLoad _ (.load place) _
  | atomicLoad threads place align =>
      exact r.execLoad ⟨.i32, 4, .unsigned⟩ (.atomicLoad threads place align) _
  | store place => exact r.execStore place
  | memorySize memory => exact r.push (.memorySize memory) (.refl w)
  | memoryGrow memory => exact r.memoryGrow memory
  | memoryFill bulk memory => exact r.memoryFill bulk memory
  | memoryCopy bulk target source => exact r.memoryCopy bulk target source
  | memoryInit bulk memory count there => exact r.memoryInit bulk memory count there
  | dataDrop bulk count there =>
      exact r.skip (.dataDrop bulk count there) (respects_dropSegment _ (fun _ => by rfl) w)
  | i32Const bits => exact r.push (.i32Const bits) (.refl w)
  | i64Const bits => exact r.push (.i64Const bits) (.refl w)
  | f32Const bits => exact r.push (.f32Const bits) (.refl w)
  | f64Const bits => exact r.push (.f64Const bits) (.refl w)
  | numeric => exact r.numeric

end Plain

end CodeFrame.Ready

end WasmHost

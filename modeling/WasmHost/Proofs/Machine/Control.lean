import WasmHost.Proofs.Machine.Instructions

/-!
# Steps of well typed frames

A branch takes along the operands that its target wants, and the block that is left goes on where
they fit. With that, whatever a well typed frame does next is well typed.
-/

namespace WasmHost

open World CodeFrame
open Wasm (OpenBlock)

variable {w w' : World} {f : CodeFrame} {i : Instance} {c : Wasm.Context} {b : RunBlock}
  {bs : List RunBlock} {o o' : OpenBlock} {os : List OpenBlock} {stack : List StoreVal}

/-- Worlds with the same objects type the same outcomes. -/
theorem Outcome.Typed.of_objects {code : FuncCode} {out : Outcome} (h : out.Typed w' code)
    (hw : w'.objects = w.objects) : out.Typed w code :=
  ⟨(Respects.of_objects hw).trans h.1, h.2⟩

/-! ## Branches -/

/-- A branch to a block for which the frame has the operands. -/
theorem CodeFrame.Belongs.branch (h : f.Belongs w i c) (nested : f.code.Nested c b o bs os)
    (hblocks : f.blocks = b :: bs) {label : Nat} {target : OpenBlock} {rest : List ValType}
    (htarget : (o :: os)[label]? = some target)
    (hstack : b.stack.map Val.type = target.labelTypes.reverse ++ rest) :
    (f.branch label w).Typed w f.code := by
  obtain ⟨args, vs, hargs, htypes, -⟩ := exists_operands hstack
  obtain ⟨b', hb', hnested⟩ := nested.drop htarget
  have htake : b.stack.take b'.arity = args.reverse := by
    rw [hargs, hnested.arity, ← htypes, List.length_map, ← List.length_reverse, List.take_left]
  unfold CodeFrame.branch
  simp only [hblocks, hb', htake, List.drop_succ_cons]
  generalize bs.drop label = bs' at hnested ⊢
  generalize os.drop label = os' at hnested
  cases hnested with
  | body _ _ hlabel =>
      refine ⟨.of_objects rfl, ?_⟩
      dsimp only [leave]
      rw [List.reverse_reverse, htypes, hlabel]
  | @inner _ outer _ o' bs os _ place operands hnested =>
      refine ⟨.refl w, rfl, i, c, _, os, _, bs,
        ⟨h.owner, h.linked, h.context, h.code, h.locals⟩, place, rfl,
        hnested.same rfl rfl (Wasm.OpenBlock.same_pushAll _ _), .inl ?_⟩
      rw [List.map_append, List.map_reverse, htypes]
      exact operands.pushAll _

/-- The signature of a block at run time is that of its typing. -/
theorem CodeFrame.Belongs.blockType (h : f.Belongs w i c) {t : Wasm.BlockType} {type : FuncType}
    {locals : List ValType} (ht : (c.withLocals locals).blockType? t = some type) :
    f.blockType w t = type := by
  cases t with
  | empty => exact Option.some.inj ht
  | value t =>
      simp only [Wasm.Context.blockType?, Option.ite_none_right_eq_some, Option.some.injEq] at ht
      exact ht.2
  | index n =>
      simp only [Wasm.Context.blockType?, Option.ite_none_right_eq_some] at ht
      exact Ready.blockType_index h ht.2

/-! ## Opening and closing blocks -/

theorem CodeFrame.pc_popMany (n : Nat) (f : CodeFrame) : (f.popMany n).2.pc = f.pc := by
  induction n generalizing f with
  | zero => rfl
  | succ n ih =>
      simp only [popMany, ih, pop]
      split <;> rfl

theorem CodeFrame.advance_openBlock (next arity params : Nat) (f : CodeFrame) :
    (f.openBlock next arity params).advance =
      { f.openBlock next arity params with pc := f.pc + 1 } := by
  simp only [advance, openBlock, pc_popMany]

/-- A block that is opened takes its parameters along. Its code goes on at a place where they are
its operands, or where it ends and they are its results. -/
theorem CodeFrame.Belongs.typed_opened (h : f.Belongs w i c) (nested : f.code.Nested c b o bs os)
    {type : FuncType} {label : List ValType} {o₁ o₂ inner : OpenBlock} (same : o.Same o₁)
    (operands : o₁.Exactly (stack.map Val.type)) (hpop : o₁.popAll type.params = some o₂)
    {next pc : Nat} (htarget : f.code.At c next (o₂.pushAll label :: os))
    (hlabel : inner.labelTypes = label) (hat : f.code.At c pc (inner :: o₂ :: os))
    (hinner : inner.Exactly type.params.reverse ∨
      f.code.ops[pc]? = some .done ∧ type.params = inner.type.results) :
    (Outcome.next { (f.withTop stack b bs).openBlock next label.length type.params.length with
      pc } w).Typed w f.code := by
  subst hlabel
  obtain ⟨rest, hstack, rfl⟩ := operands.popAll hpop
  obtain ⟨args, vs, rfl, hargs, rfl⟩ := exists_operands hstack
  simp only [CodeFrame.openBlock, ← hargs, List.length_map, popMany_withTop]
  refine ⟨.refl w, rfl, i, c, inner, _, _, _,
    ⟨h.owner, h.linked, h.context, h.code, h.locals⟩, hat, rfl,
    .inner rfl htarget (operands.withStack _)
      (nested.same rfl rfl (same.trans (Wasm.OpenBlock.same_withStack _ _))), ?_⟩
  dsimp only
  rw [List.map_reverse, hargs]
  exact hinner.imp id fun ⟨hdone, heq⟩ => ⟨hdone, congrArg List.reverse heq⟩

/-- At the end of a block its results go to the operands around it. -/
theorem CodeFrame.Belongs.done (h : f.Belongs w i c) (hat : f.code.At c f.pc (o :: os))
    (hop : f.code.ops[f.pc]? = some .done) (hblocks : f.blocks = b :: bs)
    (nested : f.code.Nested c b o bs os) (hstack : b.stack.map Val.type = o.type.results.reverse) :
    (exec .done f w).Typed w f.code := by
  cases nested with
  | body _ hresults _ =>
      simp only [exec, hblocks]
      refine ⟨.of_objects rfl, ?_⟩
      dsimp only [leave]
      rw [List.map_reverse, hstack, List.reverse_reverse, hresults]
  | inner _ _ operands outer =>
      simp only [exec, hblocks]
      refine ⟨.refl w, rfl, i, c, _, _, _, _,
        ⟨h.owner, h.linked, h.context, h.code, h.locals⟩, h.code.after_done hat hop, rfl,
        outer.same rfl rfl (Wasm.OpenBlock.same_pushAll _ _), .inl ?_⟩
      rw [List.map_append, hstack]
      exact operands.pushAll _

namespace CodeFrame.Ready

variable {op : Wasm.Op}

theorem checked (r : f.Ready w op i c o os b bs) : ∃ blocks',
    (c.withLocals (f.code.type.params ++ f.code.locals)).checkOp (o :: os) op = some blocks' ∧
      f.code.At c (f.pc + 1) blocks' := r.belongs.code.checked r.place r.instruction

theorem block {t : Wasm.BlockType} (r : f.Ready w (.block t) i c o os b bs) :
    (exec (.block t) f w).Typed w f.code := by
  obtain ⟨blocks', hcheck, hnext⟩ := r.checked
  obtain ⟨type, o₁, htype, hpop, rfl⟩ := Wasm.Context.openBlock_eq hcheck
  have hsame := Wasm.OpenBlock.same_pushAll type.params { kind := .block, type }
  obtain ⟨b', hb', hat, hdone⟩ := r.belongs.code.at_donePlace r.instruction trivial hnext
  have htarget := r.belongs.code.after_done hat hdone
  rw [hb', hsame.type] at htarget
  have h := r.belongs.typed_opened r.nested (.refl o) r.operands hpop htarget hsame.labelTypes hnext
    (.inl (.opened .block type))
  rw [withTop_self r.blocks] at h
  simp only [exec, r.belongs.blockType htype, WasmHost.proceed, advance_openBlock]
  exact h

/-- The checks at a checkpoint change nothing that is typed. -/
theorem check_outcome (f : CodeFrame) (w : World) :
    (∃ w', f.check w = .next f w' ∧ w'.objects = w.objects) ∨
      ∃ cause g w', f.check w = .trap cause g w' ∧ w'.objects = w.objects := by
  have hmet := objects_meetDeadline w
  unfold CodeFrame.check
  split
  · exact .inr ⟨_, _, _, rfl, rfl⟩
  · split
    · split <;> rename_i hmeet <;> rw [hmeet] at hmet
      · exact .inr ⟨_, _, _, rfl, hmet⟩
      · exact .inl ⟨_, rfl, hmet⟩
    · exact .inl ⟨w, rfl, rfl⟩

/-- The same frame in a world with the same objects. -/
theorem of_objects (r : f.Ready w op i c o os b bs) (hw : w'.objects = w.objects) :
    ∃ i', f.Ready w' op i' c o os b bs := by
  obtain ⟨i', belongs⟩ := r.belongs.extends (.of_objects hw)
  exact ⟨i', belongs, r.place, r.instruction, r.blocks, r.nested, r.operands⟩

theorem loop {t : Wasm.BlockType} (r : f.Ready w (.loop t) i c o os b bs) :
    (exec (.loop t) f w).Typed w f.code := by
  rcases check_outcome f w with ⟨w', hcheck, hw⟩ | ⟨cause, g, w', hcheck, hw⟩
  · obtain ⟨i', r⟩ := r.of_objects hw
    obtain ⟨blocks', hchecked, hnext⟩ := r.checked
    obtain ⟨type, o₁, htype, hpop, rfl⟩ := Wasm.Context.openBlock_eq hchecked
    have hsame := Wasm.OpenBlock.same_pushAll type.params { kind := .loop, type }
    -- a branch to the loop finds its parameters on the operands around it, as they are now
    have htarget : f.code.At c f.pc (o₁.pushAll type.params :: os) := by
      rw [r.operands.pushAll_popAll hpop]
      exact r.place
    have h := r.belongs.typed_opened r.nested (.refl o) r.operands hpop htarget hsame.labelTypes
      hnext (.inl (.opened .loop type))
    rw [withTop_self r.blocks] at h
    simp only [exec, hcheck, r.belongs.blockType htype, WasmHost.proceed, advance_openBlock]
    exact h.of_objects hw
  · simp only [exec, hcheck]
    exact Outcome.typed_trap _ _ _ (.of_objects hw)

theorem ifThen {t : Wasm.BlockType} (r : f.Ready w (.ifThen t) i c o os b bs) :
    (exec (.ifThen t) f w).Typed w f.code := by
  obtain ⟨blocks', hcheck, hnext⟩ := r.checked
  simp only [Wasm.Context.checkOp, Option.bind_eq_bind, Option.bind_eq_some_iff] at hcheck
  obtain ⟨o₁, hcond, hcheck⟩ := hcheck
  obtain ⟨type, o₂, htype, hpop, rfl⟩ := Wasm.Context.openBlock_eq hcheck
  obtain ⟨rest, hstack, rfl⟩ := r.operands.pop hcond
  obtain ⟨v, vs, hv, -, rfl⟩ := List.map_eq_cons_iff.mp hstack
  have hexact := r.operands.withStack (vs.map Val.type)
  have hsame := Wasm.OpenBlock.same_pushAll type.params { kind := .ifThen, type }
  obtain ⟨b', hb', hat, hdone⟩ := r.belongs.code.at_donePlace r.instruction trivial hnext
  have htarget := r.belongs.code.after_done hat hdone
  rw [hb', hsame.type] at htarget
  have hopened {pc : Nat} {inner : OpenBlock} (hlabel : inner.labelTypes = type.results)
      (hplace : f.code.At c pc (inner :: o₂ :: os))
      (hfits : inner.Exactly type.params.reverse ∨
        f.code.ops[pc]? = some .done ∧ type.params = inner.type.results) :=
    r.belongs.typed_opened r.nested (Wasm.OpenBlock.same_withStack _ _) hexact hpop htarget hlabel
      hplace hfits
  have hbits : f.popBits = (v.toBits, f.withTop vs b bs) := popBits_eq r.blocks hv
  simp only [exec, hbits, r.belongs.blockType htype]
  split
  · rw [WasmHost.proceed, advance_openBlock]
    exact hopened hsame.labelTypes hnext (.inl (.opened .ifThen type))
  · obtain ⟨inner, hlabel, ⟨helse, hplace, hinner⟩ | ⟨hend, hplace, hparams⟩⟩ :=
      r.belongs.code.other_branch r.instruction hnext
    · dsimp only [withTop]
      rw [FuncCode.Typed.code_getD helse, if_pos rfl]
      exact hopened hlabel hplace (.inl hinner)
    · dsimp only [withTop]
      rw [FuncCode.Typed.code_getD hend, if_neg (by simp)]
      exact hopened hlabel hplace (.inr ⟨hend, hparams⟩)

theorem orElse (r : f.Ready w .orElse i c o os b bs) : (exec .orElse f w).Typed w f.code := by
  obtain ⟨blocks', hcheck, -⟩ := r.checked
  simp only [Wasm.Context.checkOp, Option.bind_eq_bind, Option.bind_eq_some_iff,
    Option.ite_none_right_eq_some] at hcheck
  obtain ⟨-, type, hclose, -⟩ := hcheck
  obtain ⟨b', htype, hlabel, hat, hdone⟩ := r.belongs.code.done_of_orElse r.place r.instruction
  have h := r.belongs
  refine ⟨.refl w, rfl, i, c, b', os, b, bs, ⟨h.owner, h.linked, h.context, h.code, h.locals⟩, hat,
    r.blocks, r.nested.alike rfl rfl htype hlabel, .inr ⟨hdone, ?_⟩⟩
  rw [r.operands.close hclose, htype]

theorem done (r : f.Ready w .done i c o os b bs) : (exec .done f w).Typed w f.code := by
  obtain ⟨blocks', hcheck, -⟩ := r.checked
  simp only [Wasm.Context.checkOp, Option.bind_eq_bind, Option.bind_eq_some_iff] at hcheck
  obtain ⟨type, hclose, -⟩ := hcheck
  exact r.belongs.done r.place r.instruction r.blocks r.nested (r.operands.close hclose)

/-! ## Jumps -/

/-- A branch by a frame that has taken the number that decides about it. -/
theorem branch_withTop (r : f.Ready w op i c o os b bs) {label : Nat} {target : OpenBlock}
    {rest : List ValType} (htarget : (o :: os)[label]? = some target)
    (hstack : stack.map Val.type = target.labelTypes.reverse ++ rest) :
    ((f.withTop stack b bs).branch label w).Typed w f.code := by
  have h := r.belongs
  exact Belongs.branch (f := f.withTop stack b bs) (b := { b with stack })
    ⟨h.owner, h.linked, h.context, h.code, h.locals⟩ (r.nested.same rfl rfl (.refl o)) rfl htarget
    hstack

theorem br {l : Nat} (r : f.Ready w (.br l) i c o os b bs) : (exec (.br l) f w).Typed w f.code := by
  obtain ⟨blocks', hcheck, -⟩ := r.checked
  simp only [Wasm.Context.checkOp, Option.bind_eq_bind, Option.bind_eq_some_iff] at hcheck
  obtain ⟨target, htarget, _, hpop, -⟩ := hcheck
  obtain ⟨rest, hstack, -⟩ := r.operands.popAll hpop
  exact r.belongs.branch r.nested r.blocks htarget hstack

theorem brIf {l : Nat} (r : f.Ready w (.brIf l) i c o os b bs) :
    (exec (.brIf l) f w).Typed w f.code := by
  obtain ⟨blocks', hcheck, hnext⟩ := r.checked
  simp only [Wasm.Context.checkOp, Option.bind_eq_bind, Option.bind_eq_some_iff, Option.pure_def,
    Option.some.injEq] at hcheck
  obtain ⟨target, htarget, _, hcond, o', happly, rfl⟩ := hcheck
  obtain ⟨_, hstack, rfl⟩ := r.operands.pop hcond
  obtain ⟨v, vs, hv, -, rfl⟩ := List.map_eq_cons_iff.mp hstack
  obtain ⟨rest, htypes, hexact⟩ := (r.operands.withStack (vs.map Val.type)).apply happly
  have hbits : f.popBits = (v.toBits, f.withTop vs b bs) := popBits_eq r.blocks hv
  simp only [exec, hbits]
  split
  · exact r.branch_withTop htarget htypes
  · rw [← htypes] at hexact
    exact r.proceed hnext ((Wasm.OpenBlock.same_withStack _ _).trans
      (Wasm.OpenBlock.same_of_apply happly)) hexact (.refl w)

/-- Every member of a list passes a check that the whole list passes. -/
theorem exists_of_mapM {α β : Type} {g : α → Option β} {l : List α} {rs : List β}
    (h : l.mapM g = some rs) {a : α} (ha : a ∈ l) : ∃ r ∈ rs, g a = some r := by
  induction l generalizing rs with
  | nil => cases ha
  | cons x l ih =>
      rw [List.mapM_cons] at h
      obtain ⟨r, hr, h⟩ := Option.bind_eq_some_iff.mp h
      obtain ⟨rs', hrs, h⟩ := Option.bind_eq_some_iff.mp h
      cases h
      rcases List.mem_cons.mp ha with rfl | ha
      · exact ⟨r, List.mem_cons_self, hr⟩
      · obtain ⟨r', hr', hg⟩ := ih hrs ha
        exact ⟨r', List.mem_cons_of_mem r hr', hg⟩

theorem brTable {ls : List Nat} {l : Nat} (r : f.Ready w (.brTable ls l) i c o os b bs) :
    (exec (.brTable ls l) f w).Typed w f.code := by
  obtain ⟨blocks', hcheck, hnext⟩ := r.checked
  simp only [Wasm.Context.checkOp, Option.bind_eq_bind, Option.bind_eq_some_iff, Option.pure_def,
    Option.some.injEq, Option.ite_none_right_eq_some, List.all_eq_true, id_eq] at hcheck
  obtain ⟨o₁, hcond, target, htarget, fits, hfits, hall, o₂, hpop, rfl⟩ := hcheck
  obtain ⟨_, hstack, rfl⟩ := r.operands.pop hcond
  obtain ⟨v, vs, hv, -, rfl⟩ := List.map_eq_cons_iff.mp hstack
  have hbits : f.popBits = (v.toBits, f.withTop vs b bs) := popBits_eq r.blocks hv
  -- all labels of the table find their operands, the one for what is beyond it too
  have hlabel : ∃ target o₃, (o :: os)[ls.getD v.toBits l]? = some target ∧
      (o.withStack ((vs.map Val.type).map some)).popAll target.labelTypes = some o₃ := by
    rw [List.getD_eq_getElem?_getD]
    cases hget : ls[v.toBits]? with
    | none => exact ⟨target, o₂, htarget, hpop⟩
    | some k =>
        obtain ⟨fit, hmem, hfit⟩ := exists_of_mapM hfits (List.mem_of_getElem? hget)
        simp only [Option.bind_eq_some_iff, Option.some.injEq] at hfit
        obtain ⟨target', htarget', rfl⟩ := hfit
        have hpops := hall _ hmem
        simp only [Bool.and_eq_true] at hpops
        obtain ⟨o₃, hpop'⟩ := Option.isSome_iff_exists.mp hpops.2
        exact ⟨target', o₃, htarget', hpop'⟩
  obtain ⟨target', o₃, htarget', hpop'⟩ := hlabel
  obtain ⟨rest, htypes, -⟩ := (r.operands.withStack (vs.map Val.type)).popAll hpop'
  simp only [exec, hbits]
  exact r.branch_withTop htarget' htypes

theorem ret (r : f.Ready w .ret i c o os b bs) : (exec .ret f w).Typed w f.code := by
  obtain ⟨blocks', hcheck, -⟩ := r.checked
  simp only [Wasm.Context.checkOp, Option.bind_eq_bind, Option.bind_eq_some_iff] at hcheck
  obtain ⟨body, hbody, _, hpop, -⟩ := hcheck
  obtain ⟨target, htarget, hlast, hresults, hlabel⟩ := r.nested.outermost
  cases hlast.symm.trans hbody
  obtain ⟨rest, hstack, -⟩ := r.operands.popAll hpop
  rw [hresults, ← hlabel] at hstack
  have hlength : f.blocks.length - 1 = bs.length := by rw [r.blocks, List.length_cons,
    Nat.add_sub_cancel]
  simp only [exec, hlength]
  exact r.belongs.branch r.nested r.blocks htarget hstack

/-! ## Operands of any kind -/

theorem drop (r : f.Ready w .drop i c o os b bs) : (exec .drop f w).Typed w f.code := by
  obtain ⟨blocks', hcheck, hnext⟩ := r.checked
  simp only [Wasm.Context.checkOp, Option.bind_eq_bind, Option.bind_eq_some_iff, Option.pure_def,
    Option.some.injEq] at hcheck
  obtain ⟨⟨_, o'⟩, hpop, rfl⟩ := hcheck
  obtain ⟨_, _, hstack, -, rfl⟩ := r.operands.popAny hpop
  obtain ⟨v, vs, hv, -, rfl⟩ := List.map_eq_cons_iff.mp hstack
  simp only [exec, pop_eq r.blocks hv]
  exact r.proceed hnext (Wasm.OpenBlock.same_withStack _ _) (r.operands.withStack _) (.refl w)

theorem refIsNull (r : f.Ready w .refIsNull i c o os b bs) :
    (exec .refIsNull f w).Typed w f.code := by
  obtain ⟨blocks', hcheck, hnext⟩ := r.checked
  simp only [Wasm.Context.checkOp, Option.bind_eq_bind, Option.bind_eq_some_iff, Option.pure_def,
    Option.some.injEq, Option.ite_none_right_eq_some] at hcheck
  obtain ⟨⟨_, o'⟩, hpop, -, rfl⟩ := hcheck
  obtain ⟨_, _, hstack, -, rfl⟩ := r.operands.popAny hpop
  obtain ⟨v, vs, hv, -, rfl⟩ := List.map_eq_cons_iff.mp hstack
  simp only [exec, pop_eq r.blocks hv, push_withTop]
  exact r.proceed hnext (Wasm.OpenBlock.same_withStack _ _) (r.operands.withStack (.i32 :: _))
    (.refl w)

theorem selectTyped {ts : List ValType} (r : f.Ready w (.selectTyped ts) i c o os b bs) :
    (exec (.selectTyped ts) f w).Typed w f.code := by
  obtain ⟨blocks', hcheck, hnext⟩ := r.checked
  rcases ts with _ | ⟨t, _ | ⟨u, ts⟩⟩ <;> simp only [Wasm.Context.checkOp, Option.bind_eq_bind,
    Option.ite_none_right_eq_some, Option.bind_eq_some_iff, Option.pure_def, Option.some.injEq,
    reduceCtorEq] at hcheck
  obtain ⟨-, o', happly, rfl⟩ := hcheck
  obtain ⟨args, vs, hf, hargs, hgo, -⟩ := r.apply happly hnext
  obtain ⟨x, y, n, rfl, hx, hy, -⟩ := exists_three hargs
  rw [← hf]
  refine hgo [if n.toBits ≠ 0 then x else y] w ?_ (.refl w)
  rw [List.map_singleton]
  split
  · rw [hx]
  · rw [hy]

theorem select (r : f.Ready w .select i c o os b bs) : (exec .select f w).Typed w f.code := by
  obtain ⟨blocks', hcheck, hnext⟩ := r.checked
  simp only [Wasm.Context.checkOp, Option.bind_eq_bind, Option.bind_eq_some_iff, Option.pure_def,
    Option.some.injEq, Option.ite_none_left_eq_some] at hcheck
  obtain ⟨o₁, hcond, ⟨t, o₂⟩, hpop, ⟨u, o₃⟩, hpop', hfits, rfl⟩ := hcheck
  obtain ⟨_, hstack, rfl⟩ := r.operands.pop hcond
  obtain ⟨n, ns, hn, -, rfl⟩ := List.map_eq_cons_iff.mp hstack
  have hexact := r.operands.withStack (ns.map Val.type)
  obtain ⟨_, _, hstack, rfl, rfl⟩ := hexact.popAny hpop
  obtain ⟨y, ys, rfl, rfl, rfl⟩ := List.map_eq_cons_iff.mp hstack
  have hexact := hexact.withStack (ys.map Val.type)
  obtain ⟨_, _, hstack, rfl, rfl⟩ := hexact.popAny hpop'
  obtain ⟨x, xs, rfl, rfl, rfl⟩ := List.map_eq_cons_iff.mp hstack
  simp only [Option.isSome_some, true_and, not_or, ne_eq, Option.some.injEq,
    Decidable.not_not] at hfits
  have hbits : f.popBits = (n.toBits, f.withTop (y :: x :: xs) b bs) := popBits_eq r.blocks hn
  simp only [exec, hbits, pop_withTop, push_withTop]
  have hgo (z : StoreVal) (hz : z.type = y.type) :
      (WasmHost.proceed (f.withTop (z :: xs) b bs) w).Typed w f.code := by
    have hleft := r.operands.withStack (y.type :: xs.map Val.type)
    rw [← hz] at hleft
    refine r.proceed hnext (Wasm.OpenBlock.same_withStack _ _) ?_ (.refl w)
    rw [← hz]
    exact hleft
  split
  · exact hgo x hfits.2.2.symm
  · exact hgo y rfl

/-! ## Steps -/

/-- Whatever instruction comes next. -/
theorem exec (r : f.Ready w op i c o os b bs) (held : w.Valued) :
    (WasmHost.exec op f w).Typed w f.code := by
  by_cases hplain : op.IsPlain
  · exact r.execPlain hplain held
  · cases op <;> first | exact absurd trivial hplain | skip
    case unreachable => exact Outcome.typed_trap _ _ _ (.refl w)
    case block => exact r.block
    case loop => exact r.loop
    case ifThen => exact r.ifThen
    case orElse => exact r.orElse
    case done => exact r.done
    case br => exact r.br
    case brIf => exact r.brIf
    case brTable => exact r.brTable
    case ret => exact r.ret
    case drop => exact r.drop
    case select => exact r.select
    case selectTyped => exact r.selectTyped
    case refIsNull => exact r.refIsNull

end CodeFrame.Ready

namespace CodeFrame

/-- What a frame has spent does not matter. -/
theorem Typed.spends (h : f.Typed w) (entered : Bool) (owed burned : Nat) :
    { f with entered, owed, burned }.Typed w := by
  obtain ⟨i, c, o, os, b, bs, belongs, hrest⟩ := h
  exact ⟨i, c, o, os, b, bs,
    ⟨belongs.owner, belongs.linked, belongs.context, belongs.code, belongs.locals⟩, hrest⟩

/-- A step of a well typed frame. -/
theorem Typed.step (h : f.Typed w) (held : w.Valued) : (f.step w).Typed w f.code := by
  by_cases hentered : f.entered
  · obtain ⟨i, c, o, os, b, bs, belongs, hat, -⟩ := id h
    obtain ⟨op, _, hop, -⟩ := belongs.code.instruction hat
    obtain ⟨owed, burned, w', hstep, hw, -⟩ := step_exec hentered hop w
    rw [hstep]
    have h := (h.spends f.entered owed burned).extends (.of_objects hw)
    have held := (Respects.of_objects hw).valued held
    obtain ⟨i, c, o, os, b, bs, belongs, hat, hblocks, nested, hexact | ⟨hdone, hresults⟩⟩ := h
    · have r : Ready w' { f with owed, burned } op i c o os b bs :=
        ⟨belongs, hat, hop, hblocks, nested, hexact⟩
      exact (r.exec held).of_objects hw
    · obtain rfl := Option.some.inj (hop.symm.trans hdone)
      exact (belongs.done hat hdone hblocks nested hresults).of_objects hw
  · simp only [CodeFrame.step, hentered, Bool.not_false, if_true]
    rcases Ready.check_outcome f.reckon w with ⟨w', hcheck, hw⟩ | ⟨cause, g, w', hcheck, hw⟩
    · rw [hcheck]
      exact ⟨.of_objects hw, rfl, (h.spends true 0 (f.burned + f.owed)).extends (.of_objects hw)⟩
    · rw [hcheck]
      exact Outcome.typed_trap _ _ _ (.of_objects hw)

end CodeFrame

end WasmHost

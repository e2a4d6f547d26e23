import WasmHost.Machine.Code
import WasmHost.Proofs.Embedding.Steps
import WasmHost.Proofs.Wasm.Depth

/-!
# Code that is well typed

The code of a compiled module is well typed: the open blocks at each of its places are known, and a
block that is left goes on behind its `done`, with its results on the operands around it.
-/

namespace WasmHost

namespace FuncCode

/-- The block of the whole body. -/
def bodyBlock (code : FuncCode) : Wasm.OpenBlock :=
  { kind := .block, type := ⟨[], code.type.results⟩ }

/-- The open blocks at a place of the code, in a module with the given context. -/
def At (c : Wasm.Context) (code : FuncCode) (pc : Nat) (blocks : List Wasm.OpenBlock) : Prop :=
  Wasm.BlocksAt (c.withLocals (code.type.params ++ code.locals)) [code.bodyBlock] code.ops.toList pc
    blocks

/-- The code is well typed in a module with the given context. -/
structure Typed (c : Wasm.Context) (code : FuncCode) : Prop where
  closes : code.ops.toList.foldlM
    (c.withLocals (code.type.params ++ code.locals)).checkOp [code.bodyBlock] = some []
  partners : ∀ (pc : Nat) (op : Wasm.Op), code.ops[pc]? = some op → op.HasPartner →
    ∃ inner outer, code.At c (pc + 1) (inner :: outer) ∧
      Wasm.ClosedAt (c.withLocals (code.type.params ++ code.locals)) [code.bodyBlock]
        code.ops.toList (code.partners.getD pc 0) inner outer

end FuncCode

open Wasm (OpenBlock)

/-! ## Compiled modules -/

theorem FuncCode.typed_make {c : Wasm.Context} {type : FuncType} {code : Wasm.Code}
    (h : (c.withLocals (type.params ++ code.allLocals)).checkBody type code.body) (index : Nat)
    (layout : Wasm.Layout) : (FuncCode.make index type code layout).Typed c := by
  refine ⟨Wasm.Context.closes_of_checkBody h, fun pc op hop hpartner => ?_⟩
  exact (Wasm.Context.scans_of_checkBody h).closing .zero |>.ahead pc op (Nat.zero_le pc)
    (by simpa [FuncCode.make] using hop) hpartner

/-- A module with the features under which it is valid. -/
structure CompiledModule.ValidFor (f : Wasm.Features) (m : CompiledModule) : Prop where
  made : m.WellMade
  valid : m.module.isValid f
  codes : ∀ code ∈ m.codes, code.Typed (m.module.context f)

theorem CompiledModule.IsCompiled.valid {m : CompiledModule} (h : m.IsCompiled) :
    ∃ f, m.ValidFor f := by
  obtain ⟨o, bytes, h⟩ := h
  have valid : m.module.isValid o.languageFeatures := by
    obtain ⟨module, layouts, -, valid, -, rfl⟩ := ofBinary_eq_ok.mp h
    exact (Wasm.Module.isValid_iff _ _).mpr valid
  refine ⟨o.languageFeatures, wellMade_ofBinary h, valid, fun code hcode => ?_⟩
  obtain ⟨k, hk⟩ := Array.mem_iff_getElem?.mp hcode
  obtain ⟨type, body, layout, -, -, rfl, checked⟩ := made_of_ofBinary h hk
  exact FuncCode.typed_make checked _ _

theorem CompiledModule.ValidFor.checks {m : CompiledModule} {f : Wasm.Features}
    (h : m.ValidFor f) : m.module.Valid f := (Wasm.Module.isValid_iff _ _).mp h.valid

theorem CompiledModule.IsCompiled.enclosed {m : CompiledModule} (h : m.IsCompiled) :
    ∀ code ∈ m.codes, code.Enclosed := by
  obtain ⟨o, bytes, h⟩ := h
  exact enclosed_ofBinary h

/-! ## What the parts of a valid module are -/

namespace Wasm.Module

variable {m : Module} {f : Features}

/-- Every function has a signature. -/
theorem Valid.isSome_types (h : m.Valid f) {t : Nat} (ht : t ∈ m.funcTypeIndices) :
    (m.types[t]?).isSome := by
  rw [funcTypeIndices_eq, List.mem_append, List.mem_filterMap] at ht
  rcases ht with ⟨i, hi, ht⟩ | ht
  · have hi := h.imports i hi
    cases hdesc : i.desc with
    | func t' =>
        simp only [Import.func?, hdesc, Option.some.injEq] at ht
        simp only [checkImport, hdesc, decide_eq_true_eq] at hi
        simpa [← ht] using hi
    | table | memory | global => simp [Import.func?, hdesc] at ht
  · simpa using h.funcs t ht

theorem getElem?_filterMap_of_isSome {α β : Type} {g : α → Option β} {l : List α}
    (h : ∀ a ∈ l, (g a).isSome) (i : Nat) : (l.filterMap g)[i]? = l[i]?.bind g := by
  induction l generalizing i with
  | nil => rfl
  | cons a l ih =>
      obtain ⟨ha, hl⟩ := List.forall_mem_cons.mp h
      obtain ⟨b, hb⟩ := Option.isSome_iff_exists.mp ha
      rw [List.filterMap_cons_some hb]
      cases i with
      | zero => simp [hb]
      | succ i => simpa using ih hl i

theorem Valid.context_funcs (h : m.Valid f) (i : Nat) : (m.context f).funcs[i]? = m.funcType? i := by
  simp only [context, List.getElem?_toArray, funcType?, Option.bind_eq_bind]
  exact getElem?_filterMap_of_isSome (fun t ht => h.isSome_types ht) i

end Wasm.Module

/-! ## Places of code -/

theorem FuncCode.depth_of_at {c : Wasm.Context} {code : FuncCode} {pc : Nat}
    {blocks : List OpenBlock} (h : code.At c pc blocks) : code.depth pc = blocks.length :=
  (Wasm.BlocksAt.length h).symm

namespace FuncCode.Typed

variable {c : Wasm.Context} {code : FuncCode} {pc : Nat} {op : Wasm.Op} {b o : OpenBlock}
  {blocks outer : List OpenBlock}

/-- Where a block is open there is an instruction, and it is well typed. -/
theorem instruction (h : code.Typed c) (hat : code.At c pc (b :: outer)) :
    ∃ op blocks', code.ops[pc]? = some op ∧
      (c.withLocals (code.type.params ++ code.locals)).checkOp (b :: outer) op = some blocks' ∧
      code.At c (pc + 1) blocks' := by
  obtain ⟨op, blocks', hop, hcheck, hnext⟩ := hat.step h.closes (List.cons_ne_nil b outer)
  exact ⟨op, blocks', by simpa using hop, hcheck, hnext⟩

theorem checked (h : code.Typed c) (hat : code.At c pc (b :: outer))
    (hop : code.ops[pc]? = some op) :
    ∃ blocks', (c.withLocals (code.type.params ++ code.locals)).checkOp (b :: outer) op =
      some blocks' ∧ code.At c (pc + 1) blocks' := by
  obtain ⟨op', blocks', hop', hcheck, hnext⟩ := h.instruction hat
  obtain rfl := Option.some.inj (hop.symm.trans hop')
  exact ⟨blocks', hcheck, hnext⟩

/-- Behind the end of a block are its results. -/
theorem after_done (h : code.Typed c) (hat : code.At c pc (b :: o :: outer))
    (hop : code.ops[pc]? = some .done) :
    code.At c (pc + 1) (o.pushAll b.type.results :: outer) := by
  obtain ⟨blocks', hcheck, hnext⟩ := h.checked hat hop
  simp only [Wasm.Context.checkOp, Option.bind_eq_bind, Option.bind_eq_some_iff,
    Option.ite_none_left_eq_some, Option.pure_def, Option.some.injEq] at hcheck
  obtain ⟨t, hclose, -, rfl⟩ := hcheck
  rwa [OpenBlock.type_of_close hclose] at hnext

/-- Behind an `orElse` the other branch of the block begins, with its parameters. -/
theorem after_orElse (h : code.Typed c) (hat : code.At c pc (b :: outer))
    (hop : code.ops[pc]? = some .orElse) :
    code.At c (pc + 1)
      (({ kind := .orElse, type := b.type } : OpenBlock).pushAll b.type.params :: outer) := by
  obtain ⟨blocks', hcheck, hnext⟩ := h.checked hat hop
  simp only [Wasm.Context.checkOp, Option.bind_eq_bind, Option.bind_eq_some_iff,
    Option.ite_none_right_eq_some, Option.pure_def, Option.some.injEq] at hcheck
  obtain ⟨-, t, hclose, rfl⟩ := hcheck
  rwa [OpenBlock.type_of_close hclose] at hnext

/-- The `orElse` of a block leads to its end. -/
theorem done_of_orElse (h : code.Typed c) (hat : code.At c pc (b :: outer))
    (hop : code.ops[pc]? = some .orElse) :
    ∃ b', b'.type = b.type ∧ b'.labelTypes = b.labelTypes ∧
      code.At c (code.partners.getD pc 0) (b' :: outer) ∧
      code.ops[code.partners.getD pc 0]? = some .done := by
  obtain ⟨blocks', hcheck, hnext⟩ := h.checked hat hop
  obtain ⟨inner, outer', hinner, hclosed⟩ := h.partners pc .orElse hop trivial
  cases Wasm.Context.reshapes_checkOp hcheck with
  | opens _ hother => exact absurd rfl hother
  | plain hflat => exact absurd trivial hflat
  | @turns _ turned _ hkind hturned htype =>
      cases hinner.unique hnext
      obtain ⟨⟨b', hsame, hat'⟩, hdone | ⟨-, hif⟩⟩ := hclosed
      · have hlabel : b'.labelTypes = b.labelTypes := by
          rw [hsame.labelTypes]
          simp only [OpenBlock.labelTypes, hturned, hkind, htype]
        exact ⟨b', hsame.type.trans htype, hlabel, hat', by simpa using hdone⟩
      · rw [hturned] at hif
        cases hif

/-- Where its condition does not hold, a conditional goes on with its other branch, or at its end if
there is none. -/
theorem other_branch {t : Wasm.BlockType} {type : FuncType} (h : code.Typed c)
    (hop : code.ops[pc]? = some (.ifThen t))
    (hat : code.At c (pc + 1) (OpenBlock.pushAll type.params { kind := .ifThen, type } :: outer)) :
    ∃ inner, inner.labelTypes = type.results ∧
      (code.ops[code.partners.getD pc 0]? = some .orElse ∧
          code.At c (code.partners.getD pc 0 + 1) (inner :: outer) ∧
          inner.Exactly type.params.reverse ∨
        code.ops[code.partners.getD pc 0]? = some .done ∧
          code.At c (code.partners.getD pc 0) (inner :: outer) ∧
          type.params = inner.type.results) := by
  obtain ⟨inner', outer', hinner, hclosed⟩ := h.partners pc _ hop trivial
  cases hinner.unique hat
  obtain ⟨⟨b, hsame, hat'⟩, hplace⟩ := hclosed
  have hsame := (OpenBlock.same_pushAll type.params { kind := .ifThen, type }).trans hsame
  simp only [Array.getElem?_toList] at hplace
  rcases hplace with hdone | ⟨helse, -⟩
  · obtain ⟨_, hcheck, -⟩ := h.checked hat' hdone
    simp only [Wasm.Context.checkOp, Option.bind_eq_bind, Option.bind_eq_some_iff,
      Option.ite_none_left_eq_some] at hcheck
    obtain ⟨type', hclose, hparams, -⟩ := hcheck
    obtain rfl := OpenBlock.type_of_close hclose
    -- without another branch, the parameters are the results
    simp only [hsame.kind, true_and, ne_eq, Decidable.not_not] at hparams
    rw [hsame.type] at hparams
    exact ⟨b, hsame.labelTypes, .inr ⟨hdone, hat', by rw [hsame.type, hparams]⟩⟩
  · have hbranch := h.after_orElse hat' helse
    rw [hsame.type] at hbranch
    exact ⟨_, (OpenBlock.same_pushAll type.params _).labelTypes,
      .inl ⟨helse, hbranch, .opened .orElse type⟩⟩

theorem code_getD (hop : code.ops[pc]? = some op) (otherwise : Wasm.Op) :
    code.ops.getD pc otherwise = op := by
  rw [Array.getD_eq_getD_getElem?, hop, Option.getD_some]

/-- The place that a frame takes for the end of a block is its end. -/
theorem at_donePlace {f : CodeFrame} {inner : OpenBlock} (h : f.code.Typed c)
    (hop : f.code.ops[pc]? = some op) (hpartner : op.HasPartner)
    (hat : f.code.At c (pc + 1) (inner :: outer)) :
    ∃ b, b.type = inner.type ∧ f.code.At c (f.donePlace pc) (b :: outer) ∧
      f.code.ops[f.donePlace pc]? = some .done := by
  obtain ⟨inner', outer', hinner, hclosed⟩ := h.partners pc op hop hpartner
  cases hinner.unique hat
  obtain ⟨⟨b, hsame, hat'⟩, hplace⟩ := hclosed
  simp only [Array.getElem?_toList] at hplace
  unfold CodeFrame.donePlace
  dsimp only
  generalize f.code.partners.getD pc 0 = p at hat' hplace ⊢
  rcases hplace with hdone | ⟨helse, -⟩
  · rw [code_getD hdone, if_neg (by simp)]
    exact ⟨b, hsame.type, hat', hdone⟩
  · obtain ⟨b', htype, -, hat'', hdone⟩ := h.done_of_orElse hat' helse
    rw [code_getD helse, if_pos rfl]
    exact ⟨b', htype.trans hsame.type, hat'', hdone⟩

end FuncCode.Typed

end WasmHost

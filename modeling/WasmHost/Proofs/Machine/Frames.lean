import WasmHost.Proofs.Machine.Operands
import WasmHost.Proofs.World.TypedInstances

/-!
# Frames that are well typed

The open blocks of a running frame are those that the typing of its code knows at its place, with
operands of the kinds that it gives them. A frame that has called something goes on well typed with
results of the kinds that it waits for.
-/

namespace WasmHost

open Wasm (OpenBlock)

/-- Operands of which the last ones have given kinds, taken apart. -/
theorem exists_operands {stack : List StoreVal} {ts rest : List ValType}
    (h : stack.map Val.type = ts.reverse ++ rest) :
    ∃ args vs : List StoreVal,
      stack = args.reverse ++ vs ∧ args.map Val.type = ts ∧ vs.map Val.type = rest := by
  obtain ⟨last, vs, rfl, hlast, hvs⟩ := List.map_eq_append_iff.mp h
  refine ⟨last.reverse, vs, by rw [List.reverse_reverse], ?_, hvs⟩
  rw [List.map_reverse, hlast, List.reverse_reverse]

/-- Open blocks at run time beside those of the typing: the innermost one without its operands, and
all around it. A branch to a block goes where the operands around it fit, with those that it takes
along. -/
inductive FuncCode.Nested (c : Wasm.Context) (code : FuncCode) :
    RunBlock → OpenBlock → List RunBlock → List OpenBlock → Prop
  | body {b : RunBlock} {o : OpenBlock} (arity : b.arity = code.type.results.length)
      (results : o.type.results = code.type.results) (label : o.labelTypes = code.type.results) :
      Nested c code b o [] []
  | inner {b b' : RunBlock} {o o' : OpenBlock} {bs : List RunBlock} {os : List OpenBlock}
      (arity : b.arity = o.labelTypes.length)
      (target : code.At c b.next (o'.pushAll o.labelTypes :: os))
      (operands : o'.Exactly (b'.stack.map Val.type)) (outer : Nested c code b' o' bs os) :
      Nested c code b o (b' :: bs) (o' :: os)

namespace FuncCode.Nested

variable {c : Wasm.Context} {code : FuncCode} {b b' : RunBlock} {o o' : OpenBlock}
  {bs : List RunBlock} {os : List OpenBlock}

/-- The operands of the innermost block do not matter. -/
theorem alike (h : code.Nested c b o bs os) (next : b'.next = b.next) (arity : b'.arity = b.arity)
    (type : o'.type = o.type) (label : o'.labelTypes = o.labelTypes) :
    code.Nested c b' o' bs os := by
  cases h with
  | body harity hresults hlabel =>
      exact .body (arity.trans harity) (by rw [type, hresults]) (label.trans hlabel)
  | inner harity target operands outer =>
      refine .inner ?_ ?_ operands outer
      · rw [arity, harity, label]
      · rw [next, label]
        exact target

theorem same (h : code.Nested c b o bs os) (next : b'.next = b.next) (arity : b'.arity = b.arity)
    (ho : o.Same o') : code.Nested c b' o' bs os :=
  h.alike next arity ho.type ho.labelTypes

theorem arity (h : code.Nested c b o bs os) : b.arity = o.labelTypes.length := by
  cases h with
  | body arity _ label => rw [arity, label]
  | inner arity => exact arity

/-- The block of a label, with what is around it. -/
theorem drop (h : code.Nested c b o bs os) {label : Nat} {target : OpenBlock}
    (ht : (o :: os)[label]? = some target) :
    ∃ b', (b :: bs)[label]? = some b' ∧
      code.Nested c b' target (bs.drop label) (os.drop label) := by
  induction h generalizing label with
  | @body b o arity results hlabel =>
      cases label with
      | zero =>
          cases ht
          exact ⟨b, rfl, .body arity results hlabel⟩
      | succ label => cases ht
  | @inner b b' o o' bs os arity target operands outer ih =>
      cases label with
      | zero =>
          cases ht
          exact ⟨b, rfl, .inner arity target operands outer⟩
      | succ label => exact ih ht

/-- The outermost block is that of the body. -/
theorem outermost (h : code.Nested c b o bs os) :
    ∃ target, (o :: os)[bs.length]? = some target ∧ (o :: os).getLast? = some target ∧
      target.type.results = code.type.results ∧ target.labelTypes = code.type.results := by
  induction h with
  | @body b o arity results label => exact ⟨o, rfl, rfl, results, label⟩
  | inner _ _ _ _ ih =>
      obtain ⟨target, hget, hlast, hresults⟩ := ih
      exact ⟨target, hget, by rw [List.getLast?_cons_cons]; exact hlast, hresults⟩

end FuncCode.Nested

/-! ## Frames -/

namespace CodeFrame

variable {w w' : World} {f : CodeFrame} {i : Instance} {c : Wasm.Context} {b : RunBlock}
  {bs : List RunBlock} {o o' : OpenBlock} {os : List OpenBlock} {stack vs : List StoreVal}
  {ts us : List ValType}

/-- The frame runs code of an instance, in which it is well typed, and its locals are of the kinds
that the code gives them. -/
structure Belongs (w : World) (i : Instance) (c : Wasm.Context) (f : CodeFrame) : Prop where
  owner : w.store.instances[f.owner]? = some i
  linked : i.Linked w
  context : ∃ features, i.module.ValidFor features ∧ c = i.module.module.context features
  code : f.code.Typed c
  locals : f.locals.toList.map Val.type = f.code.type.params ++ f.code.locals

/-- The frame can go on: its operands are of the kinds that its place wants. Where the end of a
block comes next, the results of the block are enough. -/
def Typed (w : World) (f : CodeFrame) : Prop :=
  ∃ i c o os b bs, f.Belongs w i c ∧ f.code.At c f.pc (o :: os) ∧ f.blocks = b :: bs ∧
    f.code.Nested c b o bs os ∧
      (o.Exactly (b.stack.map Val.type) ∨
        f.code.ops[f.pc]? = some .done ∧ b.stack.map Val.type = o.type.results.reverse)

/-- The frame has called something, and can go on with results of given kinds. -/
def Awaits (w : World) (f : CodeFrame) (ts : List ValType) : Prop :=
  ∃ i c o os b bs, f.Belongs w i c ∧ f.code.At c (f.pc + 1) (o :: os) ∧ f.blocks = b :: bs ∧
    f.code.Nested c b o bs os ∧ o.Exactly (ts.reverse ++ b.stack.map Val.type)

theorem Belongs.extends (h : f.Belongs w i c) (hw : w.Extends w') : ∃ i', f.Belongs w' i' c := by
  obtain ⟨i', hi', hbecomes⟩ := hw.instances _ i h.owner
  refine ⟨i', hi', h.linked.extends hw hbecomes, ?_, h.code, h.locals⟩
  obtain ⟨features, hvalid, hc⟩ := h.context
  rw [hbecomes]
  exact ⟨features, hvalid, hc⟩

theorem Typed.extends (h : f.Typed w) (hw : w.Extends w') : f.Typed w' := by
  obtain ⟨i, c, o, os, b, bs, belongs, hrest⟩ := h
  obtain ⟨i', belongs⟩ := belongs.extends hw
  exact ⟨i', c, o, os, b, bs, belongs, hrest⟩

theorem Awaits.extends (h : f.Awaits w ts) (hw : w.Extends w') : f.Awaits w' ts := by
  obtain ⟨i, c, o, os, b, bs, belongs, hrest⟩ := h
  obtain ⟨i', belongs⟩ := belongs.extends hw
  exact ⟨i', c, o, os, b, bs, belongs, hrest⟩

/-- With the results that it waits for, a frame goes on behind its call. -/
theorem Awaits.resume (h : f.Awaits w ts) {vals : List StoreVal} (hvals : vals.map Val.type = ts) :
    (f.pushAll vals).advance.Typed w := by
  obtain ⟨i, c, o, os, b, bs, belongs, hat, hblocks, nested, hexact⟩ := h
  rw [pushAll_eq hblocks]
  refine ⟨i, c, o, os, { b with stack := vals.reverse ++ b.stack }, bs, ?_, hat, rfl,
    nested.same rfl rfl (.refl o), .inl ?_⟩
  · exact ⟨belongs.owner, belongs.linked, belongs.context, belongs.code, belongs.locals⟩
  · rw [List.map_append, List.map_reverse, hvals]
    exact hexact

/-- A frame that begins is well typed. -/
theorem typed_begin {owner : InstanceAddr} {code : FuncCode} {args : List StoreVal}
    (hi : w.store.instances[owner]? = some i) (linked : i.Linked w) (hcode : code ∈ i.module.codes)
    (hargs : args.map Val.type = code.type.params) :
    Typed w { owner, code, locals := (args ++ code.locals.map Val.default).toArray
              blocks := [{ next := code.ops.size, arity := code.type.results.length }] } := by
  obtain ⟨features, valid⟩ := linked.compiled.valid
  have htyped := valid.codes code hcode
  refine ⟨i, _, code.bodyBlock, [], _, [], ⟨hi, linked, ⟨features, valid, rfl⟩, htyped, ?_⟩, .zero,
    rfl, .body rfl rfl rfl, .inl ⟨rfl, rfl⟩⟩
  have hdefaults :
      code.locals.map (Val.type ∘ (Val.default : ValType → StoreVal)) = code.locals := by
    simp [Function.comp_def]
  simp only [List.map_append, List.map_map, hargs, hdefaults]

end CodeFrame

end WasmHost

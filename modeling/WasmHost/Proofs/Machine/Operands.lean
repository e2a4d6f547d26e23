import Mathlib.Data.List.Induction
import WasmHost.Proofs.World.Objects
import WasmHost.Machine.Code

/-!
# Frames of running code

Operands are added to the innermost open block and taken from it. Here is what that comes to for a
frame whose open blocks are known, and what a step does besides its instruction.
-/

namespace WasmHost.CodeFrame

variable {f : CodeFrame} {b : RunBlock} {bs : List RunBlock} {v : StoreVal} {vs : List StoreVal}

/-- The frame with other operands in its innermost block. -/
def withTop (stack : List StoreVal) (b : RunBlock) (bs : List RunBlock) (f : CodeFrame) :
    CodeFrame := { f with blocks := { b with stack } :: bs }

theorem push_eq (hf : f.blocks = b :: bs) (v : StoreVal) :
    f.push v = f.withTop (v :: b.stack) b bs := by
  simp only [push, hf, withTop]

theorem pushAll_eq (hf : f.blocks = b :: bs) (vs : List StoreVal) :
    f.pushAll vs = f.withTop (vs.reverse ++ b.stack) b bs := by
  unfold pushAll
  induction vs generalizing f b with
  | nil =>
      cases f
      cases hf
      rfl
  | cons v vs ih =>
      rw [List.foldl_cons, push_eq hf, ih rfl]
      simp [withTop]

theorem code_pushAll (vs : List StoreVal) (f : CodeFrame) : (f.pushAll vs).code = f.code := by
  unfold pushAll
  induction vs generalizing f with
  | nil => rfl
  | cons v vs ih =>
      rw [List.foldl_cons, ih, push]
      split <;> rfl

theorem pop_eq (hf : f.blocks = b :: bs) (hstack : b.stack = v :: vs) :
    f.pop = (v, f.withTop vs b bs) := by
  simp only [pop, hf, hstack, List.headD_cons, List.tail_cons, withTop]

theorem popBits_eq (hf : f.blocks = b :: bs) (hstack : b.stack = v :: vs) :
    f.popBits = (v.toBits, f.withTop vs b bs) := by
  simp only [popBits, pop_eq hf hstack]

/-- Operands come in the order in which they were added. -/
theorem popMany_eq (hf : f.blocks = b :: bs) {args : List StoreVal}
    (hstack : b.stack = args.reverse ++ vs) :
    f.popMany args.length = (args, f.withTop vs b bs) := by
  induction args using List.reverseRecOn generalizing f b with
  | nil =>
      cases f
      cases b
      cases hf
      cases hstack
      rfl
  | append_singleton args v ih =>
      have hstack : b.stack = v :: (args.reverse ++ vs) := by simpa using hstack
      have hrest := ih (f := f.withTop (args.reverse ++ vs) b bs) rfl rfl
      simp only [List.length_append, List.length_cons, List.length_nil, Nat.zero_add, popMany,
        pop_eq hf hstack, hrest]
      rfl

/-! A frame whose operands are written out. -/

theorem withTop_self (hf : f.blocks = b :: bs) : f.withTop b.stack b bs = f := by
  cases f
  cases b
  cases hf
  rfl

@[simp] theorem pop_withTop (v : StoreVal) (vs : List StoreVal) (b : RunBlock)
    (bs : List RunBlock) (f : CodeFrame) :
    (f.withTop (v :: vs) b bs).pop = (v, f.withTop vs b bs) := rfl

@[simp] theorem popBits_withTop (v : StoreVal) (vs : List StoreVal) (b : RunBlock)
    (bs : List RunBlock) (f : CodeFrame) :
    (f.withTop (v :: vs) b bs).popBits = (v.toBits, f.withTop vs b bs) := rfl

@[simp] theorem push_withTop (v : StoreVal) (vs : List StoreVal) (b : RunBlock)
    (bs : List RunBlock) (f : CodeFrame) :
    (f.withTop vs b bs).push v = f.withTop (v :: vs) b bs := rfl

@[simp] theorem popMany_withTop (args vs : List StoreVal) (b : RunBlock) (bs : List RunBlock)
    (f : CodeFrame) :
    (f.withTop (args.reverse ++ vs) b bs).popMany args.length = (args, f.withTop vs b bs) :=
  popMany_eq (f := f.withTop (args.reverse ++ vs) b bs)
    (b := { b with stack := args.reverse ++ vs }) rfl rfl

/-! ## Steps -/

/-- Besides its instruction, a step of a function that was entered only accounts for fuel. -/
theorem step_exec {op : Wasm.Op} (entered : f.entered) (hop : f.code.ops[f.pc]? = some op)
    (w : World) : ∃ owed burned w', f.step w = exec op { f with owed, burned } w' ∧
      w'.objects = w.objects ∧ w'.store.boxes = w.store.boxes ∧
        w'.store.wasi = w.store.wasi := by
  have hget : f.code.ops.getD f.pc .unreachable = op := by
    simp [Array.getD_eq_getD_getElem?, hop]
  simp only [step, entered, hget, Bool.not_true, Bool.false_eq_true, if_false]
  cases op.reckons <;> cases op.saves <;> exact ⟨_, _, _, rfl, rfl, rfl, rfl⟩

end WasmHost.CodeFrame

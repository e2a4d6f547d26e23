import WasmHost.Proofs.Wasm.Plain
import WasmHost.Proofs.World.Typing

/-!
# Constant expressions

An expression that is evaluated before its module runs gives a value of the kind that it was checked
for, as long as the globals that it reads are those of the types that were asked for.
-/

namespace WasmHost

/-! ## Numeric instructions -/

namespace Wasm.NumOp

variable {ρ : Type} {op : NumOp} {stack stack' : List (Val ρ)} {rest : List ValType}

/-- A numeric instruction has one operand or two. -/
theorem operands_cases (op : NumOp) : (∃ t, op.type.1 = [t]) ∨ ∃ t, op.type.1 = [t, t] := by
  cases op <;> simp [NumOp.type]

/-- A numeric instruction takes its operands and leaves its result. -/
theorem types_apply (h : stack.map Val.type = op.type.1.reverse ++ rest)
    (hr : op.apply stack = .ok stack') : stack'.map Val.type = op.type.2 :: rest := by
  have hmap {n : Nat} {m : Nat} {vs : List (Val ρ)} (hvs : vs.map Val.type = rest)
      (hr : ((op.eval n m).map fun n => .ofBits op.type.2 n :: vs) = .ok stack') :
      stack'.map Val.type = op.type.2 :: rest := by
    cases heval : op.eval n m with
    | error c => simp [heval, Except.map] at hr
    | ok k =>
        simp only [heval, Except.map, Except.ok.injEq] at hr
        rw [← hr, List.map_cons, Val.type_ofBits, hvs]
  unfold apply at hr
  dsimp only at hr
  rcases op.operands_cases with ⟨t, ht⟩ | ⟨t, ht⟩
  · rw [ht] at h hr
    cases stack with
    | nil => cases h
    | cons a vs => exact hmap (List.cons.inj h).2 hr
  · rw [ht] at h hr
    rcases stack with _ | ⟨b, _ | ⟨a, vs⟩⟩
    · cases h
    · cases h
    · exact hmap (List.cons.inj (List.cons.inj h).2).2 hr

/-- Addition, subtraction and multiplication always have a result. -/
theorem apply_ok_of_constant (size : Size) {op : IntBinary}
    (h : op == .add || op == .sub || op == .mul) (stack : List (Val ρ)) :
    ∃ stack', (NumOp.intBinary size op).apply stack = .ok stack' := by
  have hmap (a b : Nat) (vs : List (Val ρ)) :
      ∃ stack', (((NumOp.intBinary size op).eval a b).map fun n =>
        Val.ofBits (NumOp.intBinary size op).type.2 n :: vs) = .ok stack' := by
    cases op <;> first | exact ⟨_, rfl⟩ | cases h
  unfold apply
  dsimp only
  split
  · exact hmap _ _ _
  · exact hmap _ _ _
  · exact ⟨_, rfl⟩

end Wasm.NumOp

/-- Before the end of a constant expression there are only instructions that look at nothing but
their operands. -/
theorem Wasm.done_or_plain_of_constant {c : Wasm.Context} {imported : Nat} {op : Wasm.Op}
    (h : Wasm.isConstantOp c imported op) : op = .done ∨ op.IsPlain := by
  cases op <;> first | exact .inl rfl | exact .inr trivial | cases h

namespace World

variable {w : World} {funcs : Array FuncAddr} {globals : Array Nat} {c : Wasm.Context}
  {imported : Nat}

/-- A global of a type has a value of its kind. -/
theorem Valued.type_global (h : w.Valued) {t : GlobalType} {a : Nat} (ha : w.Has (.global t) a) :
    (w.globalValue a).type = t.content := by
  obtain ⟨g, hg, rfl⟩ := ha
  rw [globalValue, hg]
  exact h.globals g (Array.mem_of_getElem? hg)

/-- What is known of the imported globals before a module runs. -/
def KnowsGlobals (w : World) (c : Wasm.Context) (imported : Nat) (globals : Array Nat) : Prop :=
  ∀ (i : Nat) (t : GlobalType), i < imported → c.globals[i]? = some t →
    ∃ a, globals[i]? = some a ∧ w.Has (.global t) a

theorem types_constantStack (held : w.Valued) (known : w.KnowsGlobals c imported globals)
    {b : Wasm.OpenBlock} {stack : List StoreVal} {e : List Wasm.Op}
    (hb : b.Exactly (stack.map Val.type)) (constant : ∀ op ∈ e, Wasm.isConstantOp c imported op)
    (closes : e.foldlM c.checkOp [b] = some []) :
    (w.constantStack funcs globals stack e).map Val.type = b.type.results.reverse := by
  induction e generalizing b stack with
  | nil => cases closes
  | cons op e ih =>
      obtain ⟨hop, he⟩ := List.forall_mem_cons.mp constant
      rw [List.foldlM_cons] at closes
      obtain ⟨blocks, hcheck, closes⟩ := Option.bind_eq_some_iff.mp closes
      rcases Wasm.done_or_plain_of_constant hop with rfl | hplain
      · simp only [Wasm.Context.checkOp, Option.bind_eq_bind, Option.bind_eq_some_iff,
          Option.pure_def, Option.some.injEq, Option.ite_none_left_eq_some] at hcheck
        obtain ⟨t, hclose, -, rfl⟩ := hcheck
        cases e with
        | nil => exact hb.close hclose
        | cons op e => cases closes
      · obtain ⟨params, results, b', htype, happly, rfl⟩ :=
          Wasm.Context.types_of_checkOp hcheck hplain
        obtain ⟨rest, hrest, hb'⟩ := hb.apply happly
        have hsame := (Wasm.OpenBlock.same_of_apply happly).type
        -- what is left behind fits the rest of the expression
        have hgo {stack' : List StoreVal} (hstack : stack'.map Val.type = results.reverse ++ rest) :
            (w.constantStack funcs globals stack' e).map Val.type = b.type.results.reverse := by
          rw [ih (by rw [hstack]; exact hb') he closes, hsame]
        -- most instructions only add a value
        have hpush {v : StoreVal} (hparams : params = []) (hv : results = [v.type]) :
            (w.constantStack funcs globals (v :: stack) e).map Val.type =
              b.type.results.reverse := by
          subst hparams hv
          exact hgo (congrArg (v.type :: ·) hrest)
        cases htype with
        | i32Const | i64Const | f32Const | f64Const | refFunc => exact hpush rfl rfl
        | refNull => exact hpush rfl (by rw [Val.type_default])
        | @globalGet i g global =>
            have hop : decide (i < imported) && (c.globals[i]?).any fun g => !g.isMutable := hop
            simp only [Bool.and_eq_true, decide_eq_true_eq] at hop
            obtain ⟨a, ha, hhas⟩ := known i g hop.1 global
            refine hpush rfl ?_
            rw [Array.getD_eq_getD_getElem?, ha, Option.getD_some, held.type_global hhas]
        | numeric op =>
            cases op
            all_goals try exact absurd hop Bool.false_ne_true
            rename_i size op
            obtain ⟨stack', hstack'⟩ := Wasm.NumOp.apply_ok_of_constant size hop stack
            simp only [constantStack, hstack', Except.toOption, Option.getD_some]
            exact hgo (Wasm.NumOp.types_apply hrest hstack')
        | _ => exact absurd hop Bool.false_ne_true

/-- A constant expression gives a value of the kind that it was checked for. -/
theorem type_constant {m : Wasm.Module} {f : Wasm.Features} {t : ValType} {e : List Wasm.Op}
    (held : w.Valued) (known : w.KnowsGlobals (m.context f) m.importedGlobals globals)
    (h : m.checkConstant f t e) : (w.constant funcs globals e).type = t := by
  simp only [Wasm.Module.checkConstant, Bool.and_eq_true, List.all_eq_true] at h
  obtain ⟨hconstant, hbody⟩ := h
  have hknown : w.KnowsGlobals { m.context f with referable := Wasm.funcRefs e }
    m.importedGlobals globals := known
  have htypes : (w.constantStack funcs globals [] e).map Val.type = [t] :=
    types_constantStack held hknown ⟨rfl, rfl⟩ hconstant (Wasm.Context.closes_of_checkBody hbody)
  rw [constant]
  generalize w.constantStack funcs globals [] e = stack at htypes
  cases stack with
  | nil => cases htypes
  | cons v vs => exact (List.cons.inj htypes).1

end World

end WasmHost

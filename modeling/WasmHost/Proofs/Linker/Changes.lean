import WasmHost.Proofs.Linker.Registry
import WasmHost.Proofs.Machine.Changes

/-!
# What the operations of a linker do to a store

A definition that is looked up may add a function to the store, and instances may be made and run;
apart from that a linker leaves the store alone. Only the definition of a reactor runs code.
-/

namespace WasmHost

open World

variable {T : Object → Prop} {limit : Nat} {l l' : Linker} {w w' : World}

/-! ## Items of definitions -/

theorem Definition.changes_toItem (d : Definition) (w : World) : w.Changes T (d.toItem w).2 := by
  cases d with
  | item i t => exact .refl
  | host type ops id => exact changes_shareHostFunc type ops id w
  | wasi f => exact changes_newFunc f.type (.wasi f) w

theorem Definition.changes_toItems (ds : List Definition) (w : World) :
    w.Changes T (toItems ds w).2 := by
  induction ds generalizing w with
  | nil => exact .refl
  | cons d ds ih => exact (d.changes_toItem w).trans (ih _)

namespace Linker

theorem changes_get? (n : LinkName) (l : Linker) (w : World) : w.Changes T (l.get? n w).2 := by
  unfold get?
  split
  · exact .refl
  · exact Definition.changes_toItem _ w

theorem changes_funcNamed? {n : LinkName} {refusal : String} {r : Except Error FuncAddr}
    (h : l.funcNamed? n refusal w = some (r, w')) : w.Changes T w' := by
  obtain ⟨d, -, h⟩ := Option.map_eq_some_iff.mp h
  have hitem := d.changes_toItem (T := T) w
  dsimp only at h
  split at h <;> cases h <;> exact hitem

theorem changes_getDefault (module : String) (l : Linker) (w : World) :
    w.Changes T (l.getDefault module w).2 := by
  unfold getDefault
  dsimp only
  split
  · rename_i r h
    rw [Option.orElse_eq_orElse, Option.orElse_eq_or] at h
    rcases Option.or_eq_some_iff.mp h with h | ⟨-, h⟩
    · exact changes_funcNamed? h
    · exact changes_funcNamed? h
  · exact changes_newFunc _ _ w

theorem alters_instantiate {m : CompiledModule} {r : Except Failure InstanceAddr}
    (h : l.instantiate limit m w = some (r, w')) : w.Alters w' := by
  unfold instantiate at h
  split at h
  · cases h
    exact .refl
  · exact (Definition.changes_toItems _ w).trans (alters_newInstance h)

/-! ## Definitions -/

theorem changes_defineInstance (module : String) (addr : InstanceAddr) (l : Linker) (w : World) :
    w.Changes T (l.defineInstance module addr w).2.2 := changes_aside rfl rfl rfl

theorem changes_defineCommand (module : String) (m : CompiledModule) (es : List ExportType)
    (l : Linker) (w : World) : w.Changes T (defineCommand module m es l w).2.2 := by
  induction es generalizing l w with
  | nil => exact .refl
  | cons e es ih =>
      simp only [defineCommand]
      cases e.type with
      | func type =>
          cases l.resolve m Definition.type with
          | error reason => exact .refl
          | ok ds =>
              have hnew : w.Changes T ((Definition.toItems ds w).2.newFunc type
                  (.command m (Definition.toItems ds w).1 e.name)).2 :=
                (Definition.changes_toItems ds w).trans (changes_newFunc _ _ _)
              dsimp only
              split
              · refine (hnew.trans (changes_aside ?_ ?_ ?_)).trans (ih _ _) <;> rfl
              · exact hnew
      | global | table | memory =>
          dsimp only
          split
          · exact ih l w
          · exact .refl

theorem alters_defineReactor {module : String} {m : CompiledModule} {r : Except Failure Unit}
    (h : l.defineReactor limit module m w = some (r, l', w')) : w.Alters w' := by
  rcases defineReactor_cases h with ⟨f, hi, -⟩ | ⟨addr, w₁, f, hi, hr, -⟩ |
    ⟨addr, w₁, w₂, hi, hr, -, hd⟩
  · exact alters_instantiate hi
  · exact (alters_instantiate hi).trans (alters_runInitialize hr)
  · have hdefined : w₂.Alters _ := changes_defineInstance module addr l w₂
    rw [hd] at hdefined
    exact ((alters_instantiate hi).trans (alters_runInitialize hr)).trans hdefined

end Linker

namespace LinkerCall

variable {c : LinkerCall} {r : Except Failure Unit}

theorem changes_settle (l : Linker) (w : World) (answer : Except Error (Linker × Shared)) :
    w.Changes T (settle l w answer).2.2 := by
  cases answer <;> exact changes_aside rfl rfl rfl

/-- An operation on a linker runs no code, unless it defines a reactor. -/
theorem changes_run_or_reactor (h : c.run l w = some (r, l', w')) :
    w.Changes T w' ∨ ∃ limit module m, c = .defineModule limit module m ∧
      ModuleRole.of m.signature.exports = .ok .reactor ∧
        l.defineReactor limit module m w = some (r, l', w') := by
  cases c with
  | allowShadowing allow =>
      cases h
      exact .inl .refl
  | define n item =>
      have hsettled := changes_settle (T := T) l w (l.defineItem n item w)
      simp only [run, Option.some.injEq] at h
      rw [h] at hsettled
      exact .inl hsettled
  | defineFunc n type ops =>
      have hsettled := changes_settle (T := T) l w (l.defineFunc n type ops w.shared)
      simp only [run, Option.some.injEq] at h
      rw [h] at hsettled
      exact .inl hsettled
  | defineInstance | defineWasi =>
      cases h
      exact .inl (changes_aside rfl rfl rfl)
  | defineModule limit module m =>
      simp only [run, Linker.defineModule] at h
      split at h
      · cases h
        exact .inl .refl
      · exact .inr ⟨limit, module, m, rfl, ‹_›, h⟩
      · cases h
        exact .inl (Linker.changes_defineCommand module m _ l w)

theorem alters_run (h : c.run l w = some (r, l', w')) : w.Alters w' := by
  rcases changes_run_or_reactor h with hchanges | ⟨limit, module, m, -, -, hdefined⟩
  · exact hchanges
  · exact Linker.alters_defineReactor hdefined

end LinkerCall

end WasmHost

import Mathlib.Tactic.MkIffOfInductiveProp
import WasmHost.Wasm.Validate

/-!
# Valid modules

The checks that a module passes before it is run, each under a name.
-/

namespace WasmHost.Wasm.Module

/-- Every part of a module is as its checks ask. -/
@[mk_iff]
structure Valid (m : Module) (f : Features) : Prop where
  types : ∀ t ∈ m.types, f.checkFuncType t
  imports : ∀ i ∈ m.imports, m.checkImport f i
  funcs : ∀ t ∈ m.funcs, t < m.types.length
  tables : ∀ t ∈ m.tables, f.checkTableType t
  memories : ∀ t ∈ m.memories, f.checkMemoryType t
  tableCount : m.tableTypes.length ≤ if f.referenceTypes then maxItems else 1
  memoryCount : m.memoryTypes.length ≤ maxItems
  globals : ∀ g ∈ m.globals, f.checkGlobalType g.type ∧ m.checkConstant f g.type.content g.init
  exports : ∀ e ∈ m.exports, (m.itemType? e.kind e.index).isSome
  names : ((m.exports.map (·.name)).eraseDups).length = m.exports.length
  start : ∀ s, m.start = some s → m.funcType? s = some ⟨[], []⟩
  elems : ∀ e ∈ m.elems, m.checkElem f e
  datas : ∀ d ∈ m.datas, m.checkData f d
  codes : ∀ t code, (t, code) ∈ m.funcs.zip m.codes → m.checkCode f (m.context f) t code

theorem isValid_iff (m : Module) (f : Features) : m.isValid f ↔ m.Valid f := by
  simp only [isValid, Bool.and_eq_true, List.all_eq_true, decide_eq_true_eq, Option.all_eq_true,
    beq_iff_eq, Prod.forall, valid_iff, and_assoc]

end WasmHost.Wasm.Module

import Mathlib.Data.List.Forall2
import WasmHost.CompiledModule
import WasmHost.Proofs.Wasm.Validity

/-!
# What compiling makes sure of

A module that was compiled is valid, and has the code of each of its own functions under the type
that the function was declared with. `CompiledModule.WellMade` says so.
-/

namespace WasmHost

namespace Wasm

/-! ## Readers and what they give -/

/-- Whatever a reader gives satisfies a property. -/
def Reader.Gives {α : Type} (P : α → Prop) (r : Reader α) : Prop :=
  ∀ i a i', r.run i = some (a, i') → P a

namespace Reader.Gives

variable {α β : Type} {P : α → Prop} {Q : β → Prop}

theorem pure {a : α} (h : P a) : Gives P (pure a : Reader α) := by
  intro i a' i' hr
  cases hr
  exact h

theorem fail : Gives P (fail : Reader α) := by
  intro i a i' hr
  cases hr

theorem bind {r : Reader β} {k : β → Reader α} (hr : Gives Q r) (hk : ∀ b, Q b → Gives P (k b)) :
    Gives P (r >>= k) := by
  intro i a i' h
  rw [StateT.run_bind] at h
  obtain ⟨⟨b, j⟩, hb, h⟩ := Option.bind_eq_some_iff.mp h
  exact hk b (hr i b j hb) j a i' h

theorem any (r : Reader β) : Gives (fun _ => True) r := fun _ _ _ _ => trivial

/-- What comes first does not matter. -/
theorem after {r : Reader β} {k : β → Reader α} (hk : ∀ b, Gives P (k b)) : Gives P (r >>= k) :=
  (any r).bind fun b _ => hk b

theorem within {r : Reader α} (h : Gives P r) (n : Nat) : Gives P (within n r) := by
  refine .after fun i => .after fun bytes => ?_
  split
  · rename_i a rest hr
    split
    · exact .pure (h _ _ _ hr)
    · exact .fail
  · exact .fail

end Reader.Gives

/-! ## Bodies and their places -/

/-- Each body that was read has a layout. -/
def Progress.Balanced (p : Progress) : Prop := p.layouts.length = p.module.codes.length

open Reader

theorem balanced_sectionBody {p : Progress} (h : p.Balanced) (id : UInt8) :
    Gives Progress.Balanced (sectionBody p id) := by
  unfold sectionBody
  dsimp only
  split
  · refine .after fun title => .after fun i => .after fun _ => ?_
    split
    · exact .pure h
    · exact .pure h
  all_goals try first | exact .fail | exact .after fun _ => .pure h
  -- only the section of bodies is left, which brings their layouts along
  refine .after fun codes => .pure ?_
  simp [Progress.Balanced]

theorem balanced_readSection {p : Progress} (h : p.Balanced) :
    Gives Progress.Balanced (readSection p) := by
  refine .after fun id => .after fun size => ?_
  split
  · exact (balanced_sectionBody h id).within size
  · split
    · rename_i rank _
      split
      · have hranked : ({ p with rank := rank + 1 } : Progress).Balanced := h
        exact (balanced_sectionBody hranked id).within size
      · exact .fail
    · exact .fail

theorem balanced_sections {p : Progress} (h : p.Balanced) (fuel : Nat) :
    Gives Progress.Balanced (sections fuel p) := by
  induction fuel generalizing p with
  | zero => exact .pure h
  | succ fuel ih =>
      refine .after fun done => ?_
      split
      · exact .pure h
      · exact (balanced_readSection h).bind fun p' hp' => ih hp'

/-- A module that can be read has a body and a layout for each of its functions. -/
theorem lengths_of_decode {bytes : Bytes} {m : Module} {layouts : List Layout}
    (h : Module.decode bytes = some (m, layouts)) :
    m.codes.length = m.funcs.length ∧ layouts.length = m.funcs.length := by
  unfold Module.decode at h
  split at h
  · simp only [Option.bind_eq_bind, Option.bind_eq_some_iff] at h
    obtain ⟨⟨p, i⟩, hp, h⟩ := h
    have hbalanced : p.Balanced := balanced_sections (p := {}) rfl _ _ p i hp
    dsimp only at h
    split at h
    · rename_i hlengths
      cases h
      exact ⟨hlengths.1.symm, hbalanced.trans hlengths.1.symm⟩
    · cases h
  · cases h

/-! ## Names that differ -/

theorem length_eraseDups_le {α : Type} [BEq α] (l : List α) : l.eraseDups.length ≤ l.length := by
  induction hn : l.length using Nat.strongRecOn generalizing l with
  | ind n ih =>
      cases l with
      | nil => simp
      | cons a l =>
          subst hn
          have hle := List.length_filter_le (fun b => !b == a) l
          have hrest := ih _ (Nat.lt_succ_of_le hle) (l.filter fun b => !b == a) rfl
          rw [List.eraseDups_cons, List.length_cons, List.length_cons]
          omega

theorem nodup_of_eraseDups {α : Type} [BEq α] [LawfulBEq α] {l : List α}
    (h : l.eraseDups.length = l.length) : l.Nodup := by
  induction l with
  | nil => exact List.nodup_nil
  | cons a l ih =>
      have hle := List.length_filter_le (fun b => !b == a) l
      have hrest := length_eraseDups_le (l.filter fun b => !b == a)
      rw [List.eraseDups_cons, List.length_cons, List.length_cons] at h
      have hall : l.filter (fun b => !b == a) = l :=
        List.filter_eq_self.mpr (List.length_filter_eq_length_iff.mp (by omega))
      rw [hall] at h
      refine List.nodup_cons.mpr ⟨fun ha => ?_, ih (by omega)⟩
      simpa using List.filter_eq_self.mp hall a ha

end Wasm

/-! ## Compiled modules -/

/-- The index of the type that the import of a function asks for. -/
def Wasm.Import.func? (i : Wasm.Import) : Option Nat :=
  match i.desc with
  | .func t => some t
  | .table _ | .memory _ | .global _ => none

namespace Wasm.Module

variable (m : Wasm.Module)

theorem funcTypeIndices_eq : m.funcTypeIndices = m.imports.filterMap Import.func? ++ m.funcs := by
  rw [funcTypeIndices]
  congr 2
  funext i
  rw [Import.func?]
  cases i.desc <;> rfl

theorem length_filterMap_func? : (m.imports.filterMap Import.func?).length = m.importedFuncs := by
  rw [List.length_filterMap_eq_countP, importedFuncs]
  congr 1
  funext i
  rw [Import.func?]
  cases i.desc <;> rfl

theorem length_funcTypeIndices : m.funcTypeIndices.length = m.importedFuncs + m.funcs.length := by
  rw [funcTypeIndices_eq, List.length_append, length_filterMap_func?]

/-- The functions of a module itself stand behind those that are imported. -/
theorem funcType?_own (i : Nat) :
    m.funcType? (m.importedFuncs + i) = m.funcs[i]?.bind (m.types[·]?) := by
  have hlength := m.length_filterMap_func?
  simp only [funcType?, funcTypeIndices_eq, Option.bind_eq_bind]
  rw [List.getElem?_append_right (by omega), hlength, Nat.add_sub_cancel_left]

theorem funcType?_imported {i : Nat} (h : i < m.importedFuncs) :
    m.funcType? i = (m.imports.filterMap Import.func?)[i]?.bind (m.types[·]?) := by
  have hlength := m.length_filterMap_func?
  simp only [funcType?, funcTypeIndices_eq, Option.bind_eq_bind]
  rw [List.getElem?_append_left (by omega)]

end Wasm.Module

/-- A binary compiles to what its module is made into, if that is valid and fits the pool. -/
theorem CompiledModule.ofBinary_eq_ok {m : CompiledModule} {o : EngineOptions} {bytes : Wasm.Bytes} :
    ofBinary o bytes = .ok m ↔ ∃ module layouts,
      Wasm.Module.decode bytes = some (module, layouts) ∧ module.Valid o.languageFeatures ∧
        o.fitsPool module ∧ make o bytes module layouts = m := by
  unfold ofBinary
  cases Wasm.Module.decode bytes with
  | none => simp
  | some r =>
      obtain ⟨module, layouts⟩ := r
      simp only [← Wasm.Module.isValid_iff]
      split
      · rename_i h
        simp [h]
      · rename_i h
        simp only [reduceCtorEq, Option.some.injEq, Prod.mk.injEq, false_iff]
        rintro ⟨_, _, ⟨rfl, rfl⟩, valid, fits, -⟩
        exact h ⟨valid, fits⟩

/-- What a module was compiled from: the codes of its functions were made from bodies that are well
typed, one for each, and their layouts. -/
theorem CompiledModule.made_of_ofBinary {m : CompiledModule} {o : EngineOptions}
    {bytes : Wasm.Bytes} (h : ofBinary o bytes = .ok m) {k : Nat} {code : FuncCode}
    (hk : m.codes[k]? = some code) : ∃ type body layout,
      m.module.codes[k]? = some body ∧
      (∃ layouts, Wasm.Module.decode bytes = some (m.module, layouts) ∧
        layouts[k]? = some layout) ∧
      code = FuncCode.make (m.module.importedFuncs + k) type body layout ∧
      ((m.module.context o.languageFeatures).withLocals
        (type.params ++ body.allLocals)).checkBody type body.body := by
  obtain ⟨module, layouts, hdecode, valid, -, rfl⟩ := ofBinary_eq_ok.mp h
  simp only [make, List.getElem?_toArray, List.getElem?_map, Option.map_eq_some_iff,
    List.getElem?_zipIdx, Nat.zero_add] at hk
  obtain ⟨⟨⟨t, body, layout⟩, i⟩, ⟨_, hzip, heq⟩, rfl⟩ := hk
  cases heq
  rw [List.getElem?_zip_eq_some, List.getElem?_zip_eq_some] at hzip
  obtain ⟨ht, hbody, hlayout⟩ := hzip
  have hchecked := valid.codes t body
    (List.mem_iff_getElem?.mpr ⟨k, List.getElem?_zip_eq_some.mpr ⟨ht, hbody⟩⟩)
  simp only [Wasm.Module.checkCode] at hchecked
  split at hchecked
  · cases hchecked
  · rename_i type htype
    simp only [Bool.and_eq_true] at hchecked
    have hget : module.types.getD t default = type := by
      rw [List.getD_eq_getElem?_getD, htype, Option.getD_some]
    rw [← hget] at hchecked
    exact ⟨_, body, layout, hbody, ⟨layouts, hdecode, hlayout⟩, rfl, hchecked.2⟩

/-- What holds of a module that was compiled. -/
structure CompiledModule.WellMade (m : CompiledModule) : Prop where
  imports : ∀ i ∈ m.module.imports, (m.module.importType? i.desc).isSome
  start : ∀ s, m.module.start = some s → m.module.funcType? s = some ⟨[], []⟩
  names : (m.module.exports.map (·.name)).Nodup
  size : m.codes.size = m.module.funcs.length
  codes : ∀ (i : Nat) (c : FuncCode), m.codes[i]? = some c →
    m.module.funcType? (m.module.importedFuncs + i) = some c.type

theorem CompiledModule.wellMade_ofBinary {m : CompiledModule} {o : EngineOptions}
    {bytes : Wasm.Bytes} (h : ofBinary o bytes = .ok m) : m.WellMade := by
  obtain ⟨module, layouts, hdecode, valid, -, rfl⟩ := ofBinary_eq_ok.mp h
  obtain ⟨hcodes, hlayouts⟩ := Wasm.lengths_of_decode hdecode
  refine ⟨fun i hi => ?_, valid.start, ?_, ?_, fun i c hc => ?_⟩
  · have hi := valid.imports i hi
    cases hdesc : i.desc with
    | func t =>
        simp only [Wasm.Module.checkImport, hdesc, decide_eq_true_eq] at hi
        simp [Wasm.Module.importType?, make, hi]
    | table | memory | global => rfl
  · refine Wasm.nodup_of_eraseDups ?_
    rw [List.length_map]
    exact valid.names
  · simp [make, hcodes, hlayouts]
  · simp only [make, List.getElem?_toArray, List.getElem?_map, Option.map_eq_some_iff] at hc
    obtain ⟨⟨⟨t, code, layout⟩, j⟩, hj, rfl⟩ := hc
    simp only [List.getElem?_zipIdx, Option.map_eq_some_iff, Prod.mk.injEq] at hj
    obtain ⟨_, hj, rfl, rfl⟩ := hj
    obtain ⟨ht, -⟩ := List.getElem?_zip_eq_some.mp hj
    dsimp only at ht
    have hlt : t < module.types.length := valid.funcs t (List.mem_of_getElem? ht)
    have htype := module.funcType?_own i
    simp only [ht, Option.bind_some, List.getElem?_eq_getElem hlt] at htype
    refine htype.trans ?_
    simp [FuncCode.make, hlt]

end WasmHost

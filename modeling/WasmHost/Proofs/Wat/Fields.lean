import WasmHost.Proofs.Wasm.Constants
import WasmHost.Proofs.Wat.Signatures

/-!
# Fields and their module

A field declares a function, a table, a memory or a global, or it exports one. The module of some fields
has what they declare, in their order: its imports, the items of its own and its exports. A signature
that a field uses has the index that the module gives to it.
-/

namespace WasmHost

/-! ## Items -/

namespace Wasm

/-- The kind of item that an import asks for. -/
def ImportDesc.kind : ImportDesc → ItemKind
  | func _ => .func
  | table _ => .table
  | memory _ => .memory
  | global _ => .global

namespace Module

/-- The items of a kind that a module defines itself. -/
def own (m : Module) : ItemKind → List ImportDesc
  | .func => m.funcs.map .func
  | .table => m.tables.map .table
  | .memory => m.memories.map .memory
  | .global => m.globals.map fun g => .global g.type

theorem own_withImports (m : Module) (imports : List Import) (kind : ItemKind) :
    ({ m with imports } : Module).own kind = m.own kind := by
  cases kind <;> rfl

theorem own_withExports (m : Module) (exports : List Export) (kind : ItemKind) :
    ({ m with exports } : Module).own kind = m.own kind := by
  cases kind <;> rfl

/-- All items of a kind, in the order of their indices. -/
def items (m : Module) (kind : ItemKind) : List ImportDesc :=
  (m.imports.map (·.desc)).filter (·.kind = kind) ++ m.own kind

end Module

end Wasm

namespace Wat

open Wasm

/-! ## What a text says of a type -/

/-- The kind of item that is asked for. -/
def ImportSpec.kind : ImportSpec → ItemKind
  | func _ => .func
  | table _ => .table
  | memory _ => .memory
  | global _ => .global

/-- The signature that is meant where one is used: the one that is written out, and the one that is
referred to among the signatures of the module. Where nothing is given there are no parameters and no
results. -/
structure TypeUse.Means (ids : Ids) (types : List FuncType) (use : TypeUse) (t : FuncType) : Prop where
  written : ∀ i, use.inline = some i → t = i.plain
  referred : ∀ r, use.ref = some r → ∃ n, ids.resolve? r = some n ∧ types[n]? = some t
  nothing : use = {} → t = ⟨[], []⟩

/-- The type of an item that is meant. -/
inductive ImportSpec.Means (ids : Ids) (types : List FuncType) : ImportSpec → ItemType → Prop
  | func {use : TypeUse} {t : FuncType} (means : use.Means ids types t) :
      Means ids types (.func use) (.func t)
  | table (t : TableType) : Means ids types (.table t) (.table t)
  | memory (t : MemoryType) : Means ids types (.memory t) (.memory t)
  | global (t : GlobalType) : Means ids types (.global t) (.global t)

/-- An item of a module is of the type that is meant. -/
structure Stands (ids : Ids) (types : List FuncType) (spec : ImportSpec) (desc : ImportDesc) :
    Prop where
  kind : spec.kind = desc.kind
  means : ∀ t, Module.importType? { types } desc = some t → spec.Means ids types t

open Reader (run_bind_eq_some run_lift_eq_some)

/-- A signature that is used where all signatures are known. -/
theorem means_of_resolve {scope : Scope} {use : TypeUse} {s s' : BodyState} {n : Nat} {t : FuncType}
    (h : (use.resolve scope).run s = some (n, s')) (same : s'.types = s.types)
    (ht : s.types[n]? = some t) : use.Means scope.types s.types t := by
  obtain ⟨ref, inline⟩ := use
  cases ref with
  | none =>
      have hfound := (internType_spec h).2
      rw [same, ht] at hfound
      cases hfound
      refine ⟨fun i hi => ?_, fun r hr => (by cases hr), fun hnone => ?_⟩
      · cases hi
        rfl
      · cases hnone
        rfl
  | some r =>
      obtain ⟨index, s₁, hindex, h₁⟩ := run_bind_eq_some.mp h
      obtain ⟨hfound, rfl⟩ := run_lift_eq_some.mp hindex
      obtain ⟨s₂, s₃, hs, h₂⟩ := run_bind_eq_some.mp h₁
      cases hs
      have hagree : index = n ∧ ∀ i, inline = some i → t = i.plain := by
        dsimp only at h₂
        split at h₂
        · rename_i i k hknown
          split at h₂
          · rename_i hsame
            cases h₂
            rw [ht] at hknown
            cases hknown
            exact ⟨rfl, fun i' hi => by cases hi; exact hsame.symm⟩
          · cases h₂
        · rename_i hunknown
          cases h₂
          exact ⟨rfl, fun i hi => absurd ht (hunknown i t hi)⟩
      obtain ⟨rfl, hwritten⟩ := hagree
      exact ⟨hwritten, fun r' hr' => by cases hr'; exact ⟨index, hfound, ht⟩, fun h => by cases h⟩

/-! ## What fields declare -/

/-- A function, table, memory or global: the names it is imported by, if it is, and its type. -/
structure Item where
  id : Option String
  source : Option (String × String)
  type : ImportSpec

/-- Whether an item of a kind is defined by the module. -/
def Item.isOwn (kind : ItemKind) (i : Item) : Bool := i.source.isNone && decide (i.type.kind = kind)

/-- The item that a field declares. -/
def Field.item? : Field → Option Item
  | .imported id module name spec => some ⟨id, some (module, name), spec⟩
  | .func id use _ _ => some ⟨id, none, .func use⟩
  | .table id t => some ⟨id, none, .table t⟩
  | .memory id t => some ⟨id, none, .memory t⟩
  | .global id t _ => some ⟨id, none, .global t⟩
  | _ => none

/-- The export that a field declares: its name, and what it refers to. -/
def Field.export? : Field → Option (String × ItemKind × Ref)
  | .exported name kind ref => some (name, kind, ref)
  | _ => none

/-- An import of a module is the one that an item declares. -/
def IsImport (ids : Ids) (types : List FuncType) (i : Item) (e : Import) : Prop :=
  i.source = some (e.module, e.name) ∧ Stands ids types i.type e.desc

/-- An export of a module is the one that is declared. -/
def IsExport (scope : Scope) (declared : String × ItemKind × Ref) (e : Export) : Prop :=
  e.name = declared.1 ∧ e.kind = declared.2.1 ∧
    (scope.items declared.2.1).resolve? declared.2.2 = some e.index

/-- A module has what fields declare. -/
structure Made (scope : Scope) (types : List FuncType) (fields : List Field) (m : Module) : Prop where
  imports : List.Forall₂ (IsImport scope.types types)
    ((fields.filterMap Field.item?).filter (·.source.isSome)) m.imports
  own : ∀ kind, List.Forall₂ (fun i d => Stands scope.types types i.type d)
    ((fields.filterMap Field.item?).filter (Item.isOwn kind)) (m.own kind)
  exports : List.Forall₂ (IsExport scope) (fields.filterMap Field.export?) m.exports
  ends : ∀ g ∈ m.globals, Reader.Ends g.init ∧ g.init ≠ []

theorem ends_of_constantExpr {scope : Scope} {items : List Sexpr} {s s' : BodyState} {ops : List Op}
    (h : (constantExpr scope items).run s = some (ops, s')) : Reader.Ends ops ∧ ops ≠ [] := by
  obtain ⟨⟨ops', labels⟩, s₁, hbody, h₁⟩ := run_bind_eq_some.mp h
  cases h₁
  obtain ⟨_, s₂, -, h₂⟩ := run_bind_eq_some.mp hbody
  obtain ⟨ops'', s₃, hops, h₃⟩ := run_bind_eq_some.mp h₂
  obtain ⟨_, s₄, -, h₄⟩ := run_bind_eq_some.mp h₃
  cases h₄
  obtain ⟨body, s₅, -, h₅⟩ := run_bind_eq_some.mp hops
  cases h₅
  refine ⟨fun o ho => ?_, List.append_ne_nil_of_right_ne_nil _ (List.cons_ne_nil _ _)⟩
  rw [List.getLast?_append] at ho
  exact (Option.mem_some_iff.mp ho).symm

namespace Made

variable {scope : Scope} {types : List FuncType} {fields : List Field} {f : Field} {m m' : Module}

/-- A field that declares no item and no export. -/
theorem keep (h : Made scope types fields m) (item : f.item? = none) (export? : f.export? = none)
    (imports : m'.imports = m.imports) (own : ∀ kind, m'.own kind = m.own kind)
    (exports : m'.exports = m.exports) (globals : m'.globals = m.globals) :
    Made scope types (fields ++ [f]) m' := by
  refine ⟨?_, fun kind => ?_, ?_, ?_⟩
  · simpa [List.filterMap_cons, item, imports] using h.imports
  · simpa [List.filterMap_cons, item, own] using h.own kind
  · simpa [List.filterMap_cons, export?, exports] using h.exports
  · simpa [globals] using h.ends

/-- A field that declares an item of the module. -/
theorem define {i : Item} {d : ImportDesc} (h : Made scope types fields m) (item : f.item? = some i)
    (source : i.source = none) (export? : f.export? = none) (stands : Stands scope.types types i.type d)
    (imports : m'.imports = m.imports)
    (own : ∀ kind, m'.own kind = m.own kind ++ if kind = d.kind then [d] else [])
    (exports : m'.exports = m.exports) (ends : ∀ g ∈ m'.globals, Reader.Ends g.init ∧ g.init ≠ []) :
    Made scope types (fields ++ [f]) m' := by
  refine ⟨?_, fun kind => ?_, ?_, ends⟩
  · simpa [List.filterMap_cons, item, source, imports] using h.imports
  · have hown : Item.isOwn kind i = decide (kind = d.kind) := by
      simp [Item.isOwn, source, stands.kind, eq_comm]
    have hadded : ([f].filterMap Field.item?).filter (Item.isOwn kind) =
        if kind = d.kind then [i] else [] := by
      simp [item, List.filter_cons, hown]
    rw [own, List.filterMap_append, List.filter_append, hadded]
    refine List.rel_append (h.own kind) ?_
    split
    · exact .cons stands .nil
    · exact .nil
  · simpa [List.filterMap_cons, export?, exports] using h.exports

/-- A field that declares an import. -/
theorem bring {i : Item} {e : Import} (h : Made scope types fields m) (item : f.item? = some i)
    (export? : f.export? = none) (brought : IsImport scope.types types i e) :
    Made scope types (fields ++ [f]) { m with imports := m.imports ++ [e] } := by
  refine ⟨?_, fun kind => ?_, ?_, h.ends⟩
  · simpa [List.filterMap_cons, item, brought.1] using List.rel_append h.imports (.cons brought .nil)
  · have hother : Item.isOwn kind i = false := by simp [Item.isOwn, brought.1]
    simpa [List.filterMap_cons, item, hother, m.own_withImports] using h.own kind
  · simpa [List.filterMap_cons, export?] using h.exports

/-- A field that declares an export. -/
theorem expose {declared : String × ItemKind × Ref} {e : Export} (h : Made scope types fields m)
    (item : f.item? = none) (export? : f.export? = some declared)
    (exposed : IsExport scope declared e) :
    Made scope types (fields ++ [f]) { m with exports := m.exports ++ [e] } := by
  refine ⟨?_, fun kind => ?_, ?_, h.ends⟩
  · simpa [List.filterMap_cons, item] using h.imports
  · simpa [List.filterMap_cons, item, m.own_withExports] using h.own kind
  · simpa [List.filterMap_cons, export?] using List.rel_append h.exports (.cons exposed .nil)

end Made

theorem stands_table (ids : Ids) (types : List FuncType) (t : TableType) :
    Stands ids types (.table t) (.table t) :=
  ⟨rfl, fun _ h => by cases h; exact .table t⟩

theorem stands_memory (ids : Ids) (types : List FuncType) (t : MemoryType) :
    Stands ids types (.memory t) (.memory t) :=
  ⟨rfl, fun _ h => by cases h; exact .memory t⟩

theorem stands_global (ids : Ids) (types : List FuncType) (t : GlobalType) :
    Stands ids types (.global t) (.global t) :=
  ⟨rfl, fun _ h => by cases h; exact .global t⟩

theorem stands_of_resolve {scope : Scope} {use : TypeUse} {s s' : BodyState} {n : Nat}
    (h : (use.resolve scope).run s = some (n, s')) (same : s'.types = s.types) :
    Stands scope.types s.types (.func use) (.func n) := by
  refine ⟨rfl, fun t ht => ?_⟩
  obtain ⟨t', ht', rfl⟩ := Option.map_eq_some_iff.mp ht
  exact .func (means_of_resolve h same ht')

/-- What adds no signature in the end adds none on the way. -/
theorem types_between {s s₁ s' : BodyState} (h : s.types <+: s₁.types) (h' : s₁.types <+: s'.types)
    (same : s'.types = s.types) : s₁.types = s.types := by
  refine (h.eq_of_length_le ?_).symm
  rw [← same]
  exact h'.length_le

section AddField

variable {scope : Scope} {m m' : Module} {s s' : BodyState} {id : Option String}

/-- An import is added with the signature that is meant. -/
theorem imports_of_addField {module name : String} {spec : ImportSpec}
    (h : (addField scope m (.imported id module name spec)).run s = some (m', s'))
    (same : s'.types = s.types) : ∃ desc, Stands scope.types s.types spec desc ∧
      m' = { m with imports := m.imports ++ [⟨module, name, desc⟩] } := by
  cases spec with
  | func use =>
      obtain ⟨n, s₁, hn, h₁⟩ := run_bind_eq_some.mp h
      cases h₁
      exact ⟨.func n, stands_of_resolve hn same, rfl⟩
  | table t =>
      cases h
      exact ⟨_, stands_table _ _ t, rfl⟩
  | memory t =>
      cases h
      exact ⟨_, stands_memory _ _ t, rfl⟩
  | global t =>
      cases h
      exact ⟨_, stands_global _ _ t, rfl⟩

/-- A function has the signature that is meant. -/
theorem stands_of_function {use : TypeUse} {locals : List Variable} {body : List Sexpr} {n : Nat}
    {c : Code} {localNames labelNames : NameMap}
    (h : (function scope use locals body).run s = some ((n, c, localNames, labelNames), s'))
    (same : s'.types = s.types) : Stands scope.types s.types (.func use) (.func n) := by
  obtain ⟨n', s₁, hn, h₁⟩ := run_bind_eq_some.mp h
  obtain ⟨params, s₂, hparams, h₂⟩ := run_bind_eq_some.mp h₁
  dsimp only at h₂
  split at h₂
  · obtain ⟨⟨ops, labels⟩, s₃, hbody, h₃⟩ := run_bind_eq_some.mp h₂
    cases h₃
    have hlater : s₁.types <+: s'.types := (extends_paramIds _ _ _ _ _ hparams).trans
      (extends_isolated (extends_expression _ _) _ _ _ hbody)
    exact stands_of_resolve hn (types_between (extends_resolve _ _ _ _ _ hn) hlater same)
  · cases h₂

theorem elems_of_addField {mode : ElemSpec} {items : ElemList}
    (h : (addField scope m (.elem id mode items)).run s = some (m', s')) :
    ∃ elem, m' = { m with elems := m.elems ++ [elem] } := by
  obtain ⟨mode', s₁, -, h₁⟩ := run_bind_eq_some.mp h
  cases items with
  | funcs refs =>
      obtain ⟨refs', s₂, -, h₂⟩ := run_bind_eq_some.mp h₁
      cases h₂
      exact ⟨_, rfl⟩
  | exprs t es =>
      obtain ⟨es', s₂, -, h₂⟩ := run_bind_eq_some.mp h₁
      cases h₂
      exact ⟨_, rfl⟩

theorem datas_of_addField {place : Option (Ref × List Sexpr)} {bytes : Bytes}
    (h : (addField scope m (.data id place bytes)).run s = some (m', s')) :
    ∃ data, m' = { m with datas := m.datas ++ [data] } := by
  cases place with
  | none =>
      cases h
      exact ⟨_, rfl⟩
  | some p =>
      obtain ⟨memory, s₁, -, h₁⟩ := run_bind_eq_some.mp h
      obtain ⟨offset, s₂, -, h₂⟩ := run_bind_eq_some.mp h₁
      cases h₂
      exact ⟨_, rfl⟩

/-- A field adds to a module what it declares, where all signatures are known. -/
theorem Made.add {fields : List Field} {f : Field} (h : Made scope s.types fields m)
    (hr : (addField scope m f).run s = some (m', s')) (same : s'.types = s.types) :
    Made scope s.types (fields ++ [f]) m' := by
  cases f with
  | type id t =>
      cases hr
      exact h.keep rfl rfl rfl (fun _ => rfl) rfl rfl
  | imported id module name spec =>
      obtain ⟨desc, stands, rfl⟩ := imports_of_addField hr same
      exact h.bring rfl rfl ⟨rfl, stands⟩
  | func id use locals body =>
      obtain ⟨⟨type, code, localNames, labelNames⟩, s₁, hfunc, h₁⟩ := run_bind_eq_some.mp hr
      cases h₁
      refine h.define rfl rfl rfl (stands_of_function hfunc same) rfl (fun kind => ?_) rfl h.ends
      cases kind <;> simp [Module.own, ImportDesc.kind]
  | table id t =>
      cases hr
      refine h.define rfl rfl rfl (stands_table _ _ t) rfl (fun kind => ?_) rfl h.ends
      cases kind <;> simp [Module.own, ImportDesc.kind]
  | memory id t =>
      cases hr
      refine h.define rfl rfl rfl (stands_memory _ _ t) rfl (fun kind => ?_) rfl h.ends
      cases kind <;> simp [Module.own, ImportDesc.kind]
  | global id t init =>
      obtain ⟨ops, s₁, hops, h₁⟩ := run_bind_eq_some.mp hr
      cases h₁
      refine h.define rfl rfl rfl (stands_global _ _ t) rfl (fun kind => ?_) rfl fun g hg => ?_
      · cases kind <;> simp [Module.own, ImportDesc.kind]
      · rcases List.mem_append.mp hg with hg | hg
        · exact h.ends g hg
        · cases List.mem_singleton.mp hg
          exact ends_of_constantExpr hops
  | exported name kind ref =>
      obtain ⟨index, s₁, hindex, h₁⟩ := run_bind_eq_some.mp hr
      cases h₁
      exact h.expose rfl rfl ⟨rfl, rfl, (run_lift_eq_some.mp hindex).1⟩
  | start ref =>
      obtain ⟨func, s₁, -, h₁⟩ := run_bind_eq_some.mp hr
      split at h₁
      · cases h₁
      · cases h₁
        exact h.keep rfl rfl rfl (fun kind => by cases kind <;> rfl) rfl rfl
  | elem id mode items =>
      obtain ⟨elem, rfl⟩ := elems_of_addField hr
      exact h.keep rfl rfl rfl (fun kind => by cases kind <;> rfl) rfl rfl
  | data id place bytes =>
      obtain ⟨data, rfl⟩ := datas_of_addField hr
      exact h.keep rfl rfl rfl (fun kind => by cases kind <;> rfl) rfl rfl

end AddField

/-! ## All fields -/

end Wat

end WasmHost

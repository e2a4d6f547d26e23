import Mathlib
import WasmHost.Proofs.Compilation
import WasmHost.Proofs.Wasm.RoundTrip
import WasmHost.Proofs.Wat.Declarations

/-!
# A compiled text shows what it declares

The trees of a module's text declare imports, items of the module and exports. Once a text compiles,
its module shows just these, in the order in which they are declared: each import with the type that
is written for it, and each export with the type of the item that it refers to.
-/

namespace WasmHost.Wat

open Wasm Sexpr

/-! ## What all trees declare -/

/-- The item of a kind that a reference stands for: by its place among those of its kind, or by its
identifier. -/
def findItem (items : List Item) (kind : ItemKind) : Ref → Option Item
  | .index n => (items.filter (·.type.kind = kind))[n]?
  | .id name => (items.filter (·.type.kind = kind)).find? (·.id == some name)

/-- The exports that a declaration makes, each with the item that it refers to; an item that names its
exports in place refers to itself. -/
def Declaration.exports (items : List Item) : Declaration → List (String × Option Item)
  | item i names => names.map (·, some i)
  | exported name kind ref => [(name, findItem items kind ref)]
  | _ => []

/-- Where imports come first, so do the items that are imported. -/
theorem filter_of_importsFirst {fields : List Field} (h : importsFirst fields) (kind : ItemKind) :
    (fields.filterMap Field.item?).filter (·.type.kind = kind) =
      ((fields.filterMap Field.item?).filter (·.source.isSome)).filter (·.type.kind = kind) ++
        (fields.filterMap Field.item?).filter (Item.isOwn kind) := by
  have hsplit : fields = fields.takeWhile (!·.isDefinition) ++ fields.dropWhile (!·.isDefinition) :=
    List.takeWhile_append_dropWhile.symm
  have hfirst : ∀ f ∈ fields.takeWhile (!·.isDefinition), ∀ i, f.item? = some i →
      i.source.isSome := by
    intro f hf i hi
    have hplain := List.all_eq_true.mp List.all_takeWhile f hf
    cases f <;> cases hi <;> first | rfl | cases hplain
  have hlast : ∀ f ∈ fields.dropWhile (!·.isDefinition), ∀ i, f.item? = some i →
      i.source = none := by
    intro f hf i hi
    simp only [importsFirst, Bool.not_eq_true', List.any_eq_false] at h
    have hown := h f hf
    cases f <;> cases hi <;> first | rfl | exact absurd rfl hown
  generalize fields.takeWhile (!·.isDefinition) = first at hsplit hfirst
  generalize fields.dropWhile (!·.isDefinition) = last at hsplit hlast
  subst hsplit
  simp only [List.filterMap_append, List.filter_append, List.filter_filter]
  have himported (i : Item) (hi : i ∈ first.filterMap Field.item?) : i.source.isSome := by
    obtain ⟨f, hf, hitem⟩ := List.mem_filterMap.mp hi
    exact hfirst f hf i hitem
  have hdefined (i : Item) (hi : i ∈ last.filterMap Field.item?) : i.source = none := by
    obtain ⟨f, hf, hitem⟩ := List.mem_filterMap.mp hi
    exact hlast f hf i hitem
  have hfirstAll : (first.filterMap Field.item?).filter
        (fun i => decide (i.type.kind = kind) && i.source.isSome) =
      (first.filterMap Field.item?).filter (·.type.kind = kind) :=
    List.filter_congr fun i hi => by simp [himported i hi]
  have hfirstOwn : (first.filterMap Field.item?).filter (Item.isOwn kind) = [] :=
    List.filter_eq_nil_iff.mpr fun i hi => by
      simp [Item.isOwn, Option.isSome_iff_ne_none.mp (himported i hi)]
  have hlastImported : (last.filterMap Field.item?).filter
      (fun i => decide (i.type.kind = kind) && i.source.isSome) = [] :=
    List.filter_eq_nil_iff.mpr fun i hi => by simp [hdefined i hi]
  have hlastOwn : (last.filterMap Field.item?).filter (Item.isOwn kind) =
      (last.filterMap Field.item?).filter (·.type.kind = kind) :=
    List.filter_congr fun i hi => by simp [Item.isOwn, hdefined i hi]
  rw [hfirstAll, hfirstOwn, hlastImported, hlastOwn, List.append_nil, List.nil_append]

/-- The items of a module stand for those that are declared. -/
theorem Made.items {scope : Scope} {types : List FuncType} {fields : List Field} {m : Module}
    (h : Made scope types fields m) (first : importsFirst fields) (kind : ItemKind) :
    List.Forall₂ (fun i d => Stands scope.types types i.type d)
      ((fields.filterMap Field.item?).filter (·.type.kind = kind)) (m.items kind) := by
  rw [filter_of_importsFirst first, Module.items]
  refine List.rel_append ?_ (h.own kind)
  have himports := h.imports
  generalize (fields.filterMap Field.item?).filter (·.source.isSome) = items at himports
  generalize m.imports = imports at himports
  induction himports with
  | nil => exact .nil
  | @cons i e items imports hi _ ih =>
      have hkind : decide (e.desc.kind = kind) = decide (i.type.kind = kind) := by
        rw [hi.2.kind]
      rw [List.map_cons, List.filter_cons, List.filter_cons, hkind]
      split
      · exact .cons hi.2 ih
      · exact ih

/-! ## Compiled texts -/

/-- The import that a module shows is the one that is declared: its two names and its type. -/
def ShowsImport (ids : Ids) (types : List FuncType) (i : Item) (e : ImportType) : Prop :=
  i.source = some (e.module, e.name) ∧ i.type.Means ids types e.type

/-- The export that a module shows is the one that is declared: its name, and the type of the item
that it refers to. -/
def ShowsExport (ids : Ids) (types : List FuncType) (declared : String × Option Item)
    (e : ExportType) : Prop :=
  e.name = declared.1 ∧ ∃ i, declared.2 = some i ∧ i.type.Means ids types e.type

/-- What trees declare is what a module shows: all imports and all exports in their order. The
signatures of the module begin with those that are declared. -/
structure Shows (trees : List Sexpr) (types : List FuncType) (s : Signature) (ds : List Declaration) :
    Prop where
  declared : List.Forall₂ Declares trees ds
  written : (ds.filterMap Declaration.type?).map (·.2) <+: types
  imports : List.Forall₂ (ShowsImport ((ds.filterMap Declaration.type?).map (·.1)) types)
    ((ds.filterMap Declaration.item?).filter (·.source.isSome)) s.imports
  exports : List.Forall₂ (ShowsExport ((ds.filterMap Declaration.type?).map (·.1)) types)
    (ds.flatMap (Declaration.exports (ds.filterMap Declaration.item?))) s.exports

end WasmHost.Wat

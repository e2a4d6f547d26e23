import WasmHost.Objects

/-!
# Fitting imports

`World.fit` says whether an item is what an import asks for: a function must have the same
signature, a global the same type, and a table or memory must be at least as large as it is asked to
be and can grow no further. What counts is the size at the moment.
-/

namespace WasmHost

/-- Bounds as they are shown. -/
def Limits.shown (l : Limits) : String :=
  let max := match l.max with
    | some n => toString n
    | none => "none"
  s!"(min: {l.min}, max: {max})"

/-- Whether provided bounds are within wanted ones. -/
def Limits.allows (wanted provided : Limits) : Bool :=
  decide (wanted.min ≤ provided.min)
    && match wanted.max, provided.max with
      | none, _ => true
      | some w, some p => decide (p ≤ w)
      | some _, none => false

/-- Why an item is not what an import asks for. -/
inductive Misfit where
  | kind (wanted provided : ItemKind)
  | signature (wanted provided : FuncType)
  | content (kind : ItemKind) (wanted provided : ValType)
  | mutability (wanted : Bool)
  | sharing (wanted : Bool)
  | limits (kind : ItemKind) (wanted provided : Limits)
deriving DecidableEq

namespace Misfit

/-- The word for the kind of an item that was found. -/
def foundName : ItemKind → String
  | .func => "function"
  | k => k.name

/-- The text of a misfit. -/
def message : Misfit → String
  | kind wanted provided => s!"expected {wanted.name}, but found {foundName provided}"
  | signature wanted provided =>
    s!"types incompatible: expected type `{wanted.text}`, found type `{provided.text}`"
  | content k wanted provided =>
    s!"{k.name} types incompatible: expected {k.name} of type `{wanted.name}`, "
      ++ s!"found {k.name} of type `{provided.name}`"
  | mutability wanted =>
    let word (b : Bool) := if b then "mutable" else "immutable"
    s!"global types incompatible: expected {word wanted} global, found {word (!wanted)} global"
  | sharing wanted =>
    let word (b : Bool) := if b then "shared" else "non-shared"
    s!"memory types incompatible: expected {word wanted} memory, found {word (!wanted)} memory"
  | limits k wanted provided =>
    s!"{k.name} types incompatible: expected {k.name} limits {wanted.shown} "
      ++ s!"doesn't match provided {k.name} limits {provided.shown}"

end Misfit

/-- Whether a type with its size at the moment is what an import asks for. -/
def ItemType.fit : ItemType → ItemType → Except Misfit Unit
  | .func wanted, .func provided =>
    if wanted = provided then .ok () else .error (.signature wanted provided)
  | .global wanted, .global provided =>
    if wanted.content ≠ provided.content then
      .error (.content .global wanted.content provided.content)
    else if wanted.isMutable ≠ provided.isMutable then .error (.mutability wanted.isMutable)
    else .ok ()
  | .table wanted, .table provided =>
    if wanted.element ≠ provided.element then
      .error (.content .table wanted.element provided.element)
    else if wanted.limits.allows provided.limits then .ok ()
    else .error (.limits .table wanted.limits provided.limits)
  | .memory wanted, .memory provided =>
    if wanted.shared ≠ provided.shared then .error (.sharing wanted.shared)
    else if wanted.limits.allows provided.limits then .ok ()
    else .error (.limits .memory wanted.limits provided.limits)
  | wanted, provided => .error (.kind wanted.kind provided.kind)

namespace World

/-- The type of an item with its size at the moment as its least size. -/
def currentType? (w : World) (item : Item) : Option ItemType :=
  match item with
  | .table a t => some (.table { t with limits := { t.limits with min := w.tableSize a } })
  | .memory a t =>
    some (.memory { t with limits := { t.limits with min := (w.memory a).pages } })
  | item => w.itemType? item

/-- The text of the refusal of an import. -/
def incompatible (i : ImportType) (m : Misfit) : String :=
  s!"incompatible import type for `{i.module}::{i.name}`: " ++ m.message

/-- The first misfit of types with what the imports ask for, in order. -/
def fitTypes (imports : List ImportType) (types : List ItemType) : Except String Unit :=
  (imports.zip types).forM fun (i, t) => (i.type.fit t).mapError (incompatible i)

/-- Checks that items are what the imports ask for, in order. -/
def fit (w : World) (imports : List ImportType) (items : List Item) : Except String Unit :=
  fitTypes imports (items.map fun item => (w.currentType? item).getD default)

end World

end WasmHost

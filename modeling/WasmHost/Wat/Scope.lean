import WasmHost.Wasm.Module
import WasmHost.Wat.Field

/-!
# Identifiers

A `Scope` lists the identifiers of a module's items by kind, in the order of their indices. No
identifier may stand twice in one list.
-/

namespace WasmHost.Wat

/-- The identifiers of items, by index. -/
abbrev Ids := List (Option String)

namespace Ids

/-- The index of an identifier. -/
def find? (ids : Ids) (name : String) : Option Nat := ids.findIdx? (· == some name)

/-- The index that a reference stands for; a number stands for itself. -/
def resolve? (ids : Ids) : Ref → Option Nat
  | .index n => some n
  | .id name => ids.find? name

/-- Whether no identifier stands twice. -/
def isDistinct (ids : Ids) : Bool :=
  let names := ids.filterMap id
  names.eraseDups.length == names.length

/-- The identifiers with their indices. -/
def names (ids : Ids) : Wasm.NameMap :=
  (ids.zipIdx).filterMap fun (id, i) => id.map (i, ·)

end Ids

/-- The identifiers of a module, and its written signatures. -/
structure Scope where
  types : Ids := []
  funcs : Ids := []
  tables : Ids := []
  memories : Ids := []
  globals : Ids := []
  elems : Ids := []
  datas : Ids := []

namespace Scope

/-- The identifiers with those of one more field. -/
def add (s : Scope) : Field → Scope
  | .type id _ => { s with types := s.types ++ [id] }
  | .func id .. | .imported id _ _ (.func _) => { s with funcs := s.funcs ++ [id] }
  | .table id _ | .imported id _ _ (.table _) => { s with tables := s.tables ++ [id] }
  | .memory id _ | .imported id _ _ (.memory _) => { s with memories := s.memories ++ [id] }
  | .global id .. | .imported id _ _ (.global _) => { s with globals := s.globals ++ [id] }
  | .elem id .. => { s with elems := s.elems ++ [id] }
  | .data id .. => { s with datas := s.datas ++ [id] }
  | .exported .. | .start _ => s

/-- The identifiers of fields, if none stands twice. -/
def ofFields? (fields : List Field) : Option Scope :=
  let s : Scope := fields.foldl add {}
  if [s.types, s.funcs, s.tables, s.memories, s.globals, s.elems, s.datas].all Ids.isDistinct then
    some s
  else none

/-- The identifiers of the items of a kind. -/
def items (s : Scope) : ItemKind → Ids
  | .func => s.funcs
  | .table => s.tables
  | .memory => s.memories
  | .global => s.globals

end Scope

end WasmHost.Wat

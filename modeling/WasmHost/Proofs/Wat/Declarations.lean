import WasmHost.Proofs.Wat.Fields

/-!
# What a text declares

Each tree of a module's text declares a signature, an item, an export, or none of these. The rules of
`Declares` are those of the text format: an item may be imported by a tree of its own or in place, and
it may name its exports in place.
-/

namespace WasmHost.Wat

open Sexpr

/-! ## Types -/

/-- The parameters of one group: a single one with an identifier, or any number without. -/
inductive Params : List Sexpr → List Variable → Prop
  | named {s t : Sexpr} {name : String} {type : ValType} (hs : s.id? = some name)
      (ht : t.valType? = some type) : Params [s, t] [⟨some name, type⟩]
  | unnamed {ts : List Sexpr} {types : List ValType} (h : ts.mapM valType? = some types) :
      Params ts (types.map (⟨none, ·⟩))

/-- What trees say of a signature, and the trees behind it: the groups of parameters and of results add
up. Without a group nothing is said. -/
inductive Writes : List Sexpr → Option InlineType → List Sexpr → Prop
  | nothing {rest : List Sexpr}
      (h : ∀ s ∈ rest.head?, s.form? "param" = none ∧ s.form? "result" = none) :
      Writes rest none rest
  | param {ps items rest : List Sexpr} {vs : List Variable} {t : Option InlineType}
      (hps : Params ps vs) (h : Writes items t rest) :
      Writes (list (word "param" :: ps) :: items)
        (some ⟨vs ++ (t.getD {}).params, (t.getD {}).results⟩) rest
  | result {rs items rest : List Sexpr} {types : List ValType} {t : Option InlineType}
      (hrs : rs.mapM valType? = some types) (h : Writes items t rest) :
      Writes (list (word "result" :: rs) :: items)
        (some ⟨(t.getD {}).params, types ++ (t.getD {}).results⟩) rest

/-- What trees say of the signature of a function, and the trees behind it. -/
inductive Uses : List Sexpr → TypeUse → List Sexpr → Prop
  | bare {items rest : List Sexpr} {t : Option InlineType}
      (hbare : ∀ s ∈ items.head?, s.form? "type" = none) (h : Writes items t rest) :
      Uses items ⟨none, t⟩ rest
  | referred {r : Sexpr} {ref : Ref} {items rest : List Sexpr} {t : Option InlineType}
      (hr : r.ref? = some ref) (h : Writes items t rest) :
      Uses (list [word "type", r] :: items) ⟨some ref, t⟩ rest

/-- The bounds of a table or a memory: the least size, and the greatest one if there is one. -/
inductive Bounds : List Sexpr → Limits → Prop
  | least {a : Sexpr} {n : Nat} (ha : a.nat? (twoTo 32) = some n) : Bounds [a] ⟨n, none⟩
  | both {a b : Sexpr} {n m : Nat} (ha : a.nat? (twoTo 32) = some n)
      (hb : b.nat? (twoTo 32) = some m) : Bounds [a, b] ⟨n, some m⟩

/-- The type of a table. -/
inductive IsTable : List Sexpr → TableType → Prop
  | mk {bounds : List Sexpr} {limits : Limits} {t : Sexpr} {type : ValType} (h : Bounds bounds limits)
      (ht : t.refType? = some type) : IsTable (bounds ++ [t]) ⟨type, limits⟩

/-- The type of a memory, which may say that its addresses are narrow and that it is shared. -/
inductive IsMemory : List Sexpr → MemoryType → Prop
  | own {bounds : List Sexpr} {limits : Limits} (h : Bounds bounds limits) :
      IsMemory bounds ⟨limits, false⟩
  | shared {bounds : List Sexpr} {limits : Limits} (h : Bounds bounds limits) :
      IsMemory (bounds ++ [word "shared"]) ⟨limits, true⟩
  | narrow {items : List Sexpr} {t : MemoryType} (h : IsMemory items t) :
      IsMemory (word "i32" :: items) t

/-- The type of a global. -/
inductive IsGlobal : Sexpr → GlobalType → Prop
  | constant {s : Sexpr} {type : ValType} (h : s.valType? = some type) : IsGlobal s ⟨type, false⟩
  | mutable {s : Sexpr} {type : ValType} (h : s.valType? = some type) :
      IsGlobal (list [word "mut", s]) ⟨type, true⟩

/-! ## Declarations -/

/-- What an import says of the type of its item. -/
inductive Describes : ItemKind → List Sexpr → ImportSpec → Prop
  | func {items : List Sexpr} {use : TypeUse} (h : Uses items use []) :
      Describes .func items (.func use)
  | table {items : List Sexpr} {t : TableType} (h : IsTable items t) : Describes .table items (.table t)
  | memory {items : List Sexpr} {t : MemoryType} (h : IsMemory items t) :
      Describes .memory items (.memory t)
  | global {s : Sexpr} {t : GlobalType} (h : IsGlobal s t) : Describes .global [s] (.global t)

/-- What a definition says of the type of its item. A table or a memory that is given by its contents
has room for just these. -/
inductive Defines : ItemKind → List Sexpr → ImportSpec → Prop
  | func {items rest : List Sexpr} {use : TypeUse} (h : Uses items use rest) :
      Defines .func items (.func use)
  | table {items : List Sexpr} {t : TableType} (h : IsTable items t) : Defines .table items (.table t)
  | elements {t : Sexpr} {es : List Sexpr} {type : ValType} (h : t.refType? = some type) :
      Defines .table [t, list (word "elem" :: es)] (.table ⟨type, ⟨es.length, some es.length⟩⟩)
  | memory {items : List Sexpr} {t : MemoryType} (h : IsMemory items t) :
      Defines .memory items (.memory t)
  | bytes {ds : List Sexpr} {bytes : List (List UInt8)} {pages : Nat}
      (h : ds.mapM bytes? = some bytes) (fits : pages = (bytes.flatten.length + 65535) / 65536) :
      Defines .memory [list (word "data" :: ds)] (.memory ⟨⟨pages, some pages⟩, false⟩)
  | global {t : Sexpr} {type : GlobalType} {init : List Sexpr} (h : IsGlobal t type) :
      Defines .global (t :: init) (.global type)

/-- What one tree declares. -/
inductive Declaration where
  | type (id : Option String) (type : FuncType)
  | item (item : Item) (exports : List String)
  | exported (name : String) (kind : ItemKind) (ref : Ref)
  | other

/-- An export in place. -/
def inlineExport (name : Sexpr) : Sexpr := list [word "export", name]

/-- What a tree declares. -/
inductive Declares : Sexpr → Declaration → Prop
  | type {rest items : List Sexpr} {id : Option String} {t : Option InlineType}
      (hid : takeId rest = (id, [list (word "func" :: items)])) (h : Writes items t []) :
      Declares (list (word "type" :: rest)) (.type id (t.getD {}).plain)
  | imported {m n : Sexpr} {module name : String} {kind : ItemKind} {rest items : List Sexpr}
      {id : Option String} {spec : ImportSpec} (hm : m.name? = some module) (hn : n.name? = some name)
      (hid : takeId rest = (id, items)) (h : Describes kind items spec) :
      Declares (list [word "import", m, n, list (word kind.name :: rest)])
        (.item ⟨id, some (module, name), spec⟩ [])
  | importedInPlace {m n : Sexpr} {module name : String} {kind : ItemKind}
      {rest items es : List Sexpr} {exports : List String} {id : Option String} {spec : ImportSpec}
      (hid : takeId rest = (id, es.map inlineExport ++ list [word "import", m, n] :: items))
      (hes : es.mapM name? = some exports) (hm : m.name? = some module) (hn : n.name? = some name)
      (h : Describes kind items spec) :
      Declares (list (word kind.name :: rest)) (.item ⟨id, some (module, name), spec⟩ exports)
  | defined {kind : ItemKind} {rest items es : List Sexpr} {exports : List String}
      {id : Option String} {spec : ImportSpec} (hid : takeId rest = (id, es.map inlineExport ++ items))
      (hes : es.mapM name? = some exports)
      (plain : ∀ s ∈ items.head?, s.form? "export" = none ∧ s.form? "import" = none)
      (h : Defines kind items spec) :
      Declares (list (word kind.name :: rest)) (.item ⟨id, none, spec⟩ exports)
  | exported {n r : Sexpr} {name : String} {kind : ItemKind} {ref : Ref} (hn : n.name? = some name)
      (hr : r.ref? = some ref) :
      Declares (list [word "export", n, list [word kind.name, r]]) (.exported name kind ref)
  | other {keyword : String} {items : List Sexpr} (h : keyword ∈ ["start", "elem", "data"]) :
      Declares (list (word keyword :: items)) .other

/-! ## Types are read -/

/-- A signature with what further groups say. -/
def InlineType.with (soFar : Option InlineType) : Option InlineType → Option InlineType
  | none => soFar
  | some t => some ⟨(soFar.getD {}).params ++ t.params, (soFar.getD {}).results ++ t.results⟩

/-- The item that a tree declares. -/
def Declaration.item? : Declaration → Option Item
  | item i _ => some i
  | _ => none

/-- The signature that a tree declares, with its identifier. -/
def Declaration.type? : Declaration → Option (Option String × FuncType)
  | type id t => some (id, t)
  | _ => none

/-- The exports that a tree declares, where there are so many items of each kind before it. -/
def Declaration.exportsAt (count : ItemKind → Nat) : Declaration → List (String × ItemKind × Ref)
  | item i names => names.map fun e => (e, i.type.kind, .index (count i.type.kind))
  | exported name kind ref => [(name, kind, ref)]
  | _ => []

/-- The signature that a field declares, with its identifier. -/
def Field.type? : Field → Option (Option String × FuncType)
  | .type id t => some (id, t.plain)
  | _ => none

/-- Fields say what a tree declares. -/
structure Says (count : ItemKind → Nat) (d : Declaration) (fields : List Field) : Prop where
  items : fields.filterMap Field.item? = d.item?.toList
  types : fields.filterMap Field.type? = d.type?.toList
  exports : fields.filterMap Field.export? = d.exportsAt count

end WasmHost.Wat

import WasmHost.Types
import WasmHost.Wat.Literal
import WasmHost.Wat.Sexpr

/-!
# Fields of a module's text

The text of a module is a sequence of fields. `Field.ofSexprs?` reads them and writes out what the
text abbreviates: an export, an import or contents given inside an item become fields of their own.
Names are still names, and instructions are still trees.
-/

namespace WasmHost.Wat

/-- A reference to an item: an index or an identifier. -/
inductive Ref where
  | index (n : Nat)
  | id (name : String)
deriving DecidableEq

/-- A parameter or local variable, with its identifier. -/
structure Variable where
  id : Option String
  type : ValType
deriving DecidableEq

/-- A signature that is written out. -/
structure InlineType where
  params : List Variable := []
  results : List ValType := []
deriving DecidableEq

/-- The signature without the identifiers. -/
def InlineType.plain (t : InlineType) : FuncType := ⟨t.params.map (·.type), t.results⟩

/-- How a signature is given: by reference, written out, both, or not at all. -/
structure TypeUse where
  ref : Option Ref := none
  inline : Option InlineType := none
deriving DecidableEq

/-- The item that an import asks for. -/
inductive ImportSpec where
  | func (use : TypeUse)
  | table (type : TableType)
  | memory (type : MemoryType)
  | global (type : GlobalType)

/-- The mode of a segment of elements. -/
inductive ElemSpec where
  | active (table : Option Ref) (offset : List Sexpr)
  | passive
  | declared

/-- The elements of a segment. -/
inductive ElemList where
  | funcs (refs : List Ref)
  | exprs (type : ValType) (exprs : List (List Sexpr))

/-- A field of a module. -/
inductive Field where
  | type (id : Option String) (type : InlineType)
  | imported (id : Option String) (module name : String) (item : ImportSpec)
  | func (id : Option String) (use : TypeUse) (locals : List Variable) (body : List Sexpr)
  | table (id : Option String) (type : TableType)
  | memory (id : Option String) (type : MemoryType)
  | global (id : Option String) (type : GlobalType) (init : List Sexpr)
  | exported (name : String) (kind : ItemKind) (ref : Ref)
  | start (ref : Ref)
  | elem (id : Option String) (mode : ElemSpec) (items : ElemList)
  | data (id : Option String) (place : Option (Ref × List Sexpr)) (bytes : List UInt8)

namespace Sexpr

/-- A natural number below a bound. -/
def nat? (bound : Nat) : Sexpr → Option Nat
  | word w => (Numeral.ofWord? w).bind (·.toNat? bound)
  | _ => none

/-- A reference to an item. -/
def ref? (s : Sexpr) : Option Ref :=
  match s.id? with
  | some name => some (.id name)
  | none => (s.nat? (twoTo 32)).map .index

/-- A kind of value; a reference may be spelled out. -/
def valType? : Sexpr → Option ValType
  | word w => ValType.ofName? w
  | list [word "ref", word "null", word "func"] => some .funcref
  | list [word "ref", word "null", word "extern"] => some .externref
  | _ => none

/-- A kind of reference. -/
def refType? (s : Sexpr) : Option ValType := s.valType?.filter (·.isRef)

/-- A name: a string that is text. -/
def name? : Sexpr → Option String
  | string bytes => (Text.decodeUtf8 bytes).toOption
  | _ => none

/-- The bytes of a string. -/
def bytes? : Sexpr → Option (List UInt8)
  | string bytes => some bytes
  | _ => none

end Sexpr

open Sexpr

/-- Takes an identifier from the front, if one is there. -/
def takeId : List Sexpr → Option String × List Sexpr
  | s :: rest =>
    match s.id? with
    | some name => (some name, rest)
    | none => (none, s :: rest)
  | [] => (none, [])

/-- Takes a reference from the front, if one is there. -/
def takeRef : List Sexpr → Option Ref × List Sexpr
  | s :: rest =>
    match s.ref? with
    | some ref => (some ref, rest)
    | none => (none, s :: rest)
  | [] => (none, [])

/-- The variables of one group: one with an identifier, or any number without. -/
def variables? (named : Bool) : List Sexpr → Option (List Variable)
  | [] => some []
  | s :: rest =>
    match s.id? with
    | some name =>
      match named, rest with
      | true, [t] => t.valType?.map fun t => [⟨some name, t⟩]
      | _, _ => none
    | none => (s :: rest).mapM fun s => s.valType?.map (⟨none, ·⟩)

/-- Takes the groups of a written signature from the front; no parameter may follow a result. -/
def takeSignature (named : Bool) (soFar : Option InlineType) :
    List Sexpr → Option (Option InlineType × List Sexpr)
  | [] => some (soFar, [])
  | s :: rest =>
    let t := soFar.getD {}
    match s.form? "param", s.form? "result" with
    | some items, _ =>
      if t.results.isEmpty then
        match variables? named items with
        | some vs => takeSignature named (some { t with params := t.params ++ vs }) rest
        | none => none
      else none
    | none, some items =>
      match items.mapM valType? with
      | some ts => takeSignature named (some { t with results := t.results ++ ts }) rest
      | none => none
    | none, none => some (soFar, s :: rest)

/-- Takes the reference to a signature and its written form from the front. -/
def takeTypeUse (named : Bool) (items : List Sexpr) : Option (TypeUse × List Sexpr) := do
  let (ref, items) ← match items with
    | s :: rest =>
      match s.form? "type" with
      | some [r] => r.ref?.map fun r => (some r, rest)
      | some _ => none
      | none => some (none, items)
    | [] => some (none, [])
  let (inline, items) ← takeSignature named none items
  return ({ ref, inline }, items)

/-- Takes the local variables of a function from the front. -/
def takeLocals (soFar : List Variable) : List Sexpr → Option (List Variable × List Sexpr)
  | [] => some (soFar, [])
  | s :: rest =>
    match s.form? "local" with
    | some items =>
      match variables? true items with
      | some vs => takeLocals (soFar ++ vs) rest
      | none => none
    | none => some (soFar, s :: rest)

/-- Takes bounds from the front. -/
def takeLimits : List Sexpr → Option (Limits × List Sexpr)
  | [] => none
  | s :: rest => do
    let min ← s.nat? (twoTo 32)
    match rest with
    | [] => return (⟨min, none⟩, [])
    | s :: rest' =>
      match s.nat? (twoTo 32) with
      | some max => return (⟨min, some max⟩, rest')
      | none => return (⟨min, none⟩, rest)

/-- The type of a table. -/
def tableType? (items : List Sexpr) : Option TableType := do
  let (limits, items) ← takeLimits items
  match items with
  | [t] => t.refType?.map (⟨·, limits⟩)
  | _ => none

/-- The type of a memory. -/
def memoryType? (items : List Sexpr) : Option MemoryType := do
  let items := match items with
    | word "i32" :: rest => rest
    | items => items
  let (limits, items) ← takeLimits items
  match items with
  | [] => some ⟨limits, false⟩
  | [word "shared"] => some ⟨limits, true⟩
  | _ => none

/-- The type of a global. -/
def globalType? (s : Sexpr) : Option GlobalType :=
  match s.form? "mut" with
  | some [t] => t.valType?.map (⟨·, true⟩)
  | some _ => none
  | none => s.valType?.map (⟨·, false⟩)

/-- Takes the exports that an item names from the front. -/
def takeExports (soFar : List String) : List Sexpr → Option (List String × List Sexpr)
  | [] => some (soFar, [])
  | s :: rest =>
    match s.form? "export" with
    | some [n] =>
      match n.name? with
      | some n => takeExports (soFar ++ [n]) rest
      | none => none
    | some _ => none
    | none => some (soFar, s :: rest)

/-- Takes the import that an item names from the front, if there is one. -/
def takeImport : List Sexpr → Option (Option (String × String) × List Sexpr)
  | [] => some (none, [])
  | s :: rest =>
    match s.form? "import" with
    | some [m, n] => do return (some (← m.name?, ← n.name?), rest)
    | some _ => none
    | none => some (none, s :: rest)

/-- The item of an import, with its identifier. -/
def importSpec? (s : Sexpr) : Option (Option String × ImportSpec) := do
  match s with
  | list (word kind :: items) =>
    let (id, items) := takeId items
    match kind, items with
    | "func", items =>
      match ← takeTypeUse true items with
      | (use, []) => return (id, .func use)
      | _ => none
    | "table", items => return (id, .table (← tableType? items))
    | "memory", items => return (id, .memory (← memoryType? items))
    | "global", [t] => return (id, .global (← globalType? t))
    | _, _ => none
  | _ => none

/-- An offset: the instructions of an `offset`, or one folded instruction. -/
def offset? (s : Sexpr) : Option (List Sexpr) :=
  match s.form? "offset", s with
  | some items, _ => some items
  | none, list items => some [list items]
  | none, _ => none

/-- An element: the instructions of an `item`, or one folded instruction. -/
def item? (s : Sexpr) : Option (List Sexpr) :=
  match s.form? "item", s with
  | some items, _ => some items
  | none, list items => some [list items]
  | none, _ => none

/-- The elements of a segment: functions, or expressions of the type in front of them. -/
def elemList? (items : List Sexpr) : Option ElemList :=
  match items with
  | [] => some (.funcs [])
  | s :: rest =>
    match s.refType?, s, rest with
    | some t, _, [] => some (.exprs t [])
    | some t, _, list items :: rest => (((list items) :: rest).mapM item?).map (.exprs t)
    | some _, _, rest => (rest.mapM ref?).map .funcs
    | none, word "func", rest => (rest.mapM ref?).map .funcs
    | none, _, _ => (items.mapM ref?).map .funcs

/-- A segment of elements behind its identifier. -/
def elem? (items : List Sexpr) : Option (ElemSpec × ElemList) := do
  match items with
  | word "declare" :: rest => return (.declared, ← elemList? rest)
  | s :: rest =>
    match s.nat? (twoTo 32), s.form? "table", s.refType?, s with
    | some n, _, _, _ =>
      match rest with
      | o :: rest => return (.active (some (.index n)) (← offset? o), ← elemList? rest)
      | [] => none
    | none, some [r], _, _ =>
      match rest with
      | o :: rest => return (.active (some (← r.ref?)) (← offset? o), ← elemList? rest)
      | [] => none
    | none, none, none, list _ => return (.active none (← offset? s), ← elemList? rest)
    | none, some _, _, _ => none
    | none, none, _, _ => return (.passive, ← elemList? items)
  | [] => return (.passive, .funcs [])

/-- A segment of data behind its identifier. -/
def data? (items : List Sexpr) : Option (Option (Ref × List Sexpr) × List UInt8) := do
  let bytes (rest : List Sexpr) : Option (List UInt8) := (rest.mapM bytes?).map List.flatten
  match items with
  | string _ :: _ => return (none, ← bytes items)
  | s :: rest =>
    match s.nat? (twoTo 32), s.form? "memory" with
    | some n, _ =>
      match rest with
      | o :: rest => return (some (.index n, ← offset? o), ← bytes rest)
      | [] => none
    | none, some [r] =>
      match rest with
      | o :: rest => return (some (← r.ref?, ← offset? o), ← bytes rest)
      | [] => none
    | none, some _ => none
    | none, none => return (some (.index 0, ← offset? s), ← bytes rest)
  | [] => none

/-! ## Fields -/

/-- How many items of each kind the fields so far have. -/
structure ItemCounts where
  funcs : Nat := 0
  tables : Nat := 0
  memories : Nat := 0
  globals : Nat := 0

/-- The number of items of a kind. -/
def ItemCounts.of (c : ItemCounts) : ItemKind → Nat
  | .func => c.funcs
  | .table => c.tables
  | .memory => c.memories
  | .global => c.globals

/-- One more item of a kind. -/
def ItemCounts.add (c : ItemCounts) : ItemKind → ItemCounts
  | .func => { c with funcs := c.funcs + 1 }
  | .table => { c with tables := c.tables + 1 }
  | .memory => { c with memories := c.memories + 1 }
  | .global => { c with globals := c.globals + 1 }

/-- The fields that define or import one item with identifier `id`, where `n` is its index. -/
def itemFields (kind : ItemKind) (n : Nat) (id : Option String) (items : List Sexpr) :
    Option (List Field) := do
  let (exports, items) ← takeExports [] items
  let (source, items) ← takeImport items
  let exports := exports.map fun e => Field.exported e kind (.index n)
  match source with
  | some (m, e) =>
    match ← importSpec? (list (word kind.name :: items)) with
    | (none, spec) => return exports ++ [.imported id m e spec]
    | (some _, _) => none
  | none =>
    match kind, items with
    | .func, items =>
      let (use, items) ← takeTypeUse true items
      let (locals, body) ← takeLocals [] items
      return exports ++ [.func id use locals body]
    | .table, [t, list (word "elem" :: es)] =>
      let type ← t.refType?
      let (size, payload) ← match es with
        | list _ :: _ => do
          let es ← es.mapM item?
          some (es.length, ElemList.exprs type es)
        | es => do
          let refs ← es.mapM ref?
          some (refs.length, ElemList.funcs refs)
      let zero : List Sexpr := [list [word "i32.const", word "0"]]
      return exports ++ [.elem none (.active (some (.index n)) zero) payload,
        .table id ⟨type, ⟨size, some size⟩⟩]
    | .table, items => return exports ++ [.table id (← tableType? items)]
    | .memory, [list (word "data" :: ds)] =>
      let bytes := (← ds.mapM bytes?).flatten
      let pages := (bytes.length + 65535) / 65536
      let zero : List Sexpr := [list [word "i32.const", word "0"]]
      return exports ++ [.data none (some (.index n, zero)) bytes,
        .memory id ⟨⟨pages, some pages⟩, false⟩]
    | .memory, items => return exports ++ [.memory id (← memoryType? items)]
    | .global, t :: init => return exports ++ [.global id (← globalType? t) init]
    | .global, [] => none

/-- The fields of one tree, and the counts behind it. -/
def field? (c : ItemCounts) (s : Sexpr) : Option (List Field × ItemCounts) := do
  match s with
  | list (word keyword :: items) =>
    let (id, rest) := takeId items
    let item (kind : ItemKind) := do
      return (← itemFields kind (c.of kind) id rest, c.add kind)
    match keyword with
    | "func" => item .func
    | "table" => item .table
    | "memory" => item .memory
    | "global" => item .global
    | "import" =>
      match items with
      | [m, n, s] =>
        let (id, spec) ← importSpec? s
        let kind : ItemKind := match spec with
          | .func _ => .func
          | .table _ => .table
          | .memory _ => .memory
          | .global _ => .global
        return ([.imported id (← m.name?) (← n.name?) spec], c.add kind)
      | _ => none
    | "type" =>
      match rest with
      | [s] =>
        match ← takeSignature true none (← s.form? "func") with
        | (t, []) => return ([.type id (t.getD {})], c)
        | _ => none
      | _ => none
    | "export" =>
      match items with
      | [n, list [word kind, r]] =>
        let kind ← [ItemKind.func, .table, .memory, .global].find? (·.name == kind)
        return ([.exported (← n.name?) kind (← r.ref?)], c)
      | _ => none
    | "start" =>
      match items with
      | [r] => return ([.start (← r.ref?)], c)
      | _ => none
    | "elem" =>
      let (mode, payload) ← elem? rest
      return ([.elem id mode payload], c)
    | "data" =>
      let (place, bytes) ← data? rest
      return ([.data id place bytes], c)
    | _ => none
  | _ => none

/-- The fields of some trees. -/
def Field.ofSexprs? (c : ItemCounts) : List Sexpr → Option (List Field)
  | [] => some []
  | s :: rest => do
    let (fields, c) ← field? c s
    return fields ++ (← Field.ofSexprs? c rest)

end WasmHost.Wat

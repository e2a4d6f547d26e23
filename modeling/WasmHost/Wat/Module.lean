import WasmHost.Wasm.Encode
import WasmHost.Wat.Body

/-!
# Modules from text

`Wasm.Module.ofText?` reads a module from its text: written signatures come first, in order, and
those that are only used follow in the order of their first use.
-/

namespace WasmHost.Wat

open WasmHost.Wasm

/-- Runs a step for one body: its labels start anew, and its signatures are kept. The names of its
blocks are the second result. -/
def isolated {α : Type} (b : Build α) : Build (α × NameMap) := do
  modify fun s => { s with labels := [], blocks := 0, labelNames := [] }
  let a ← b
  return (a, (← get).labelNames)

/-- Neighbouring locals of one type as one group. -/
def localGroups : List ValType → List (Nat × ValType)
  | [] => []
  | t :: ts =>
    match localGroups ts with
    | (n, u) :: rest => if t = u then (n + 1, u) :: rest else (1, t) :: (n, u) :: rest
    | [] => [(1, t)]

/-- The identifiers of a function's parameters, and how many there are: those that are written out,
or as many as the signature has. -/
def paramIds (use : TypeUse) (type : Nat) : Build Ids := do
  match use.inline with
  | some t => return t.params.map (·.id)
  | none => return ((← get).types[type]?.map fun t => t.params.map fun _ => none).getD []

/-- A function's body, with the names of its locals and of its blocks. -/
def function (scope : Scope) (use : TypeUse) (locals : List Variable) (body : List Sexpr) :
    Build (Nat × Code × NameMap × NameMap) := do
  let type ← use.resolve scope
  let ids := (← paramIds use type) ++ locals.map (·.id)
  if ids.isDistinct then
    let (ops, labels) ← isolated (expression { scope, locals := ids } body)
    let written : Ids := (use.inline.getD {}).params.map (·.id) ++ locals.map (·.id)
    return (type, ⟨localGroups (locals.map (·.type)), ops⟩, written.names, labels)
  else refused

/-- An expression outside of functions. -/
def constantExpr (scope : Scope) (items : List Sexpr) : Build (List Op) := do
  return (← isolated (expression { scope } items)).1

/-- The mode of a segment of elements of some type. The shortest form is for functions only. -/
def elemMode (scope : Scope) (type : ValType) : ElemSpec → Build ElemMode
  | .passive => return .passive
  | .declared => return .declared
  | .active table offset => do
    let table ← match table with
      | some r => do pure (some (← scope.tables.resolve? r))
      | none => pure (if type = .funcref then none else some 0)
    return .active table (← constantExpr scope offset)

/-- Adds what a field says to a module. -/
def addField (scope : Scope) (m : Module) : Field → Build Module
  | .type .. => return m
  | .imported _ module name spec => do
    let desc ← match spec with
      | .func use => do pure (ImportDesc.func (← use.resolve scope))
      | .table t => pure (.table t)
      | .memory t => pure (.memory t)
      | .global t => pure (.global t)
    return { m with imports := m.imports ++ [⟨module, name, desc⟩] }
  | .func _ use locals body => do
    let index := m.importedFuncs + m.funcs.length
    let (type, code, localNames, labelNames) ← function scope use locals body
    let named (ns : NameMap) (all : List (Nat × NameMap)) : List (Nat × NameMap) :=
      if ns.isEmpty then all else all ++ [(index, ns)]
    return { m with funcs := m.funcs ++ [type], codes := m.codes ++ [code]
                    names.locals := named localNames m.names.locals
                    names.labels := named labelNames m.names.labels }
  | .table _ t => return { m with tables := m.tables ++ [t] }
  | .memory _ t => return { m with memories := m.memories ++ [t] }
  | .global _ t init => do
    return { m with globals := m.globals ++ [⟨t, ← constantExpr scope init⟩] }
  | .exported name kind ref => do
    return { m with exports := m.exports ++ [⟨name, kind, ← (scope.items kind).resolve? ref⟩] }
  | .start ref => do
    let func ← scope.funcs.resolve? ref
    if m.start.isSome then refused else return { m with start := some func }
  | .elem _ mode items => do
    let type := match items with
      | .funcs _ => ValType.funcref
      | .exprs t _ => t
    let mode ← elemMode scope type mode
    let items ← match items with
      | .funcs refs => do
        let refs ← (refs.mapM scope.funcs.resolve? : Option (List Nat))
        pure (ElemItems.funcs refs)
      | .exprs t es => do pure (ElemItems.exprs t (← es.mapM (constantExpr scope)))
    return { m with elems := m.elems ++ [⟨mode, items⟩] }
  | .data _ place bytes => do
    let place ← match place with
      | some (ref, offset) => do
        let memory ← scope.memories.resolve? ref
        pure (some (memory, ← constantExpr scope offset))
      | none => pure none
    return { m with datas := m.datas ++ [⟨place, bytes⟩] }

/-- Whether a field defines an item that an import could have given. -/
def Field.isDefinition : Field → Bool
  | .func .. | .table .. | .memory .. | .global .. => true
  | _ => false

/-- Whether a field is an import. -/
def Field.isImport : Field → Bool
  | .imported .. => true
  | _ => false

/-- Whether all imports come before all definitions. -/
def importsFirst (fields : List Field) : Bool :=
  !(fields.dropWhile fun f => !f.isDefinition).any Field.isImport

/-- The identifiers of a module as its names. -/
def namesOf (id : Option String) (s : Scope) (names : Names) : Names :=
  { names with module := id, funcs := s.funcs.names, types := s.types.names
               tables := s.tables.names, memories := s.memories.names
               globals := s.globals.names, elems := s.elems.names, datas := s.datas.names }

/-- Whether an instruction refers to a segment of data, which then has to be counted first. -/
def needsDataCount : Op → Bool
  | .memoryInit .. | .dataDrop _ => true
  | _ => false

/-- The signatures that are written out as fields. -/
def writtenTypes (fields : List Field) : List FuncType :=
  fields.filterMap fun f => match f with
    | .type _ t => some t.plain
    | _ => none

/-- The module of some fields. A signature may be referred to by its index before its first use, so
the fields are read twice: the signatures that the first reading finds are all there are. -/
def moduleOf? (id : Option String) (fields : List Field) : Option Module := do
  let scope ← Scope.ofFields? fields
  if importsFirst fields then
    let reading := fields.foldlM (addField scope) {}
    let (_, first) ← reading.run { types := writtenTypes fields }
    let (m, second) ← reading.run { types := first.types }
    if second.types = first.types then
      let counted := m.codes.any fun c => c.body.any needsDataCount
      return { m with types := first.types
                      dataCount := if counted then some m.datas.length else none
                      names := namesOf id scope m.names }
    else none
  else none

end WasmHost.Wat

namespace WasmHost.Wasm

open WasmHost.Wat

/-- The module that a text describes: one `module`, or fields without one around them. -/
def Module.ofText? (text : String) : Option Module := do
  match ← Sexpr.ofText? text with
  | [] => none
  | .list (.word "module" :: items) :: rest =>
    let (id, items) := takeId items
    if rest.isEmpty then moduleOf? id (← Field.ofSexprs? {} items) else none
  | trees => moduleOf? none (← Field.ofSexprs? {} trees)

end WasmHost.Wasm

import WasmHost.Machine.Run

/-!
# Linkers

A linker gives items two-part names and finds the imports of a module by them. A name that is taken
can only be defined again while shadowing is allowed. A function of the embedder that is defined
here belongs to no store; each store that imports it gets a function of its own.
-/

namespace WasmHost

/-- What a name stands for. -/
inductive Definition where
  /-- An item of a store, with its type at the time; the size of a table or memory was its least. -/
  | item (item : Item) (type : ItemType)
  /-- A function of the embedder. -/
  | host (type : FuncType) (ops : List HostOp) (closure : ClosureId)
  /-- A function of the system interface. -/
  | wasi (func : Wasi.Func)

namespace Definition

/-- The type of what was defined, at that time. -/
def type : Definition → ItemType
  | item _ t => t
  | host t .. => .func t
  | wasi f => .func f.type

/-- The type with its size at the moment. -/
def currentType (w : World) : Definition → ItemType
  | item i t => (w.currentType? i).getD t
  | d => d.type

/-- The closure that a definition uses. -/
def closures : Definition → List ClosureId
  | host _ _ id => [id]
  | item .. | wasi _ => []

/-- The item in a store; a function that belongs to no store is added to it. -/
def toItem (w : World) : Definition → Item × World
  | item i _ => (i, w)
  | host type ops id =>
    let (a, w) := w.shareHostFunc type ops id
    (.func a, w)
  | wasi f =>
    let (a, w) := w.newFunc f.type (.wasi f)
    (.func a, w)

/-- The items in a store, in order. -/
def toItems : List Definition → World → List Item × World
  | [], w => ([], w)
  | d :: ds, w =>
    let (i, w) := d.toItem w
    let (is, w) := toItems ds w
    (i :: is, w)

end Definition

/-- The two parts of a name. -/
structure LinkName where
  module : String
  name : String
deriving DecidableEq

/-- A linker. -/
structure Linker where
  allowsShadowing : Bool := false
  definitions : List (LinkName × Definition) := []

namespace Linker

/-- A linker as it is shown. -/
def shown : String := "Linker \x7b .. \x7d"

/-- Says whether a later definition may take the place of an earlier one. -/
def allowShadowing (allow : Bool) (l : Linker) : Linker := { l with allowsShadowing := allow }

/-- What a name stands for, if it is defined. -/
def find? (l : Linker) (n : LinkName) : Option Definition := l.definitions.lookup n

/-- Defines a name, whatever it stood for. -/
def insert (n : LinkName) (d : Definition) (l : Linker) : Linker :=
  { l with definitions := (n, d) :: l.definitions.filter (·.1 ≠ n) }

/-- The closures that the definitions use. -/
def closures (l : Linker) : List ClosureId := l.definitions.flatMap fun e => e.2.closures

/-- The refusal of a name that is taken. -/
def definedTwice (n : LinkName) : String := s!"import of `{n.module}::{n.name}` defined twice"

/-! ## Definitions -/

/-- Defines a name, if it is free or shadowing is allowed. What it stood for before is given up. -/
def define (n : LinkName) (d : Definition) (l : Linker) (s : Shared) :
    Except String (Linker × Shared) :=
  match l.find? n with
  | none => .ok (l.insert n d, s)
  | some old =>
    if l.allowsShadowing then .ok (l.insert n d, s.leaveClosures old.closures)
    else .error (definedTwice n)

/-- Defines a name as an item of a store. Instances and modules cannot be defined. -/
def defineItem (n : LinkName) (item : Item) (l : Linker) (w : World) :
    Except Error (Linker × Shared) :=
  match w.currentType? item with
  | some type => (l.define n (.item item type) w.shared).mapError .link
  | none =>
    .error (.link s!"cannot define a {item.kindName} as `{n.module}::{n.name}`")

/-- Defines a name as a function of the embedder. -/
def defineFunc (n : LinkName) (type : FuncType) (ops : List HostOp) (l : Linker) (s : Shared) :
    Except Error (Linker × Shared) :=
  let (id, s) := s.newClosure ops
  (l.define n (.host type ops id) s).mapError .link

/-- Defines names one behind the other, up to the first that is refused. -/
def defineAll : List (LinkName × Definition) → Linker → Shared →
    Except String Unit × Linker × Shared
  | [], l, s => (.ok (), l, s)
  | (n, d) :: rest, l, s =>
    match l.define n d s with
    | .ok (l, s) => defineAll rest l s
    | .error e => (.error e, l, s)

/-- Defines the functions of the system interface. -/
def defineWasi (l : Linker) (s : Shared) : Except Error Unit × Linker × Shared :=
  let (r, l, s) := l.defineAll
    (Wasi.functions.map fun f => (⟨Wasi.moduleName, f.name⟩, .wasi f)) s
  (r.mapError fun e => .link ("Failed to define WASI imports: " ++ e), l, s)

/-- The definitions that the exports of an instance make under the name of a module. Memories that
are shared between threads are among them. -/
def exportDefinitions (module : String) (addr : InstanceAddr) (w : World) :
    List (LinkName × Definition) :=
  ((w.store.instances[addr]?.map (·.exports)).getD []).filterMap fun (name, item) =>
    (w.currentType? item).map fun type => (⟨module, name⟩, .item item type)

/-- Defines the exports of an instance under the name of a module. -/
def defineInstance (module : String) (addr : InstanceAddr) (l : Linker) (w : World) :
    Except Error Unit × Linker × World :=
  let (r, l, shared) := l.defineAll (exportDefinitions module addr w) w.shared
  (r.mapError .link, l, { w with shared })

/-! ## Looking up -/

/-- The item that a name stands for, as the embedder gets it: shared memories are left out. -/
def get? (n : LinkName) (l : Linker) (w : World) : Option Item × World :=
  match l.find? n with
  | none => (none, w)
  | some d =>
    let (item, w) := d.toItem w
    (if item.isSharedMemory then none else some item, w)

/-- The function that a name stands for, if it stands for anything. -/
def funcNamed? (n : LinkName) (refusal : String) (l : Linker) (w : World) :
    Option (Except Error FuncAddr × World) :=
  (l.find? n).map fun d =>
    let (item, w) := d.toItem w
    match item.func? with
    | some a => (.ok a, w)
    | none => (.error (.link refusal), w)

/-- The default function of a module: what has no name, else `_start`, else a function that does
nothing. -/
def getDefault (module : String) (l : Linker) (w : World) : Except Error FuncAddr × World :=
  let unnamed := s!"default export in '{module}' is not a function"
  let start := s!"`_start` in '{module}' is not a function"
  match l.funcNamed? ⟨module, ""⟩ unnamed w <|> l.funcNamed? ⟨module, "_start"⟩ start w with
  | some r => r
  | none =>
    let (a, w) := w.newFunc ⟨[], []⟩ .idle
    (.ok a, w)

/-! ## Instances -/

/-- The definitions of imports, in order; all of them must be there. -/
def findAll (l : Linker) (imports : List ImportType) : Except String (List Definition) :=
  imports.mapM fun i =>
    match l.find? ⟨i.module, i.name⟩ with
    | some d => .ok d
    | none => .error s!"unknown import: `{i.module}::{i.name}` has not been defined"

/-- The definitions of a module's imports, which must have the types that it asks for. -/
def resolve (l : Linker) (m : CompiledModule) (typeOf : Definition → ItemType) :
    Except String (List Definition) := do
  let ds ← l.findAll m.signature.imports
  World.fitTypes m.signature.imports (ds.map typeOf)
  return ds

/-- Makes an instance of a module whose imports are found by name. -/
def instantiate (limit : Nat) (m : CompiledModule) (l : Linker) (w : World) :
    Option (Except Failure InstanceAddr × World) :=
  match l.resolve m (·.currentType w) with
  | .error e => some (.error (.error (.link e)), w)
  | .ok ds =>
    let (items, w) := Definition.toItems ds w
    w.newInstance limit m items

end Linker

end WasmHost

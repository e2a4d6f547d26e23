import WasmHost.Linker

/-!
# Modules in a linker

A whole module can be defined under a name. A command, which exports `_start`, gets a fresh instance
for every call of one of its functions. A reactor is instantiated once: its `_initialize` runs, if
it exports one, and then its exports are defined.
-/

namespace WasmHost

/-- How a module is meant to be used. -/
inductive ModuleRole where
  | command | reactor
deriving DecidableEq

namespace ModuleRole

/-- The name of the function that a command exports. -/
def startName : String := "_start"

/-- The name of the function that makes a reactor ready. -/
def initializeName : String := "_initialize"

/-- The refusal of an export that is not a function. -/
def notFunc (name : String) : String := s!"`{name}` must be a function"

/-- The role of a module with the given exports. -/
def of (exports : List ExportType) : Except String ModuleRole :=
  let kind? (name : String) : Option ItemKind :=
    (exports.find? (·.name == name)).map (·.type.kind)
  match kind? startName, kind? initializeName with
  | some _, some _ => .error "Program cannot be both a Command and a Reactor"
  | some .func, none => .ok command
  | some _, none => .error (notFunc startName)
  | none, some .func | none, none => .ok reactor
  | none, some _ => .error (notFunc initializeName)

/-- Whether an export of a command is left out: some names that a toolchain gives to things that are
no functions. -/
def isLeftOut (e : ExportType) : Bool :=
  match e.type.kind with
  | .memory => e.name == "memory"
  | .table => ["table", "__indirect_function_table"].contains e.name
  | .global => ["__data_end", "__heap_base", "__dso_handle", "__rtti_base"].contains e.name
  | .func => false

end ModuleRole

namespace World

/-- What comes before the complaint of a reactor's `_initialize`. -/
def initializing (reason : String) : Error :=
  .link ("calling the Reactor initialization function: " ++ reason)

/-- The complaint about an `_initialize` that takes or gives something. -/
def initializeMisfit? (type : FuncType) : Option Error :=
  let complaint (what : String) (ts : List ValType) :=
    initializing s!"type mismatch with {what}: expected 0 types, found {ts.length}"
  if !type.params.isEmpty then some (complaint "parameters" type.params)
  else if !type.results.isEmpty then some (complaint "results" type.results)
  else none

/-- Runs the `_initialize` of an instance, if it exports one. -/
def runInitialize (limit : Nat) (addr : InstanceAddr) (w : World) :
    Option (Except Failure Unit × World) :=
  match (w.getExport addr ModuleRole.initializeName).bind Item.func? with
  | none => some (.ok (), w)
  | some func =>
    match initializeMisfit? (w.funcType func) with
    | some e => some (.error (.error e), w)
    | none => (w.callOr initializing limit func []).map fun (r, w) => (r.map fun _ => (), w)

end World

namespace Linker

/-- Defines the functions of a command up to the first export that is refused. The imports are found
anew for each function, so they can be functions that were defined before it. -/
def defineCommand (module : String) (m : CompiledModule) :
    List ExportType → Linker → World → Except String Unit × Linker × World
  | [], l, w => (.ok (), l, w)
  | e :: rest, l, w =>
    match e.type with
    | .func type =>
      match l.resolve m Definition.type with
      | .error reason => (.error reason, l, w)
      | .ok ds =>
        let (items, w) := Definition.toItems ds w
        let (a, w) := w.newFunc type (.command m items e.name)
        match l.define ⟨module, e.name⟩ (.item (.func a) (.func type)) w.shared with
        | .ok (l, shared) => defineCommand module m rest l { w with shared }
        | .error reason => (.error reason, l, w)
    | .global _ | .table _ | .memory _ =>
      if ModuleRole.isLeftOut e then defineCommand module m rest l w
      else (.error s!"command export '{e.name}' is not a function", l, w)

/-- Makes an instance of a reactor, makes it ready and defines its exports. -/
def defineReactor (limit : Nat) (module : String) (m : CompiledModule) (l : Linker) (w : World) :
    Option (Except Failure Unit × Linker × World) := do
  match ← l.instantiate limit m w with
  | (.error f, w) => return (.error f, l, w)
  | (.ok addr, w) =>
    match ← w.runInitialize limit addr with
    | (.error f, w) => return (.error f, l, w)
    | (.ok (), w) =>
      let (r, l, w) := l.defineInstance module addr w
      return (r.mapError .error, l, w)

/-- Defines a module under a name. -/
def defineModule (limit : Nat) (module : String) (m : CompiledModule) (l : Linker) (w : World) :
    Option (Except Failure Unit × Linker × World) :=
  match ModuleRole.of m.signature.exports with
  | .error reason => some (.error (.error (.link reason)), l, w)
  | .ok .reactor => l.defineReactor limit module m w
  | .ok .command =>
    let (r, l, w) := defineCommand module m m.signature.exports l w
    some (r.mapError fun reason => .error (.link reason), l, w)

end Linker

end WasmHost

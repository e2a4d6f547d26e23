import WasmHost.Machine.Frame
import WasmHost.Wasi.Functions

/-!
# Calls

`Machine.enter` begins a call of any function; `checkArgs` says which arguments a function takes.
-/

namespace WasmHost

/-- The complaint about the first argument of the wrong kind. -/
def argError? : List ValType → List HostVal → Option Error
  | t :: ts, v :: vs =>
    if v.type = t then argError? ts vs
    else some (.typeMismatch
      s!"argument type mismatch: type mismatch: expected {t.heapName}, found {v.argumentName}")
  | _, _ => none

/-- Checks the arguments of a call: first their number, then each kind in order. -/
def checkArgs (type : FuncType) (args : List HostVal) : Except Error Unit :=
  if type.params.length ≠ args.length then
    .error (.typeMismatch s!"expected {type.params.length} arguments, got {args.length}")
  else
    match argError? type.params args with
    | some e => .error e
    | none => .ok ()

/-- The type of a function. -/
def World.funcType (w : World) (func : FuncAddr) : FuncType :=
  (w.store.funcs[func]?.map (·.type)).getD default

namespace Machine

/-- Whether there is stack for one more function of a module. -/
def hasStack (m : Machine) : Bool :=
  decide (m.used + Activation.codeSize ≤ m.world.store.engine.options.maxWasmStack)

/-- Gives results to the activation on top. -/
def giveBack (vals : List StoreVal) (m : Machine) : Machine := { m with control := .back vals }

/-- Calls a function of the system interface, which works on the memory that its caller exports. -/
def enterWasi (func : Wasi.Func) (args : List StoreVal) (caller : Option InstanceAddr)
    (m : Machine) : Machine :=
  match (caller.bind fun c => m.world.getExport c "memory").bind Item.memory? with
  | none => m.raise (.other "missing required memory export")
  | some addr =>
    let w := m.world
    let guest : Wasi.Guest :=
      { memory := w.memory addr, context := w.store.wasi, process := w.shared.process
        files := w.shared.files }
    let (r, guest) := func.run (args.map Val.toBits) guest
    let w := (w.mapMemory addr fun _ => guest.memory).mapStore ({ · with wasi := guest.context })
    let m := { m with world := w.mapShared fun s =>
      { s with process := guest.process, files := guest.files } }
    match r with
    | .error fault => m.raise fault.cause
    | .ok errno => m.giveBack (func.type.results.map fun t => .ofBits t errno)

/-- Begins a call. -/
def enter (func : FuncAddr) (args : List StoreVal) (caller : Option InstanceAddr) (m : Machine) :
    Machine :=
  match m.world.store.funcs[func]? with
  | none => m.giveBack []
  | some f =>
    match f.body with
    | .code owner code =>
      if !m.hasStack then m.raise (.code .stackExhausted)
      else
        let frame : CodeFrame :=
          { owner, code, locals := (args ++ code.locals.map Val.default).toArray
            blocks := [{ next := code.ops.size, arity := f.type.results.length }] }
        m.pushActivation (.code frame)
    | .host ops =>
      let (vals, w) := (m.world.holdAll args).revealAll args
      let frame : HostFrame :=
        { type := f.type, caller, held := args, args := vals
          results := f.type.results.map Val.default, todo := ops }
      { m with world := w }.pushActivation (.host frame)
    | .command module imports entry =>
      match (m.world.holdAll args).instantiate module imports with
      | (.ok owner, w) =>
        { m with world := w }.pushActivation (.command { owner, entry, held := args })
      | (.error c, w) => { m with world := w.unholdAll args }.raise c
    | .wasi f => m.enterWasi f args caller
    | .idle => m.giveBack []

end Machine

end WasmHost

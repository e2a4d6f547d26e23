import WasmHost.Machine.Call

/-!
# Host functions at work

`HostFrame.step` carries out one operation of a host function. A function that ends gives its
results to its caller if each has its declared kind; one that traps raises its trap anew, with the
frames of code that are left.
-/

namespace WasmHost

namespace HostFrame

/-- The export of the caller with a name. -/
def export? (h : HostFrame) (w : World) (name : String) : Option Item :=
  h.caller.bind fun c => w.getExport c name

/-- Replaces a result by a value that has a clone of its own. -/
def putResult (i : Nat) (v : HostVal) (h : HostFrame) (w : World) : HostFrame × World :=
  match h.results[i]? with
  | some old => ({ h with results := h.results.set i v }, w.discard old)
  | none => (h, w.discard v)

/-- Sets a result to a value that stays where it is. -/
def setResult (i : Nat) (v : HostVal) (h : HostFrame) (w : World) : HostFrame × World :=
  h.putResult i v (v.foreign?.elim w (w.clone ·))

/-- The argument with an index. -/
def arg (h : HostFrame) (i : Nat) : HostVal := h.args.getD i default

/-- The bits of an argument. -/
def argBits (h : HostFrame) (i : Nat) : Nat := (h.arg i).toBits

/-- Gives up all that the function holds. -/
def close (h : HostFrame) (w : World) : World :=
  ((w.discardAll h.args).discardAll h.results).unholdAll h.held

/-- The sum of the arguments that are 32-bit integers. -/
def argSum (h : HostFrame) : UInt32 :=
  h.args.foldl (fun acc v => match v with
    | .i32 b => acc + b
    | _ => acc) 0

end HostFrame

/-- A trap with a text. -/
def Trap.ofText (text : String) : Trap := { message := text }

/-- The trap that a failure is for the code that hears of it. -/
def Failure.toTrap : Failure → Trap
  | .trap t => t
  | .error e => .ofText e.message

namespace Machine

/-- Goes on with a host function. -/
def onHost (h : HostFrame) (rest : List Activation) (w : World) (m : Machine) : Machine :=
  { m with world := w, stack := .host h :: rest, control := .run }

/-- Takes a host function that has ended off the stack. -/
def leaveHost (h : HostFrame) (m : Machine) : Machine :=
  { m with world := h.close m.world }.popActivation

/-- Ends a host function with a trap. -/
def failHost (t : Trap) (h : HostFrame) (m : Machine) : Machine :=
  (m.leaveHost h).raise (.host t)

/-- Takes results into the store up to the first that has not its declared kind; gives that one and
the kind. -/
def acceptResults : List ValType → List HostVal → World →
    Option (ValType × ValType) × List StoreVal × World
  | t :: ts, v :: vs, w =>
    if v.type ≠ t then (some (v.type, t), [], w)
    else
      let (v, w) := w.accept v
      let (bad, vs, w) := acceptResults ts vs w
      (bad, v :: vs, w)
  | _, _, w => (none, [], w)

/-- Ends a host function. -/
def finishHost (h : HostFrame) (m : Machine) : Machine :=
  let (bad, vals, w) := acceptResults h.type.results h.results m.world
  match bad with
  | some (found, declared) =>
    { m with world := w.unholdAll vals }.failHost (.ofText
      s!"host function returned {found.name} where {declared.name} was declared") h
  | none => ({ m with world := (w.exposeAll vals).unholdAll vals }.leaveHost h).giveBack vals

/-- Goes on behind a call that failed. -/
def afterFailure (f : Failure) (catches : Bool) (h : HostFrame) (rest : List Activation)
    (m : Machine) : Machine :=
  if catches then m.onHost h rest (m.world.log (.caught f.message f.isTrap))
  else m.failHost f.toTrap h

/-- Begins a call that a host function makes. -/
def hostCall (func : FuncAddr) (args : List HostVal) (result : Option Nat) (catches : Bool)
    (h : HostFrame) (rest : List Activation) (m : Machine) : Machine :=
  match checkArgs (m.world.funcType func) args with
  | .error e => m.afterFailure (.error e) catches h rest
  | .ok () =>
    let (vals, w) := m.world.acceptAll args
    let h := { h with pending := some { held := vals, result, catches } }
    { m with world := w.exposeAll vals, stack := .host h :: rest }.enter func vals none

/-- Carries out an operation of a host function. -/
def hostOp (op : HostOp) (h : HostFrame) (rest : List Activation) (m : Machine) : Machine :=
  let w := m.world
  let fail (text : String) := m.failHost (.ofText text) h
  let go (w : World) := m.onHost h rest w
  let goWith (r : HostFrame × World) := m.onHost r.1 rest r.2
  let memory? (name : String) := (h.export? w name).bind Item.memory?
  let noMemory := "caller has no memory"
  match op with
  | .set i v => goWith (h.setResult i v w)
  | .copy i k => goWith (h.setResult i (h.arg k) w)
  | .add i => goWith (h.putResult i (.i32 h.argSum) w)
  | .trap text => fail text
  | .log text => go (w.log (.text text))
  | .logArgs => go (w.log (.values h.args))
  | .logResults => go (w.log (.values h.results))
  | .kindOf name => go (w.log (.kind ((h.export? w name).map Item.kindName)))
  | .peek name addr i =>
    match memory? name with
    | none => fail noMemory
    | some a =>
      if twoTo 31 ≤ h.argBits addr then fail "negative address"
      else
        match w.readMemory a (h.argBits addr) 1 with
        | some bytes => goWith (h.putResult i (.ofBits .i32 (Memory.number bytes)) w)
        | none => fail "address out of bounds"
  | .poke name addr value =>
    match memory? name with
    | none => fail noMemory
    | some a =>
      if twoTo 31 ≤ h.argBits addr then fail "negative address"
      else
        match w.writeMemory a (h.argBits addr) [UInt8.ofNat (h.argBits value)] with
        | some w => go w
        | none => fail "address out of bounds"
  | .grow name delta =>
    match memory? name with
    | none => fail noMemory
    | some a =>
      match w.growMemory a delta with
      | .ok (old, w) => go (w.log (.grew old (w.memory a).size))
      | .error e => fail e.message
  | .size name =>
    match memory? name with
    | none => fail noMemory
    | some a => go (w.log (.size (w.memory a).pages (w.memory a).size))
  | .setGlobal name v =>
    match (h.export? w name).bind Item.global? with
    | none => fail "caller has no global"
    | some a =>
      match w.setGlobal a v with
      | .ok w => go w
      | .error e => fail e.message
  | .call name args result catches =>
    match (h.export? w name).bind Item.func? with
    | none => fail "caller has no function"
    | some func =>
      let args := args.map fun a => match a with
        | .arg k => h.arg k
        | .value v => v
      m.hostCall func args result catches h rest
  | .fuel => go (w.log (.consumed w.fuelConsumed))
  | .addFuel n =>
    match w.addFuel n with
    | .ok w => go w
    | .error e => fail e.message
  | .gc => go (w.collect m.liveBoxes)
  | .interrupt signal => go (w.interrupt signal)
  | .branch k zero nonzero =>
    let ops := if h.arg k = .i32 0 then zero else nonzero
    m.onHost { h with todo := ops ++ h.todo } rest w

/-- Goes on with a host function. -/
def hostStep (h : HostFrame) (rest : List Activation) (m : Machine) : Machine :=
  match h.todo with
  | [] => m.finishHost h
  | op :: todo => m.hostOp op { h with todo } rest

/-- Gives a host function the results of its call. -/
def hostResume (vals : List StoreVal) (p : PendingCall) (h : HostFrame) (rest : List Activation)
    (m : Machine) : Machine :=
  let h := { h with pending := none }
  let (results, w) := m.world.revealAll vals
  let w := w.log (.values results)
  let (h, w) := match p.result, results with
    | some i, v :: _ => h.setResult i v w
    | _, _ => (h, w)
  m.onHost h rest ((w.discardAll results).unholdAll p.held)

/-- Tells a host function of the fault that its call ended with. -/
def hostFault (f : Fault) (h : HostFrame) (rest : List Activation) (m : Machine) : Machine :=
  match h.pending with
  | some p =>
    { m with world := m.world.unholdAll p.held }.afterFailure (f.failure .typeMismatch) p.catches
      { h with pending := none } rest
  | none => m.leaveHost h

end Machine

end WasmHost

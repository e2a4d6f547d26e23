import WasmHost.Machine.Code
import WasmHost.Machine.Host

/-!
# Running

`Machine.step` does one thing; `Machine.run` does as many as it takes, up to a limit.
`World.callFunc` and `World.start` are the two ways in: a call of a function, and the start of an
instance.
-/

namespace WasmHost

/-- How a run ended. -/
abbrev RunResult := Except Fault (List StoreVal) × World

namespace Machine

/-- Goes on with a command: its start function, then the export that was called. -/
def commandStep (c : CommandFrame) (rest : List Activation) (m : Machine) : Machine :=
  let starting := { m with stack := .command { c with stage := .starting } :: rest }
  match m.world.startFunc? c.owner with
  | some func => starting.enter func [] (some c.owner)
  | none => starting.giveBack []

/-- Gives a command the results of what it called. -/
def commandResume (vals : List StoreVal) (c : CommandFrame) (rest : List Activation) (m : Machine) :
    Machine :=
  if c.stage = .calling then
    { m with world := (m.world.exposeAll vals).unholdAll c.held }.popActivation.giveBack vals
  else
    let m := { m with stack := .command { c with stage := .calling } :: rest }
    match (m.world.getExport c.owner c.entry).bind Item.func? with
    | some func => { m with world := m.world.exposeAll c.held }.enter func c.held none
    | none => m.giveBack []

/-- One step, or the end. -/
def step : Machine → Machine ⊕ RunResult
  | ⟨w, .code f :: rest, .run, used⟩ =>
    match f.step w with
    | .next f w => .inl ⟨w, .code f :: rest, .run, used⟩
    | .trap c f w => .inl (raise (.code c) ⟨w, .code f :: rest, .run, used⟩)
    | .call func args f w =>
      let owner := f.owner
      .inl (enter func args (some owner) ⟨w, .code f :: rest, .run, used⟩)
    | .exit vals w => .inl ⟨w, rest, .back vals, used - Activation.codeSize⟩
  | ⟨w, .code f :: rest, .back vals, used⟩ =>
    .inl ⟨w, .code (f.pushAll vals).advance :: rest, .run, used⟩
  | m@⟨_, .code _ :: _, .fault _, _⟩ => .inl m.popActivation
  | m@⟨_, .host h :: rest, .run, _⟩ => .inl (m.hostStep h rest)
  | m@⟨_, .host h :: rest, .back vals, _⟩ =>
    match h.pending with
    | some p => .inl (m.hostResume vals p h rest)
    | none => .inl { m with control := .run }
  | m@⟨_, .host h :: rest, .fault f, _⟩ => .inl (m.hostFault f h rest)
  | m@⟨_, .command c :: rest, .run, _⟩ => .inl (m.commandStep c rest)
  | m@⟨_, .command c :: rest, .back vals, _⟩ => .inl (m.commandResume vals c rest)
  | m@⟨w, .command c :: _, .fault _, _⟩ =>
    .inl { m with world := w.unholdAll c.held }.popActivation
  | ⟨w, [], .run, _⟩ => .inr (.ok [], w)
  | ⟨w, [], .back vals, _⟩ => .inr (.ok vals, w)
  | ⟨w, [], .fault f, _⟩ => .inr (.error f, w)

/-- Steps up to the end, at most `limit` of them. -/
def run : Nat → Machine → Option RunResult
  | 0, _ => none
  | limit + 1, m =>
    match m.step with
    | .inl m => run limit m
    | .inr r => some r

/-- A machine that has nothing to do. -/
def idle (w : World) : Machine := { world := w, stack := [], control := .run }

end Machine

namespace World

/-- Calls a function from outside: `none` if it takes more than `limit` steps. Arguments that do not
fit are refused before anything else happens. A fault that is no trap becomes the error `otherwise`.
-/
def callOr (otherwise : String → Error) (limit : Nat) (func : FuncAddr) (args : List HostVal)
    (w : World) : Option (Except Failure (List HostVal) × World) :=
  match checkArgs (w.funcType func) args with
  | .error e => some (.error (.error e), w)
  | .ok () =>
    let (vals, w) := w.acceptAll args
    (((Machine.idle (w.exposeAll vals)).enter func vals none).run limit).map fun (r, w) =>
      match r with
      | .ok results =>
        let (results, w) := w.revealAll results
        (.ok results, w.unholdAll vals)
      | .error f => (.error (f.failure otherwise), w.unholdAll vals)

/-- Calls a function from outside. -/
def callFunc (limit : Nat) (func : FuncAddr) (args : List HostVal) (w : World) :
    Option (Except Failure (List HostVal) × World) :=
  w.callOr .typeMismatch limit func args

/-- Makes an instance with items that fit its imports, and runs its start function. -/
def newInstance (limit : Nat) (m : CompiledModule) (imports : List Item) (w : World) :
    Option (Except Failure InstanceAddr × World) :=
  let fault (f : Fault) := Except.error (f.failure .link)
  match w.instantiate m imports with
  | (.error c, w) => some (fault { cause := c }, w)
  | (.ok addr, w) =>
    match w.startFunc? addr with
    | none => some (.ok addr, w)
    | some func =>
      (((Machine.idle w).enter func [] (some addr)).run limit).map fun (r, w) =>
        match r with
        | .ok _ => (.ok addr, w)
        | .error f => (fault f, w)

/-- The first complaint about items given in order of the imports: their number, then their kinds.
-/
def positionalError? (imports : List ImportType) (items : List Item) : Option String :=
  if imports.length ≠ items.length then
    some s!"expected {imports.length} imports, found {items.length}"
  else
    (imports.zip items).findSome? fun (i, item) =>
      if item.kindName = i.type.kind.name then none
      else some (s!"import `{i.module}::{i.name}` expects a {i.type.kind.name}, "
        ++ s!"found a {item.kindName}")

/-- Makes an instance of a module with the given items as its imports, in order. -/
def instantiateWith (limit : Nat) (m : CompiledModule) (items : List Item) (w : World) :
    Option (Except Failure InstanceAddr × World) :=
  let imports := m.signature.imports
  match positionalError? imports items with
  | some e => some (.error (.error (.link e)), w)
  | none =>
    match w.fit imports items with
    | .error e => some (.error (.error (.link e)), w)
    | .ok () => w.newInstance limit m items

end World

end WasmHost

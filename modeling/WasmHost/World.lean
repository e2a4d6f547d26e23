import WasmHost.Store

/-!
# Boxes, and values that cross the border of a store

A value that enters a store takes its foreign reference into a new box, which the operation at hand
holds; a value that leaves brings a new clone. `collect` gives up what only code has seen.
-/

namespace WasmHost.World

/-- The world with its store changed. -/
def mapStore (f : Store → Store) (w : World) : World := { w with store := f w.store }

/-- The world with what is shared changed. -/
def mapShared (f : Shared → Shared) (w : World) : World := { w with shared := f w.shared }

/-- The world with the foreign references changed. -/
def mapRefs (f : RefHeap → RefHeap) (w : World) : World :=
  w.mapShared fun s => { s with refs := f s.refs }

/-- One more clone of a reference. -/
def clone (r : RefId) (w : World) : World := w.mapRefs (·.clone r)

/-- One clone of a reference less. -/
def release (r : RefId) (w : World) : World := w.mapRefs (·.release r)

/-- The box with a number. -/
def box? (w : World) (b : BoxId) : Option Box := w.store.boxes[b]?

/-- Changes a box; if it no longer keeps its reference, that is released. -/
def updateBox (f : Box → Box) (b : BoxId) (w : World) : World :=
  match w.box? b with
  | none => w
  | some old =>
    let w := w.mapStore fun s => { s with boxes := s.boxes.setIfInBounds b (f old) }
    if old.isLive && !(f old).isLive then w.release old.ref else w

/-- Puts a reference into a new box, which the caller holds. -/
def putIn (r : RefId) (w : World) : BoxId × World :=
  (w.store.boxes.size,
    (w.clone r).mapStore fun s => { s with boxes := s.boxes.push ⟨r, 1, false⟩ })

/-- Holds a box once more. -/
def hold (b : BoxId) (w : World) : World :=
  w.updateBox (fun x => { x with holds := x.holds + 1 }) b

/-- Gives up one hold of a box. -/
def unhold (b : BoxId) (w : World) : World :=
  w.updateBox (fun x => { x with holds := x.holds - 1 }) b

/-- Lets code see a box. -/
def expose (b : BoxId) (w : World) : World := w.updateBox ({ · with exposed := true }) b

/-- The box in a value, if it holds one. -/
def boxOf (v : StoreVal) : Option BoxId := v.foreign?

/-- Holds the box in a value. -/
def holdVal (v : StoreVal) (w : World) : World := (boxOf v).elim w (w.hold ·)

/-- Gives up a hold of the box in a value. -/
def unholdVal (v : StoreVal) (w : World) : World := (boxOf v).elim w (w.unhold ·)

/-- Lets code see the box in a value. -/
def exposeVal (v : StoreVal) (w : World) : World := (boxOf v).elim w (w.expose ·)

/-- Holds the boxes in values. -/
def holdAll (vs : List StoreVal) (w : World) : World := vs.foldl (fun w v => w.holdVal v) w

/-- Gives up a hold of the boxes in values. -/
def unholdAll (vs : List StoreVal) (w : World) : World := vs.foldl (fun w v => w.unholdVal v) w

/-- Lets code see the boxes in values. -/
def exposeAll (vs : List StoreVal) (w : World) : World := vs.foldl (fun w v => w.exposeVal v) w

/-- Takes a value into the store; its box is held by the caller. -/
def accept (v : HostVal) (w : World) : StoreVal × World :=
  match v with
  | .externref (some r) =>
    let (b, w) := w.putIn r
    (.externref (some b), w)
  | .externref none => (.externref none, w)
  | .i32 b => (.i32 b, w)
  | .i64 b => (.i64 b, w)
  | .f32 b => (.f32 b, w)
  | .f64 b => (.f64 b, w)
  | .v128 b => (.v128 b, w)
  | .funcref f => (.funcref f, w)

/-- Takes values into the store, in order. -/
def acceptAll : List HostVal → World → List StoreVal × World
  | [], w => ([], w)
  | v :: vs, w =>
    let (v, w) := w.accept v
    let (vs, w) := acceptAll vs w
    (v :: vs, w)

/-- A value of the store as the embedder holds it, before its clone is made. -/
def view (w : World) (v : StoreVal) : HostVal :=
  v.map fun b => ((w.box? b).map (·.ref)).getD 0

/-- Takes a value out of the store, with a clone of its own. -/
def reveal (v : StoreVal) (w : World) : HostVal × World :=
  let v := w.view v
  (v, v.foreign?.elim w (w.clone ·))

/-- Takes values out of the store, in order. -/
def revealAll : List StoreVal → World → List HostVal × World
  | [], w => ([], w)
  | v :: vs, w =>
    let (v, w) := w.reveal v
    let (vs, w) := revealAll vs w
    (v :: vs, w)

/-- Gives up the clone that came with a value. -/
def discard (v : HostVal) (w : World) : World := v.foreign?.elim w (w.release ·)

/-- Gives up the clones that came with values. -/
def discardAll (vs : List HostVal) (w : World) : World := vs.foldl (fun w v => w.discard v) w

/-- Forgets what code has seen, apart from the boxes that running code still holds. -/
def collect (live : List BoxId) (w : World) : World :=
  (List.range w.store.boxes.size).foldl (fun w b =>
    if live.contains b then w else w.updateBox ({ · with exposed := false }) b) w

/-- Gives up the store: all its boxes and all that its host functions hold. -/
def dropStore (w : World) : Shared :=
  let boxed := (w.store.boxes.toList.filter Box.isLive).map (·.ref)
  let shared := { w.shared with refs := w.shared.refs.releaseAll boxed }
  let id := w.store.engine.id
  let count := w.shared.instanceCount id - w.store.instances.size
  (shared.leaveClosures w.store.closures).setInstanceCount id count

/-! ## Functions -/

/-- Adds a function. -/
def newFunc (type : FuncType) (body : FuncBody) (w : World) : FuncAddr × World :=
  (w.store.funcs.size, w.mapStore fun s => { s with funcs := s.funcs.push { type, body } })

/-- Adds a host function that uses a closure. -/
def pushHostFunc (type : FuncType) (ops : List HostOp) (id : ClosureId) (w : World) :
    FuncAddr × World :=
  (w.mapStore fun s => { s with closures := id :: s.closures }).newFunc type (.host ops)

/-- Adds a host function with a body of its own. -/
def newHostFunc (type : FuncType) (ops : List HostOp) (w : World) : FuncAddr × World :=
  let (id, shared) := w.shared.newClosure ops
  { w with shared }.pushHostFunc type ops id

/-- Adds a host function whose body others use as well. -/
def shareHostFunc (type : FuncType) (ops : List HostOp) (id : ClosureId) (w : World) :
    FuncAddr × World :=
  (w.mapShared (·.useClosure id)).pushHostFunc type ops id

/-! ## Fuel, interrupts and the log -/

/-- Changes the fuel of the store. -/
def mapFuel (f : Fuel → Fuel) (w : World) : World := w.mapStore fun s => { s with fuel := f s.fuel }

/-- Whether code of the store uses up fuel. -/
def usesFuel (w : World) : Bool := w.store.engine.consumesFuel

/-- The refusal of fuel by an engine that does not use it. -/
def fuelOff : Error :=
  .invalidConfig "fuel consumption is not enabled in the engine configuration"

/-- Adds fuel to the store. -/
def addFuel (n : Nat) (w : World) : Except Error World :=
  if w.usesFuel then .ok (w.mapFuel (·.add n)) else .error fuelOff

/-- The fuel that was used, where fuel is used at all. -/
def fuelConsumed (w : World) : Option Nat := if w.usesFuel then some w.store.fuel.consumed else none

/-- The signal of the store, where its code can be interrupted. -/
def interruptHandle (w : World) : Option SignalId :=
  if w.store.engine.isInterruptable then some w.store.signal else none

/-- Asks for an interrupt of the code that listens to a signal. -/
def interrupt (signal : SignalId) (w : World) : World := w.mapShared (·.setPending signal true)

/-- The epoch of the store's engine. -/
def epoch (w : World) : UInt64 := w.shared.epoch w.store.engine.id

/-- What happens once the epoch has reached the deadline of the store. If a request is pending it is
taken back, and the answer is that the code is to be interrupted; the deadline stays. If none is,
the deadline moves to the next epoch. -/
def meetDeadline (w : World) : Bool × World :=
  if w.shared.isPending w.store.signal then
    (true, w.mapShared (·.setPending w.store.signal false))
  else (false, w.mapStore ({ · with deadline := w.epoch + 1 }))

/-- Adds to the log. -/
def log (e : LogEntry) (w : World) : World := w.mapShared (·.addLog e)

/-- Sets the system interface of the store up anew. -/
def setWasi (c : Wasi.Config) (w : World) : Except Error World :=
  (c.build w.shared.process w.shared.files).map fun context =>
    w.mapStore fun s => { s with wasi := context }

/-! ## New stores -/

/-- A new store of an engine. -/
def create (engine : Engine) (s : Shared) : World :=
  { store := { engine, signal := s.signals.size, deadline := s.epoch engine.id + 1 }
    shared := { s with signals := s.signals.push { engine := engine.id } } }

/-- A new store of an engine with the fuel that settings give it. -/
def ofSettings (engine : Engine) (settings : StoreSettings) (s : Shared) : Except Error World :=
  let w := create engine s
  match settings.initialFuel with
  | some n => w.addFuel n
  | none => .ok w

/-- A store as it is shown. -/
def shown (w : World) : String :=
  "Store \x7b engine: " ++ w.store.engine.shown ++ ", .. \x7d"

end WasmHost.World

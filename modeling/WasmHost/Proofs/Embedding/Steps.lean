import WasmHost.Proofs.Linker.Registry

/-!
# Embeddings at work

An embedding is all that an embedder has: stores, linkers, and clones of foreign references. Code
runs in a store step by step, and while a host function is at work the embedder can use its store as
it can when nothing runs. Several stores can be at work at the same time; their steps come in any
order. `Embedding.Run` is every run, with a log of what happened to fuel and to interrupts.
-/

namespace WasmHost

/-- The module was compiled from a binary. -/
def CompiledModule.IsCompiled (m : CompiledModule) : Prop :=
  ∃ o bytes, CompiledModule.ofBinary o bytes = .ok m

/-- What happens to the fuel of a store, to the requests for interrupts and to the stores
themselves. A store is told by its signal. -/
inductive Event where
  | created (store : SignalId)
  /-- Fuel was added. -/
  | added (store : SignalId) (fuel : Nat)
  /-- Code took a step, by which the fuel that remains went down. -/
  | burned (store : SignalId) (fuel : Nat)
  | requested (signal : SignalId)
  /-- Code was interrupted. -/
  | interrupted (store : SignalId)
deriving DecidableEq

/-! ## Operations that run no code -/

/-- An operation of an embedder on a store that runs no code. -/
inductive StoreCall where
  | newHostFunc (type : FuncType) (ops : List HostOp)
  | newGlobal (type : GlobalType) (init : HostVal)
  | getGlobal (addr : Nat)
  | setGlobal (addr : Nat) (val : HostVal)
  | newTable (type : TableType) (init : HostVal)
  | getTable (addr index : Nat)
  | setTable (addr index : Nat) (val : HostVal)
  | growTable (addr delta : Nat) (val : HostVal)
  | newMemory (type : MemoryType)
  | growMemory (addr delta : Nat)
  | writeMemory (addr offset : Nat) (bytes : List UInt8)
  /-- Makes an instance; its start function is left for later. -/
  | instantiate (module : CompiledModule) (imports : List Item)
  /-- Adds the function that does nothing. -/
  | idleFunc
  | collect
  | addFuel (fuel : Nat)
  | setWasi (config : Wasi.Config)

namespace StoreCall

/-- The references that the embedder passes. -/
def refs : StoreCall → List RefId
  | newHostFunc _ ops => HostOp.refsOf ops
  | newGlobal _ v | setGlobal _ v | newTable _ v | setTable _ _ v | growTable _ _ v =>
    v.foreign?.toList
  | _ => []

/-- The modules that the operation works with. -/
def modules : StoreCall → List CompiledModule
  | instantiate m _ => [m]
  | _ => []

/-- Carries an operation out: the references of which the embedder gets a clone, and the world
afterwards. What is refused changes nothing. `live` are the boxes that running code holds. -/
def run (live : List BoxId) (w : World) : StoreCall → List RefId × World
  | newHostFunc type ops => ([], (w.newHostFunc type ops).2)
  | newGlobal type init => ([], ((w.newGlobal type init).map (·.2)).toOption.getD w)
  | getGlobal addr => ((w.getGlobal addr).1.foreign?.toList, (w.getGlobal addr).2)
  | setGlobal addr v => ([], (w.setGlobal addr v).toOption.getD w)
  | newTable type init => ([], ((w.newTable type init).map (·.2)).toOption.getD w)
  | getTable addr index =>
    (((w.getTable addr index).1.bind Val.foreign?).toList, (w.getTable addr index).2)
  | setTable addr index v => ([], (w.setTable addr index v).toOption.getD w)
  | growTable addr delta v => ([], (w.growTable addr delta v).2)
  | newMemory type => ([], ((w.newMemory type).map (·.2)).getD w)
  | growMemory addr delta => ([], ((w.growMemory addr delta).map (·.2)).toOption.getD w)
  | writeMemory addr offset bytes => ([], (w.writeMemory addr offset bytes).getD w)
  | instantiate m imports => ([], (w.instantiate m imports).2)
  | idleFunc => ([], (w.newFunc ⟨[], []⟩ .idle).2)
  | collect => ([], w.collect live)
  | addFuel n => ([], (w.addFuel n).toOption.getD w)
  | setWasi c => ([], (w.setWasi c).toOption.getD w)

/-- What an operation does that goes into the log. -/
def events (w : World) : StoreCall → List Event
  | addFuel n => if w.usesFuel then [.added w.store.signal n] else []
  | _ => []

end StoreCall

/-! ## Calls -/

/-- A call that the embedder has under way in a store: the machine without its world, the arguments,
whose boxes are held, and whether the embedder wants the results. -/
structure Task where
  stack : List Activation
  control : Control
  used : Nat
  held : List StoreVal
  answers : Bool

namespace Task

/-- The machine that carries the call out. -/
def machine (t : Task) (w : World) : Machine :=
  { world := w, stack := t.stack, control := t.control, used := t.used }

/-- The call as a machine leaves it. -/
def leave (t : Task) (m : Machine) : Task :=
  { t with stack := m.stack, control := m.control, used := m.used }

/-- The end of the call: the references of which the embedder gets a clone, and the world. -/
def finish (t : Task) (r : Except Fault (List StoreVal)) (w : World) : List RefId × World :=
  match r with
  | .ok vals =>
    if t.answers then
      let (vals, w) := w.revealAll vals
      (vals.filterMap Val.foreign?, w.unholdAll t.held)
    else ([], w.unholdAll t.held)
  | .error _ => ([], w.unholdAll t.held)

/-- The call is of a host function, which is at work. -/
def AtHost (t : Task) (h : HostFrame) (rest : List Activation) : Prop :=
  t.stack = .host h :: rest ∧ t.control = .run

end Task

/-- What a host function does besides its list of operations. -/
inductive HostMove where
  | call (func : FuncAddr) (args : List HostVal) (result : Option Nat) (catches : Bool)
  | start (addr : InstanceAddr) (catches : Bool)
  | setResult (index : Nat) (val : HostVal)
  | fail (trap : Trap)
  | finish

namespace HostMove

/-- The references that the function passes. -/
def refs : HostMove → List RefId
  | call _ args _ _ => args.filterMap Val.foreign?
  | setResult _ v => v.foreign?.toList
  | start .. | fail _ | finish => []

/-- Goes on with a machine whose topmost activation is the host function. -/
def run (h : HostFrame) (rest : List Activation) (m : Machine) : HostMove → Machine
  | call func args result catches => m.hostCall func args result catches h rest
  | start addr catches =>
    match m.world.startFunc? addr with
    | some func =>
      let h := { h with pending := some { held := [], result := none, catches } }
      { m with stack := .host h :: rest }.enter func [] (some addr)
    | none => m
  | setResult i v => m.onHost (h.setResult i v m.world).1 rest (h.setResult i v m.world).2
  | fail t => m.failHost t h
  | finish => m.finishHost h

end HostMove

/-- What an operation of a host function does that goes into the log. -/
def HostOp.events (w : World) : HostOp → List Event
  | addFuel n => if w.usesFuel then [.added w.store.signal n] else []
  | interrupt signal => [.requested signal]
  | _ => []

/-- What the next step of a machine does that goes into the log, given where it leads to. -/
def Machine.events (m m' : Machine) : List Event :=
  match m.stack, m.control with
  | .code f :: _, .run =>
    match f.step m.world with
    | .trap .interrupt _ _ => [.interrupted m.world.store.signal]
    | _ =>
      [.burned m.world.store.signal
        (m.world.store.fuel.remaining - m'.world.store.fuel.remaining)]
  | .host h :: _, .run => (h.todo.head?.map (·.events m.world)).getD []
  | _, _ => []

/-- One step of an embedder that can use the references in `owned`, or of the code that runs, in one
store: what goes into the log, and the references of which the embedder gets a clone. -/
inductive World.Act (owned : RefId → Prop) :
    World → Option Task → List Event → List RefId → World → Option Task → Prop
  | idle {w : World} (c : StoreCall) (refs : ∀ r ∈ c.refs, owned r)
      (modules : ∀ m ∈ c.modules, m.IsCompiled) :
      Act owned w none (c.events w) (c.run [] w).1 (c.run [] w).2 none
  | host {w : World} {t : Task} {h : HostFrame} {rest : List Activation} (at_host : t.AtHost h rest)
      (c : StoreCall) (refs : ∀ r ∈ c.refs, owned r) (modules : ∀ m ∈ c.modules, m.IsCompiled) :
      Act owned w (some t) (c.events w) (c.run (t.machine w).liveBoxes w).1
        (c.run (t.machine w).liveBoxes w).2 (some t)
  | call {w : World} {func : FuncAddr} {args : List HostVal} {m : Machine}
      (fits : checkArgs (w.funcType func) args = .ok ())
      (refs : ∀ r ∈ args.filterMap Val.foreign?, owned r)
      (begun : (Machine.idle ((w.acceptAll args).2.exposeAll (w.acceptAll args).1)).enter func
        (w.acceptAll args).1 none = m) :
      Act owned w none [] [] m.world
        (some ⟨m.stack, m.control, m.used, (w.acceptAll args).1, true⟩)
  | start {w : World} {addr : InstanceAddr} {func : FuncAddr} {m : Machine}
      (start : w.startFunc? addr = some func)
      (begun : (Machine.idle w).enter func [] (some addr) = m) :
      Act owned w none [] [] m.world (some ⟨m.stack, m.control, m.used, [], false⟩)
  | work {w : World} {t : Task} {m : Machine} (step : (t.machine w).step = .inl m) :
      Act owned w (some t) ((t.machine w).events m) [] m.world (some (t.leave m))
  | move {w : World} {t : Task} {h : HostFrame} {rest : List Activation} (at_host : t.AtHost h rest)
      (c : HostMove) (refs : ∀ r ∈ c.refs, owned r) :
      Act owned w (some t) [] [] (c.run h rest (t.machine w)).world
        (some (t.leave (c.run h rest (t.machine w))))
  /-- A host function keeps the references among the results of its call. -/
  | keep {w : World} {t : Task} {h : HostFrame} {rest : List Activation} {vals : List StoreVal}
      (calling : t.stack = .host h :: rest) (back : t.control = .back vals) :
      Act owned w (some t) [] ((w.revealAll vals).1.filterMap Val.foreign?) (w.revealAll vals).2
        (some t)
  | answer {w w' : World} {t : Task} {r : Except Fault (List StoreVal)}
      (ended : (t.machine w).step = .inr (r, w')) :
      Act owned w (some t) [] (t.finish r w').1 (t.finish r w').2 none

/-! ## Embeddings -/

/-- A store and the call that is under way in it. -/
structure Site where
  store : Store
  task : Option Task := none

/-- The embedder can use the store: nothing runs in it, or a host function is at work. -/
def Site.IsFree (s : Site) : Prop := ∀ t ∈ s.task, ∃ h rest, t.AtHost h rest

/-- Stores with what runs in them, linkers, and the references of which the embedder holds a clone,
each as often as it holds one. -/
structure Embedding where
  shared : Shared
  sites : List Site := []
  linkers : List Linker := []
  handles : List RefId := []

/-- The references that the operations on a linker pass. -/
def LinkerCall.refs : LinkerCall → List RefId
  | defineFunc _ _ ops => HostOp.refsOf ops
  | _ => []

/-- The operation on a linker runs no code, and the module that it defines was compiled. -/
def LinkerCall.IsPlain : LinkerCall → Prop
  | defineModule _ _ m => ModuleRole.of m.signature.exports = .ok .command ∧ m.IsCompiled
  | _ => True

/-- The references that the values of an activation have clones of. -/
def Activation.clones : Activation → List RefId
  | .host h => (h.args ++ h.results).filterMap Val.foreign?
  | .code _ | .command _ => []

/-- The references that the host functions at work in a store have clones of. -/
def Site.clones (s : Site) : List RefId :=
  s.task.elim [] fun t => t.stack.flatMap Activation.clones

/-- The references that the bodies of host functions have clones of, as long as something uses the
body. -/
def Shared.captured (s : Shared) : List RefId :=
  (s.closures.toList.filter (·.users ≠ 0)).flatMap fun c => HostOp.refsOf c.ops

namespace Embedding

/-- The references that the embedder has: those it holds itself, those that host functions at work
were given or made ready to give back, and those in the bodies of host functions. -/
def owned (e : Embedding) : List RefId :=
  e.handles ++ e.sites.flatMap Site.clones ++ e.shared.captured

/-- One step of an embedding, with what goes into the log, the last event first. -/
inductive Step : Embedding → List Event → Embedding → Prop
  | newRef {e : Embedding} (payload : String) :
      Step e [] { e with
        shared := { e.shared with refs := (e.shared.refs.new payload).2 }
        handles := (e.shared.refs.new payload).1 :: e.handles }
  | cloneRef {e : Embedding} {r : RefId} (known : r ∈ e.owned) :
      Step e [] { e with
        shared := { e.shared with refs := e.shared.refs.clone r }, handles := r :: e.handles }
  | dropRef {e : Embedding} {before after : List RefId} {r : RefId}
      (held : e.handles = before ++ r :: after) :
      Step e [] { e with
        shared := { e.shared with refs := e.shared.refs.release r }, handles := before ++ after }
  | newStore {e : Embedding} (engine : Engine) :
      Step e [.created e.shared.signals.size] { e with
        shared := (World.create engine e.shared).shared
        sites := e.sites ++ [{ store := (World.create engine e.shared).store }] }
  | dropStore {e : Embedding} {before after : List Site} {s : Store}
      (sites : e.sites = before ++ { store := s } :: after) :
      Step e [] { e with
        shared := ({ store := s, shared := e.shared } : World).dropStore, sites := before ++ after }
  | act {e : Embedding} {before after : List Site} {s : Site} {events : List Event}
      {gained : List RefId} {w : World} {task : Option Task}
      (sites : e.sites = before ++ s :: after)
      (act : World.Act (· ∈ e.owned) ⟨s.store, e.shared⟩ s.task events gained w task) :
      Step e events { e with
        shared := w.shared, sites := before ++ ⟨w.store, task⟩ :: after
        handles := gained ++ e.handles }
  | request {e : Embedding} (signal : SignalId) :
      Step e [.requested signal] { e with shared := e.shared.setPending signal true }
  | changeFiles {e : Embedding} (files : FileSystem) :
      Step e [] { e with shared := { e.shared with files } }
  | newLinker {e : Embedding} : Step e [] { e with linkers := e.linkers ++ [({} : Linker)] }
  | dropLinker {e : Embedding} {before after : List Linker} {l : Linker}
      (linkers : e.linkers = before ++ l :: after) :
      Step e [] { e with
        shared := e.shared.leaveClosures l.closures, linkers := before ++ after }
  | link {e : Embedding} {before after : List Site} {s : Site} {lefts rights : List Linker}
      {l l' : Linker} {c : LinkerCall} {r : Except Failure Unit} {w : World}
      (sites : e.sites = before ++ s :: after) (linkers : e.linkers = lefts ++ l :: rights)
      (free : s.IsFree) (plain : c.IsPlain) (refs : ∀ r ∈ c.refs, r ∈ e.owned)
      (done : c.run l ⟨s.store, e.shared⟩ = some (r, l', w)) :
      Step e [] { e with
        shared := w.shared, sites := before ++ { s with store := w.store } :: after
        linkers := lefts ++ l' :: rights }
  /-- What a name stands for is made an item of a store, to be looked at or imported. -/
  | resolve {e : Embedding} {before after : List Site} {s : Site} {l : Linker} {n : LinkName}
      {d : Definition} (sites : e.sites = before ++ s :: after) (free : s.IsFree)
      (known : l ∈ e.linkers) (found : l.find? n = some d) :
      Step e [] { e with
        shared := (d.toItem ⟨s.store, e.shared⟩).2.shared
        sites := before ++ { s with store := (d.toItem ⟨s.store, e.shared⟩).2.store } :: after }

/-- A run of an embedding from nothing, with its log, the last event first. -/
inductive Run : List Event → Embedding → Prop
  | start (files : FileSystem) : Run [] { shared := { files } }
  | step {log events : List Event} {e e' : Embedding} (before : Run log e)
      (step : e.Step events e') : Run (events ++ log) e'

end Embedding

end WasmHost

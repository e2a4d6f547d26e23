import WasmHost.CompiledModule
import WasmHost.HostOp
import WasmHost.Memory
import WasmHost.Trap
import WasmHost.Wasi.Context

/-!
# Stores

A store holds the functions, globals, tables, memories and instances made in it; they are found by
their number, which never changes. A foreign reference that is handed to a store is put in a box;
inside the store a value holds the number of the box. `Shared` is what stores have in common.
-/

namespace WasmHost

/-- The number of a box in its store. -/
abbrev BoxId := Nat

/-- A value inside a store. -/
abbrev StoreVal := Val BoxId

/-- A box: one clone of a foreign reference. It is kept while something holds it, and, once code has
seen it, until the next collection. -/
structure Box where
  ref : RefId
  /-- How many globals, table elements and running operations hold it. -/
  holds : Nat
  /-- Whether code has seen it since the last collection. -/
  exposed : Bool
deriving DecidableEq

/-- Whether a box still keeps its reference. -/
def Box.isLive (b : Box) : Bool := b.holds != 0 || b.exposed

/-- The number of an instance in its store. -/
abbrev InstanceAddr := Nat

/-- Anything that an embedder can hold by name. A table or memory is seen through the type that was
declared where it was taken from. -/
inductive Item where
  | func (addr : FuncAddr)
  | global (addr : Nat)
  | table (addr : Nat) (type : TableType)
  | memory (addr : Nat) (type : MemoryType)
  | instance (addr : InstanceAddr)
  | module (module : CompiledModule)

namespace Item

/-- The word for the kind of an item. -/
def kindName : Item → String
  | func _ => "func"
  | global _ => "global"
  | table .. => "table"
  | memory .. => "memory"
  | .instance _ => "instance"
  | module _ => "module"

/-- The function, if the item is one. -/
def func? : Item → Option FuncAddr
  | func a => some a
  | _ => none

/-- The global, if the item is one. -/
def global? : Item → Option Nat
  | global a => some a
  | _ => none

/-- The table, if the item is one. -/
def table? : Item → Option Nat
  | table a _ => some a
  | _ => none

/-- The memory, if the item is one. -/
def memory? : Item → Option Nat
  | memory a _ => some a
  | _ => none

/-- The instance, if the item is one. -/
def instance? : Item → Option InstanceAddr
  | .instance a => some a
  | _ => none

/-- The module, if the item is one. -/
def module? : Item → Option CompiledModule
  | module m => some m
  | _ => none

/-- Whether the item is a memory that is shared between threads, which no embedder gets to hold. -/
def isSharedMemory : Item → Bool
  | memory _ t => t.shared
  | _ => false

end Item

/-- What a function does when it is called. -/
inductive FuncBody where
  /-- Code of a module, run in one of its instances. -/
  | code (owner : InstanceAddr) (code : FuncCode)
  /-- Operations of the embedder. -/
  | host (ops : List HostOp)
  /-- A fresh instance of a module is made for every call, which goes to one of its exports. -/
  | command (module : CompiledModule) (imports : List Item) (entry : String)
  /-- A function of the system interface. -/
  | wasi (func : Wasi.Func)
  /-- Nothing. -/
  | idle

/-- A function of a store. -/
structure Func where
  type : FuncType
  body : FuncBody

/-- A global of a store. -/
structure Global where
  type : GlobalType
  value : StoreVal

/-- A table of a store. -/
structure Table where
  element : ValType
  elems : Array StoreVal
  /-- The most elements it can grow to. -/
  limit : Nat

/-- An instance: the items that the indices of its module stand for. -/
structure Instance where
  module : CompiledModule
  funcs : Array FuncAddr
  globals : Array Nat
  tables : Array Nat
  memories : Array Nat
  exports : List (String × Item)
  /-- The segments that can no longer be used. -/
  droppedElems : Array Bool
  droppedDatas : Array Bool

/-- The fuel of a store: all that was ever added, and what is left. -/
structure Fuel where
  added : Nat := 0
  remaining : Nat := 0
deriving DecidableEq

/-- The fuel that a word holds at most. -/
def Fuel.most : Nat := twoTo 64 - 1

namespace Fuel

/-- Adds fuel; neither count goes past what a word holds. -/
def add (n : Nat) (f : Fuel) : Fuel :=
  { added := min (f.added + n) most, remaining := min (f.remaining + n) most }

/-- Uses fuel up, as far as there is any. -/
def burn (n : Nat) (f : Fuel) : Fuel := { f with remaining := f.remaining - n }

/-- The fuel that was used, as far as the counts show it. -/
def consumed (f : Fuel) : Nat := f.added - f.remaining

end Fuel

/-- The body of a host function. It keeps its references for as long as something uses it. -/
structure Closure where
  ops : List HostOp
  /-- How many definitions and functions use it. -/
  users : Nat

/-- The number of a closure. -/
abbrev ClosureId := Nat

/-- A store. -/
structure Store where
  engine : Engine
  /-- The signal by which the code of the store is interrupted. -/
  signal : SignalId
  funcs : Array Func := #[]
  globals : Array Global := #[]
  tables : Array Table := #[]
  memories : Array Memory := #[]
  instances : Array Instance := #[]
  boxes : Array Box := #[]
  /-- The closures that host functions of the store use, one for each function. -/
  closures : List ClosureId := []
  fuel : Fuel := {}
  /-- The epoch of the engine from which on running code asks whether it is interrupted. -/
  deadline : UInt64 := 0
  wasi : Wasi.Context := {}

/-- A signal by which the code of a store is interrupted: the engine of the store, and whether a
request is pending. -/
structure Signal where
  engine : Nat
  pending : Bool := false
deriving DecidableEq

/-- What stores have in common: foreign references, the bodies of host functions, interrupt signals,
the epochs of engines, the number of instances that each engine has, files, the process of the
embedder, and what host functions logged. -/
structure Shared where
  refs : RefHeap := {}
  closures : Array Closure := #[]
  signals : Array Signal := #[]
  /-- A word for each engine that counts the requests for interrupts of its stores. -/
  epochs : List (Nat × UInt64) := []
  instances : List (Nat × Nat) := []
  files : FileSystem
  process : Wasi.Process := {}
  log : List LogEntry := []

namespace Shared

/-- The number of instances of an engine. -/
def instanceCount (s : Shared) (engine : Nat) : Nat := (s.instances.lookup engine).getD 0

/-- Changes the number of instances of an engine. -/
def setInstanceCount (s : Shared) (engine n : Nat) : Shared :=
  { s with instances := (engine, n) :: s.instances.filter (·.1 != engine) }

/-- The epoch of an engine. -/
def epoch (s : Shared) (engine : Nat) : UInt64 := (s.epochs.lookup engine).getD 0

/-- Moves the epoch of an engine on. -/
def advanceEpoch (engine : Nat) (s : Shared) : Shared :=
  { s with epochs := (engine, s.epoch engine + 1) :: s.epochs.filter (·.1 != engine) }

/-- Whether an interrupt is pending. -/
def isPending (s : Shared) (signal : SignalId) : Bool :=
  (s.signals[signal]?.map (·.pending)).getD false

/-- Asks for an interrupt or takes the request back. Each request moves the epoch of the engine on,
so that code which runs comes to look for it. -/
def setPending (s : Shared) (signal : SignalId) (pending : Bool) : Shared :=
  match s.signals[signal]? with
  | none => s
  | some g =>
    let s := { s with signals := s.signals.setIfInBounds signal { g with pending } }
    if pending then s.advanceEpoch g.engine else s

/-- The handle of a signal as it is shown. -/
def handleShown (s : Shared) (signal : SignalId) : String :=
  "InterruptHandle \x7b pending: " ++ Config.shownBool (s.isPending signal) ++ ", .. \x7d"

/-- A new closure with one user; it takes a clone of each of its references. -/
def newClosure (ops : List HostOp) (s : Shared) : ClosureId × Shared :=
  (s.closures.size,
    { s with closures := s.closures.push ⟨ops, 1⟩, refs := s.refs.cloneAll (HostOp.refsOf ops) })

/-- One more user of a closure. -/
def useClosure (id : ClosureId) (s : Shared) : Shared :=
  { s with closures := s.closures.modify id fun c => { c with users := c.users + 1 } }

/-- One user of a closure less; with the last one its references are released. -/
def leaveClosure (id : ClosureId) (s : Shared) : Shared :=
  match s.closures[id]? with
  | some c =>
    { s with closures := s.closures.setIfInBounds id { c with users := c.users - 1 }
             refs := if c.users = 1 then s.refs.releaseAll (HostOp.refsOf c.ops) else s.refs }
  | none => s

/-- One user of each of some closures less. -/
def leaveClosures (ids : List ClosureId) (s : Shared) : Shared :=
  ids.foldl (fun s id => s.leaveClosure id) s

/-- Adds to the log. -/
def addLog (s : Shared) (e : LogEntry) : Shared := { s with log := s.log ++ [e] }

end Shared

/-- A store with what it shares. -/
structure World where
  store : Store
  shared : Shared

end WasmHost

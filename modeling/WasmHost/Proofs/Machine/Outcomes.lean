import WasmHost.Machine.Code
import WasmHost.Machine.Host

/-!
# The outcomes of instructions, of calls and of operations of host functions

An instruction on memories or tables changes one of them, or traps where it is out of bounds. A call
begins with something on the stack, or is over at once with results or with a fault. An operation of
a host function goes on behind it, calls a function, or ends its host function with a trap. What each
can do is said here once, so that a property of all of them has one case for each outcome.
-/

namespace WasmHost

/-! ## Instructions -/

/-- The index through which an instruction writes. -/
def Wasm.Op.written? : Op → Option (ItemKind × Nat)
  | .globalSet k => some (.global, k)
  | .store _ arg => some (.memory, arg.memory)
  | .memoryFill k | .memoryGrow k | .memoryInit _ k | .memoryCopy k _ => some (.memory, k)
  | .tableSet k | .tableGrow k | .tableFill k | .tableInit _ k | .tableCopy k _ => some (.table, k)
  | _ => none

/-- Where an operation on memories leads. -/
inductive MemoryOutcome (f : CodeFrame) (w : World) (op : Wasm.Op) : Outcome → Prop
  | wrote {k d : Nat} {bytes : List UInt8} (index : op.written? = some (.memory, k))
      (fits : (w.memory (f.address w (·.memories) k)).fits d bytes.length) :
      MemoryOutcome f w op (proceed (pop3 f).2.2.2
        (w.mapMemory (f.address w (·.memories) k) (·.put d bytes)))
  | grown {k old : Nat} {w' : World} (index : op.written? = some (.memory, k))
      (grown : w.growPages (f.address w (·.memories) k) f.popBits.1 = some (old, w')) :
      MemoryOutcome f w op (proceed (f.popBits.2.push (word old)) w')
  | full : MemoryOutcome f w op (proceed (f.popBits.2.push growthFailed) w)
  | sized (n : Nat) : MemoryOutcome f w op (proceed (f.push (word n)) w)
  | dropped (data : Nat) : MemoryOutcome f w op (proceed f (dropSegment f.owner (fun i =>
      { i with droppedDatas := i.droppedDatas.setIfInBounds data true }) w))
  | outOfBounds : MemoryOutcome f w op (.trap .memoryOutOfBounds f w)
  | other : MemoryOutcome f w op (proceed f w)

theorem memory_outcome (op : Wasm.Op) (f : CodeFrame) (w : World) :
    MemoryOutcome f w op (execMemory op f w) := by
  cases op with
  | memoryFill k =>
      simp only [execMemory]
      split
      · exact .wrote rfl (by rwa [List.length_replicate])
      · exact .outOfBounds
  | memoryCopy t s =>
      simp only [execMemory]
      split
      · rename_i bytes hread
        have hlength : bytes.length = (pop3 f).2.2.1 := by
          simp only [World.readMemory, Memory.read?] at hread
          split at hread <;> cases hread
          simp [Memory.slice]
        split
        · exact .wrote rfl (by rwa [hlength])
        · exact .outOfBounds
      · exact .outOfBounds
  | memoryInit data k =>
      simp only [execMemory]
      split
      · rename_i hfits
        refine .wrote rfl ?_
        rw [List.length_take, List.length_drop, Nat.min_eq_left (Nat.le_sub_of_add_le' hfits.1)]
        exact hfits.2
      · exact .outOfBounds
  | memoryGrow k =>
      simp only [execMemory]
      split
      · exact .grown rfl ‹_›
      · exact .full
  | memorySize k => exact .sized _
  | dataDrop data => exact .dropped data
  | _ => exact .other

/-- Where an operation on tables leads. -/
inductive TableOutcome (f : CodeFrame) (w : World) : Wasm.Op → Outcome → Prop
  | got {k : Nat} {v : StoreVal}
      (known : (w.table (f.address w (·.tables) k)).elems[f.popBits.1]? = some v) :
      TableOutcome f w (.tableGet k) (proceed (f.popBits.2.push v) (w.exposeVal v))
  | set {k : Nat} (room : f.pop.2.popBits.1 < w.tableSize (f.address w (·.tables) k)) :
      TableOutcome f w (.tableSet k) (proceed f.pop.2.popBits.2
        (w.putElem (f.address w (·.tables) k) f.pop.2.popBits.1 f.pop.1))
  | sized (k : Nat) : TableOutcome f w (.tableSize k)
      (proceed (f.push (word (w.tableSize (f.address w (·.tables) k)))) w)
  | grown (k n : Nat) : TableOutcome f w (.tableGrow k)
      (proceed (f.popBits.2.pop.2.push (word n))
        (w.growElems (f.address w (·.tables) k) f.popBits.1 f.popBits.2.pop.1).2)
  | filled {k n d : Nat} (room : d + n ≤ w.tableSize (f.address w (·.tables) k)) :
      TableOutcome f w (.tableFill k) (proceed (pop3 f).2.2.2
        (w.putElems (f.address w (·.tables) k) d (List.replicate n (pop3 f).2.1)))
  | copied {t s d o n : Nat} (room : d + n ≤ w.tableSize (f.address w (·.tables) t)) :
      TableOutcome f w (.tableCopy t s) (proceed (pop3 f).2.2.2
        (w.copyElems (f.address w (·.tables) t) o d
          (((w.table (f.address w (·.tables) s)).elems.toList.drop o).take n)))
  | initialized {e k d o n : Nat} (room : d + n ≤ w.tableSize (f.address w (·.tables) k)) :
      TableOutcome f w (.tableInit e k) (proceed (pop3 f).2.2.2
        (w.putElems (f.address w (·.tables) k) d (((((f.ownerOf w).map fun i =>
          if i.droppedElems.getD e true then []
          else (i.module.module.elems[e]?.map fun e => w.elemValues i e.items).getD []).getD []).drop
            o).take n)))
  | dropped (e : Nat) : TableOutcome f w (.elemDrop e) (proceed f (dropSegment f.owner (fun i =>
      { i with droppedElems := i.droppedElems.setIfInBounds e true }) w))
  | outOfBounds {op : Wasm.Op} : TableOutcome f w op (.trap .tableOutOfBounds f w)
  | other {op : Wasm.Op} : TableOutcome f w op (proceed f w)

theorem table_outcome (op : Wasm.Op) (f : CodeFrame) (w : World) :
    TableOutcome f w op (execTable op f w) := by
  cases op with
  | tableGet k =>
      simp only [execTable]
      split
      · exact .got ‹_›
      · exact .outOfBounds
  | tableSet k =>
      simp only [execTable]
      split
      · exact .set ‹_›
      · exact .outOfBounds
  | tableSize k => exact .sized k
  | tableGrow k =>
      have hgrown := TableOutcome.grown (f := f) (w := w) k
      simp only [execTable]
      split <;> rename_i h <;> rw [h] at hgrown
      · exact hgrown _
      · exact hgrown _
  | tableFill k =>
      simp only [execTable]
      split
      · exact .filled ‹_›
      · exact .outOfBounds
  | tableCopy t s =>
      simp only [execTable]
      split
      · rename_i hroom
        exact .copied hroom.2
      · exact .outOfBounds
  | tableInit e k =>
      simp only [execTable]
      split
      · rename_i hroom
        exact .initialized hroom.2
      · exact .outOfBounds
  | elemDrop e => exact .dropped e
  | _ => exact .other

/-- The export of the caller that an operation cannot do without. -/
def HostOp.needs? : HostOp → Option String
  | peek name .. | poke name .. | grow name _ | size name | setGlobal name _ | call name .. =>
    some name
  | _ => none

/-- Whether an operation only adds to the log of the host. -/
def HostOp.Logs : HostOp → Prop
  | log _ | logArgs | logResults | kindOf _ | size _ | fuel => True
  | _ => False

/-- What a function of the system interface works on. -/
def World.guest (w : World) (memory : Nat) : Wasi.Guest :=
  { memory := w.memory memory, context := w.store.wasi, process := w.shared.process
    files := w.shared.files }

/-- A function of the system interface at work on a memory. -/
def World.served (w : World) (g : Wasi.Func) (args : List StoreVal) (memory : Nat) :
    Except Wasi.GuestFault Wasi.Errno × World :=
  let (r, guest) := g.run (args.map Val.toBits) (w.guest memory)
  (r, ((w.mapMemory memory fun _ => guest.memory).mapStore ({ · with wasi := guest.context })).mapShared
    fun s => { s with process := guest.process, files := guest.files })

namespace Machine

/-! ## Calls -/

/-- Where a call of a function of the system interface leads from a machine. -/
inductive WasiOutcome (m : Machine) (g : Wasi.Func) (args : List StoreVal)
    (caller : Option InstanceAddr) : Machine → Prop
  | unattended
      (missing : (caller.bind fun c => m.world.getExport c "memory").bind Item.memory? = none) :
      WasiOutcome m g args caller (m.raise (.other "missing required memory export"))
  | failed {addr : Nat} {fault : Wasi.GuestFault}
      (memory : (caller.bind fun c => m.world.getExport c "memory").bind Item.memory? = some addr)
      (fails : (m.world.served g args addr).1 = .error fault) :
      WasiOutcome m g args caller
        ({ m with world := (m.world.served g args addr).2 }.raise fault.cause)
  | gave {addr : Nat} {errno : Wasi.Errno}
      (memory : (caller.bind fun c => m.world.getExport c "memory").bind Item.memory? = some addr)
      (gives : (m.world.served g args addr).1 = .ok errno) :
      WasiOutcome m g args caller ({ m with world := (m.world.served g args addr).2 }.giveBack
        (g.type.results.map fun t => .ofBits t errno))

theorem enterWasi_outcome (m : Machine) (g : Wasi.Func) (args : List StoreVal)
    (caller : Option InstanceAddr) : WasiOutcome m g args caller (m.enterWasi g args caller) := by
  unfold enterWasi
  split
  · exact .unattended ‹_›
  · dsimp only
    split
    · exact .failed ‹_› ‹_›
    · exact .gave ‹_› ‹_›

/-- Where a call leads from a machine. -/
inductive CallOutcome (m : Machine) (func : FuncAddr) (args : List StoreVal)
    (caller : Option InstanceAddr) : Machine → Prop
  | unknown (unknown : m.world.store.funcs[func]? = none) :
      CallOutcome m func args caller (m.giveBack [])
  | full {type : FuncType} {owner : InstanceAddr} {code : FuncCode}
      (known : m.world.store.funcs[func]? = some ⟨type, .code owner code⟩)
      (full : ¬m.hasStack) : CallOutcome m func args caller (m.raise (.code .stackExhausted))
  | code {type : FuncType} {owner : InstanceAddr} {code : FuncCode}
      (known : m.world.store.funcs[func]? = some ⟨type, .code owner code⟩) (room : m.hasStack) :
      CallOutcome m func args caller (m.pushActivation (.code
        { owner, code, locals := (args ++ code.locals.map Val.default).toArray
          blocks := [{ next := code.ops.size, arity := type.results.length }] }))
  | host {type : FuncType} {ops : List HostOp}
      (known : m.world.store.funcs[func]? = some ⟨type, .host ops⟩) :
      CallOutcome m func args caller
        ({ m with world := ((m.world.holdAll args).revealAll args).2 }.pushActivation (.host
          { type, caller, held := args, args := ((m.world.holdAll args).revealAll args).1
            results := type.results.map Val.default, todo := ops }))
  | command {type : FuncType} {module : CompiledModule} {imports : List Item} {entry : String}
      {owner : InstanceAddr} {w : World}
      (known : m.world.store.funcs[func]? = some ⟨type, .command module imports entry⟩)
      (made : (m.world.holdAll args).instantiate module imports = (.ok owner, w)) :
      CallOutcome m func args caller
        ({ m with world := w }.pushActivation (.command { owner, entry, held := args }))
  | refused {type : FuncType} {module : CompiledModule} {imports : List Item} {entry : String}
      {c : Cause} {w : World}
      (known : m.world.store.funcs[func]? = some ⟨type, .command module imports entry⟩)
      (refused : (m.world.holdAll args).instantiate module imports = (.error c, w)) :
      CallOutcome m func args caller ({ m with world := w.unholdAll args }.raise c)
  | wasi {type : FuncType} {g : Wasi.Func} {m' : Machine}
      (known : m.world.store.funcs[func]? = some ⟨type, .wasi g⟩)
      (outcome : WasiOutcome m g args caller m') : CallOutcome m func args caller m'
  | idle {type : FuncType} (known : m.world.store.funcs[func]? = some ⟨type, .idle⟩) :
      CallOutcome m func args caller (m.giveBack [])

theorem enter_outcome (m : Machine) (func : FuncAddr) (args : List StoreVal)
    (caller : Option InstanceAddr) :
    CallOutcome m func args caller (m.enter func args caller) := by
  unfold enter
  cases known : m.world.store.funcs[func]? with
  | none => exact .unknown known
  | some f =>
      obtain ⟨type, body⟩ := f
      cases body with
      | code owner code =>
          dsimp only
          split <;> rename_i room
          · exact .full known (by simpa using room)
          · exact .code known (by simpa using room)
      | host ops => exact .host known
      | command module imports entry =>
          dsimp only
          split
          · exact .command known ‹_›
          · exact .refused known ‹_›
      | wasi g => exact .wasi known (enterWasi_outcome m g args caller)
      | idle => exact .idle known

/-! ## Operations -/

/-- Where an operation leads from a machine, with `h` for its host function without it. -/
inductive HostOutcome (m : Machine) (h : HostFrame) (rest : List Activation) :
    HostOp → Machine → Prop
  | set (i : Nat) (v : HostVal) :
      HostOutcome m h rest (.set i v)
        (m.onHost (h.setResult i v m.world).1 rest (h.setResult i v m.world).2)
  | copy (i k : Nat) :
      HostOutcome m h rest (.copy i k)
        (m.onHost (h.setResult i (h.arg k) m.world).1 rest (h.setResult i (h.arg k) m.world).2)
  | added (i : Nat) :
      HostOutcome m h rest (.add i) (m.onHost (h.putResult i (.i32 h.argSum) m.world).1 rest
        (h.putResult i (.i32 h.argSum) m.world).2)
  | peeked {name : String} {addr i a : Nat} {bytes : List UInt8}
      (memory : (h.export? m.world name).bind Item.memory? = some a)
      (small : ¬twoTo 31 ≤ h.argBits addr)
      (read : m.world.readMemory a (h.argBits addr) 1 = some bytes) :
      HostOutcome m h rest (.peek name addr i)
        (m.onHost (h.putResult i (.ofBits .i32 (Memory.number bytes)) m.world).1 rest
          (h.putResult i (.ofBits .i32 (Memory.number bytes)) m.world).2)
  | trapped (text : String) : HostOutcome m h rest (.trap text) (m.failHost (.ofText text) h)
  /-- The caller has no such export, or it refuses what is asked of it. -/
  | refused {op : HostOp} {name : String} (needs : op.needs? = some name) (text : String) :
      HostOutcome m h rest op (m.failHost (.ofText text) h)
  | logged {op : HostOp} (logs : op.Logs) (entry : LogEntry) :
      HostOutcome m h rest op (m.onHost h rest (m.world.log entry))
  | poked {name : String} {addr value a : Nat} {w : World}
      (memory : (h.export? m.world name).bind Item.memory? = some a)
      (small : ¬twoTo 31 ≤ h.argBits addr)
      (written : m.world.writeMemory a (h.argBits addr) [UInt8.ofNat (h.argBits value)] = some w) :
      HostOutcome m h rest (.poke name addr value) (m.onHost h rest w)
  | grown {name : String} {delta a old : Nat} {w : World}
      (memory : (h.export? m.world name).bind Item.memory? = some a)
      (grown : m.world.growMemory a delta = .ok (old, w)) :
      HostOutcome m h rest (.grow name delta) (m.onHost h rest (w.log (.grew old (w.memory a).size)))
  | globalSet {name : String} {v : HostVal} {a : Nat} {w : World}
      (known : (h.export? m.world name).bind Item.global? = some a)
      (set : m.world.setGlobal a v = .ok w) :
      HostOutcome m h rest (.setGlobal name v) (m.onHost h rest w)
  | called {name : String} {args : List HostArg} {result : Option Nat} {catches : Bool}
      {func : FuncAddr} (known : (h.export? m.world name).bind Item.func? = some func) :
      HostOutcome m h rest (.call name args result catches)
        (m.hostCall func (args.map fun a => match a with
          | .arg k => h.arg k
          | .value v => v) result catches h rest)
  | fueled {n : Nat} {w : World} (added : m.world.addFuel n = .ok w) :
      HostOutcome m h rest (.addFuel n) (m.onHost h rest w)
  | unfueled {n : Nat} {e : Error} (failed : m.world.addFuel n = .error e) :
      HostOutcome m h rest (.addFuel n) (m.failHost (.ofText e.message) h)
  | collected : HostOutcome m h rest .gc (m.onHost h rest (m.world.collect m.liveBoxes))
  | interrupted (signal : SignalId) :
      HostOutcome m h rest (.interrupt signal) (m.onHost h rest (m.world.interrupt signal))
  | branched (k : Nat) (zero nonzero : List HostOp) :
      HostOutcome m h rest (.branch k zero nonzero) (m.onHost
        { h with todo := (if h.arg k = .i32 0 then zero else nonzero) ++ h.todo } rest m.world)

/-- An operation has one of its outcomes. -/
theorem hostOp_outcome (m : Machine) (h : HostFrame) (rest : List Activation) (op : HostOp) :
    HostOutcome m h rest op (m.hostOp op h rest) := by
  cases op with
  | set i v => exact .set i v
  | copy i k => exact .copy i k
  | add i => exact .added i
  | trap text => exact .trapped text
  | log | logArgs | logResults | kindOf | fuel => exact .logged (by exact trivial) _
  | gc => exact .collected
  | interrupt signal => exact .interrupted signal
  | branch k zero nonzero => exact .branched k zero nonzero
  | peek name addr i =>
      rw [hostOp]
      split
      · exact .refused rfl _
      · split
        · exact .refused rfl _
        · split
          · exact .peeked ‹_› ‹_› ‹_›
          · exact .refused rfl _
  | poke name addr value =>
      rw [hostOp]
      split
      · exact .refused rfl _
      · split
        · exact .refused rfl _
        · split
          · exact .poked ‹_› ‹_› ‹_›
          · exact .refused rfl _
  | grow name delta =>
      rw [hostOp]
      split
      · exact .refused rfl _
      · split
        · exact .grown ‹_› ‹_›
        · exact .refused rfl _
  | size name =>
      rw [hostOp]
      split
      · exact .refused rfl _
      · exact .logged (by exact trivial) _
  | setGlobal name v =>
      rw [hostOp]
      split
      · exact .refused rfl _
      · split
        · exact .globalSet ‹_› ‹_›
        · exact .refused rfl _
  | call name args result catches =>
      rw [hostOp]
      split
      · exact .refused rfl _
      · exact .called ‹_›
  | addFuel n =>
      rw [hostOp]
      split
      · exact .fueled ‹_›
      · exact .unfueled ‹_›

end Machine

end WasmHost

import WasmHost.Machine.Instantiate

/-!
# The activations of a machine

A machine runs code in a world. Its stack holds what was called and has not returned, innermost
first: frames of code, calls of host functions, and commands. Its control says whether the topmost
activation goes on, gets results, or is unwound by a fault.
-/

namespace WasmHost

/-- An open block of running code: where a branch to it goes on and how many values it takes along,
and the operands of the block, the last one first. -/
structure RunBlock where
  next : Nat
  arity : Nat
  stack : List StoreVal := []

/-- A function of a module at work. -/
structure CodeFrame where
  owner : InstanceAddr
  code : FuncCode
  /-- The place of the instruction at hand in the body. -/
  pc : Nat := 0
  /-- Whether the checks at the entry are done. -/
  entered : Bool := false
  locals : Array StoreVal
  blocks : List RunBlock
  /-- Fuel for instructions since the last reckoning. -/
  owed : Nat := 1
  /-- Fuel that was reckoned but that the store does not know of yet. -/
  burned : Nat := 0

/-- A call that a host function has under way: the values it handed over, which result of its own it
wants, and whether it catches failures. -/
structure PendingCall where
  held : List StoreVal
  result : Option Nat
  catches : Bool

/-- A host function at work. -/
structure HostFrame where
  type : FuncType
  /-- The instance whose code made the call. -/
  caller : Option InstanceAddr
  /-- The arguments as they came; their boxes are held. -/
  held : List StoreVal
  args : List HostVal
  results : List HostVal
  todo : List HostOp
  pending : Option PendingCall := none

/-- How far a command is. -/
inductive CommandStage where
  | fresh | starting | calling
deriving DecidableEq

/-- A call of a command: the instance that was made for it, the export that is to be called, and the
arguments, whose boxes are held. -/
structure CommandFrame where
  owner : InstanceAddr
  entry : String
  held : List StoreVal
  stage : CommandStage := .fresh

/-- Something that was called and has not returned. -/
inductive Activation where
  | code (frame : CodeFrame)
  | host (frame : HostFrame)
  | command (frame : CommandFrame)

namespace Activation

/-- The bytes of stack that a function of a module is taken to need. -/
def codeSize : Nat := 32

/-- The bytes of stack that a host function or a command is taken to need. -/
def hostSize : Nat := 2048

/-- The bytes of stack that an activation is taken to need. -/
def size : Activation → Nat
  | .code _ => codeSize
  | .host _ | .command _ => hostSize

end Activation

/-- What happens next. -/
inductive Control where
  | run
  | back (vals : List StoreVal)
  | fault (fault : Fault)

/-- A machine at work. -/
structure Machine where
  world : World
  stack : List Activation
  control : Control
  /-- The bytes of stack that the activations are taken to need. -/
  used : Nat := 0

namespace CodeFrame

/-- Adds an operand. -/
def push (v : StoreVal) (f : CodeFrame) : CodeFrame :=
  match f.blocks with
  | b :: bs => { f with blocks := { b with stack := v :: b.stack } :: bs }
  | [] => f

/-- Adds operands in order. -/
def pushAll (vs : List StoreVal) (f : CodeFrame) : CodeFrame := vs.foldl (fun f v => f.push v) f

/-- Takes the last operand. -/
def pop (f : CodeFrame) : StoreVal × CodeFrame :=
  match f.blocks with
  | b :: bs => (b.stack.headD default, { f with blocks := { b with stack := b.stack.tail } :: bs })
  | [] => (default, f)

/-- Takes operands; they come in the order they were added. -/
def popMany : Nat → CodeFrame → List StoreVal × CodeFrame
  | 0, f => ([], f)
  | n + 1, f =>
    let (v, f) := f.pop
    let (vs, f) := popMany n f
    (vs ++ [v], f)

/-- Takes the bits of the last operand. -/
def popBits (f : CodeFrame) : Nat × CodeFrame :=
  let (v, f) := f.pop
  (v.toBits, f)

/-- Goes on to the next instruction. -/
def advance (f : CodeFrame) : CodeFrame := { f with pc := f.pc + 1 }

/-- The place in the binary that the frame is at; before the entry is done it is the last group of
locals. -/
def place (f : CodeFrame) : Nat :=
  if f.entered then f.code.layout.places.getD f.pc 0 else f.code.layout.lastLocals

/-- The first place from which the frame may still run: that of the outermost loop it is in, or the
next one. -/
def earliest (f : CodeFrame) : Nat := f.blocks.foldl (fun p b => min p b.next) (f.pc + 1)

/-- Whether code that may still run reads a local. -/
def needsLocal (f : CodeFrame) (i : Nat) : Bool :=
  (f.code.ops.toList.drop f.earliest).any fun op => match op with
    | .localGet j => i == j
    | _ => false

/-- The values that the frame still needs: its operands, and the locals that are read again. -/
def needed (f : CodeFrame) : List StoreVal :=
  (f.locals.toList.zipIdx.filter fun v => f.needsLocal v.2).map (·.1)
    ++ f.blocks.flatMap (·.stack)

/-- The boxes that the frame's values hold. -/
def boxes (f : CodeFrame) : List BoxId := f.needed.filterMap World.boxOf

end CodeFrame

namespace World

/-- A frame of code as a trace shows it. -/
def frameInfo (w : World) (f : CodeFrame) : FrameInfo :=
  let m := w.store.instances[f.owner]?.map (·.module)
  { funcIndex := f.code.index
    funcName := m.bind (·.funcName f.code.index)
    moduleName := m.bind (·.name)
    funcOffset := f.place - f.code.layout.start
    moduleOffset := f.place }

/-- The frames of code on a stack. -/
def trace (w : World) (stack : List Activation) : List FrameInfo :=
  stack.filterMap fun a => match a with
    | .code f => some (w.frameInfo f)
    | .host _ | .command _ => none

end World

namespace Machine

/-- The boxes that running code holds. -/
def liveBoxes (m : Machine) : List BoxId :=
  m.stack.flatMap fun a => match a with
    | .code f => f.boxes
    | .host _ | .command _ => []

/-- Raises a fault; its trace shows all frames of code there are. -/
def raise (c : Cause) (m : Machine) : Machine :=
  { m with control := .fault { cause := c, trace := m.world.trace m.stack } }

/-- Puts a call on the stack. -/
def pushActivation (a : Activation) (m : Machine) : Machine :=
  { m with stack := a :: m.stack, control := .run, used := m.used + a.size }

/-- Takes the topmost call off the stack. -/
def popActivation (m : Machine) : Machine :=
  match m.stack with
  | [] => m
  | a :: rest => { m with stack := rest, used := m.used - a.size }

end Machine

end WasmHost

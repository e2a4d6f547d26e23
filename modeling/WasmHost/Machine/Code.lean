import WasmHost.Machine.Frame

/-!
# Instructions at work

`exec` carries out one instruction of a frame. Fuel is reckoned at the instructions that end a run
of others, and the store gets to know of it before control leaves the function. Out of fuel and
interrupts are looked for at the entry of a function and at every loop.
-/

namespace WasmHost

/-- What comes of an instruction. -/
inductive Outcome where
  | next (frame : CodeFrame) (world : World)
  | trap (code : TrapCode) (frame : CodeFrame) (world : World)
  | call (func : FuncAddr) (args : List StoreVal) (frame : CodeFrame) (world : World)
  | exit (vals : List StoreVal) (world : World)

/-- The fuel that an instruction takes. -/
def Wasm.Op.cost : Wasm.Op → Nat
  | .nop | .drop | .block _ | .loop _ | .unreachable | .ret | .orElse | .done => 0
  | _ => 1

/-- Whether fuel is reckoned at an instruction. -/
def Wasm.Op.reckons : Wasm.Op → Bool
  | .loop _ | .ifThen _ | .orElse | .done | .br _ | .brIf _ | .brTable .. | .call _
  | .callIndirect .. | .ret | .unreachable => true
  | _ => false

/-- Whether the store gets to know of the fuel at an instruction. -/
def Wasm.Op.saves : Wasm.Op → Bool
  | .call _ | .callIndirect .. | .ret | .unreachable => true
  | _ => false

namespace CodeFrame

/-- Moves what is owed to what is burned. -/
def reckon (f : CodeFrame) : CodeFrame := { f with owed := 0, burned := f.burned + f.owed }

/-- Lets the store know of the fuel that was burned. -/
def save (f : CodeFrame) (w : World) : CodeFrame × World :=
  ({ f with burned := 0 }, w.mapFuel (·.burn f.burned))

/-- Looks for the end of the fuel, then for the deadline of the store. -/
def check (f : CodeFrame) (w : World) : Outcome :=
  if w.usesFuel ∧ w.store.fuel.remaining ≤ f.burned then
    let (f, w) := f.save w
    .trap .outOfFuel f w
  else if w.store.engine.isInterruptable ∧ w.store.deadline ≤ w.epoch then
    match w.meetDeadline with
    | (true, w) => .trap .interrupt f w
    | (false, w) => .next f w
  else .next f w

/-- Leaves the function. -/
def leave (vals : List StoreVal) (f : CodeFrame) (w : World) : Outcome :=
  .exit vals (f.save w).2

/-- The signature of a block. -/
def blockType (w : World) (f : CodeFrame) : Wasm.BlockType → FuncType
  | .empty => ⟨[], []⟩
  | .value t => ⟨[], [t]⟩
  | .index n =>
    ((w.store.instances[f.owner]?).bind fun i => i.module.module.types[n]?).getD ⟨[], []⟩

/-- Opens a block, which takes its parameters along. -/
def openBlock (next arity params : Nat) (f : CodeFrame) : CodeFrame :=
  let (vals, f) := f.popMany params
  { f with blocks := { next, arity, stack := vals.reverse } :: f.blocks }

/-- The place of the `done` that belongs to the instruction at a place. -/
def donePlace (f : CodeFrame) (pc : Nat) : Nat :=
  let p := f.code.partners.getD pc 0
  if f.code.ops.getD p .nop = .orElse then f.code.partners.getD p 0 else p

/-- Goes to a block: the blocks within it are left, and the values that it takes stay. -/
def branch (label : Nat) (f : CodeFrame) (w : World) : Outcome :=
  match f.blocks, f.blocks[label]? with
  | top :: _, some target =>
    let vals := top.stack.take target.arity
    match f.blocks.drop (label + 1) with
    | outer :: rest =>
      .next { f with pc := target.next
                     blocks := { outer with stack := vals ++ outer.stack } :: rest } w
    | [] => f.leave vals.reverse w
  | _, _ => f.leave [] w

/-- The instance that a frame belongs to. -/
def ownerOf (f : CodeFrame) (w : World) : Option Instance := w.store.instances[f.owner]?

/-- The number in the store of an item of the frame's instance. -/
def address (f : CodeFrame) (w : World) (items : Instance → Array Nat) (index : Nat) : Nat :=
  ((f.ownerOf w).map fun i => (items i).getD index 0).getD 0

end CodeFrame

open CodeFrame

/-- Goes on behind an instruction. -/
def proceed (f : CodeFrame) (w : World) : Outcome := .next f.advance w

/-- The 32-bit word of minus one, by which a failed growth is told. -/
def growthFailed : StoreVal := .i32 (UInt32.ofNat (twoTo 32 - 1))

/-- A number as a 32-bit word. -/
def word (n : Nat) : StoreVal := .i32 (UInt32.ofNat n)

/-- Reads memory. -/
def execLoad (op : Wasm.LoadOp) (arg : Wasm.MemArg) (f : CodeFrame) (w : World) : Outcome :=
  let memory := f.address w (·.memories) arg.memory
  let (base, g) := f.popBits
  match w.readMemory memory (base + arg.offset) op.bytes with
  | some bytes =>
    let n := Memory.number bytes
    let width := 8 * Wasm.numberBytes op.type
    proceed (g.push (.ofBits op.type (Wasm.wrapped width (op.sign.value (8 * op.bytes) n)))) w
  | none => .trap .memoryOutOfBounds f w

/-- Writes memory. -/
def execStore (op : Wasm.StoreOp) (arg : Wasm.MemArg) (f : CodeFrame) (w : World) : Outcome :=
  let memory := f.address w (·.memories) arg.memory
  let (v, g) := f.pop
  let (base, g) := g.popBits
  let addr := base + arg.offset
  if (w.memory memory).fits addr op.bytes then
    proceed g (w.mapMemory memory (·.put addr (Memory.numberBytes op.bytes v.toBits)))
  else .trap .memoryOutOfBounds f w

/-- Takes the three numbers that a bulk operation works on: target, source or value, and length. -/
def pop3 (f : CodeFrame) : Nat × StoreVal × Nat × CodeFrame :=
  let (n, f) := f.popBits
  let (v, f) := f.pop
  let (d, f) := f.popBits
  (d, v, n, f)

/-- Marks a segment as used up. -/
def dropSegment (owner : InstanceAddr) (f : Instance → Instance) (w : World) : World :=
  w.mapStore fun s => { s with instances := s.instances.modify owner f }

/-- Carries out a bulk operation on memories. -/
def execMemory (op : Wasm.Op) (f : CodeFrame) (w : World) : Outcome :=
  let addr := f.address w (·.memories)
  match op with
  | .memoryFill m =>
    let (d, v, n, g) := pop3 f
    if (w.memory (addr m)).fits d n then
      proceed g (w.mapMemory (addr m) (·.put d (List.replicate n (UInt8.ofNat v.toBits))))
    else .trap .memoryOutOfBounds f w
  | .memoryCopy t s =>
    let (d, v, n, g) := pop3 f
    match w.readMemory (addr s) v.toBits n with
    | some bytes =>
      if (w.memory (addr t)).fits d n then proceed g (w.mapMemory (addr t) (·.put d bytes))
      else .trap .memoryOutOfBounds f w
    | none => .trap .memoryOutOfBounds f w
  | .memoryInit data m =>
    let (d, v, n, g) := pop3 f
    let bytes := ((f.ownerOf w).map fun i =>
      if i.droppedDatas.getD data true then []
      else (i.module.module.datas[data]?.map (·.bytes)).getD []).getD []
    if v.toBits + n ≤ bytes.length ∧ (w.memory (addr m)).fits d n then
      proceed g (w.mapMemory (addr m) (·.put d ((bytes.drop v.toBits).take n)))
    else .trap .memoryOutOfBounds f w
  | .dataDrop data =>
    proceed f (dropSegment f.owner (fun i =>
      { i with droppedDatas := i.droppedDatas.setIfInBounds data true }) w)
  | .memorySize m => proceed (f.push (word (w.memory (addr m)).pages)) w
  | .memoryGrow m =>
    let (delta, g) := f.popBits
    match w.growPages (addr m) delta with
    | some (old, w) => proceed (g.push (word old)) w
    | none => proceed (g.push growthFailed) w
  | _ => proceed f w

/-- Carries out an operation on tables. -/
def execTable (op : Wasm.Op) (f : CodeFrame) (w : World) : Outcome :=
  let addr := f.address w (·.tables)
  match op with
  | .tableGet t =>
    let (i, g) := f.popBits
    match (w.table (addr t)).elems[i]? with
    | some v => proceed (g.push v) (w.exposeVal v)
    | none => .trap .tableOutOfBounds f w
  | .tableSet t =>
    let (v, g) := f.pop
    let (i, g) := g.popBits
    if i < w.tableSize (addr t) then proceed g (w.putElem (addr t) i v)
    else .trap .tableOutOfBounds f w
  | .tableSize t => proceed (f.push (word (w.tableSize (addr t)))) w
  | .tableGrow t =>
    let (delta, g) := f.popBits
    let (v, g) := g.pop
    match w.growElems (addr t) delta v with
    | (some old, w) => proceed (g.push (word old)) w
    | (none, w) => proceed (g.push growthFailed) w
  | .tableFill t =>
    let (d, v, n, g) := pop3 f
    if d + n ≤ w.tableSize (addr t) then proceed g (w.putElems (addr t) d (List.replicate n v))
    else .trap .tableOutOfBounds f w
  | .tableCopy t s =>
    let (d, v, n, g) := pop3 f
    let source := (w.table (addr s)).elems.toList
    if v.toBits + n ≤ source.length ∧ d + n ≤ w.tableSize (addr t) then
      proceed g (w.copyElems (addr t) v.toBits d ((source.drop v.toBits).take n))
    else .trap .tableOutOfBounds f w
  | .tableInit e t =>
    let (d, v, n, g) := pop3 f
    let values := ((f.ownerOf w).map fun i =>
      if i.droppedElems.getD e true then []
      else (i.module.module.elems[e]?.map fun e => w.elemValues i e.items).getD []).getD []
    if v.toBits + n ≤ values.length ∧ d + n ≤ w.tableSize (addr t) then
      proceed g (w.putElems (addr t) d ((values.drop v.toBits).take n))
    else .trap .tableOutOfBounds f w
  | .elemDrop e =>
    proceed f (dropSegment f.owner (fun i =>
      { i with droppedElems := i.droppedElems.setIfInBounds e true }) w)
  | _ => proceed f w

/-- Calls what an element of a table points to. -/
def execCallIndirect (type table : Nat) (f : CodeFrame) (w : World) : Outcome :=
  let (i, g) := f.popBits
  let wanted := f.blockType w (.index type)
  match (w.table (f.address w (·.tables) table)).elems[i]? with
  | none => .trap .tableOutOfBounds f w
  | some (.funcref (some func)) =>
    if w.store.funcs[func]?.map (·.type) = some wanted then
      let (args, g) := g.popMany wanted.params.length
      .call func args g w
    else .trap .signatureMismatch f w
  | some _ => .trap .uninitializedElement f w

/-- Carries out an instruction. -/
def exec (op : Wasm.Op) (f : CodeFrame) (w : World) : Outcome :=
  match op with
  | .unreachable => .trap .unreachable f w
  | .nop => proceed f w
  | .block t =>
    let type := f.blockType w t
    proceed (f.openBlock (f.donePlace f.pc + 1) type.results.length type.params.length) w
  | .loop t =>
    match f.check w with
    | .next f w =>
      let params := (f.blockType w t).params.length
      proceed (f.openBlock f.pc params params) w
    | o => o
  | .ifThen t =>
    let (c, g) := f.popBits
    let type := f.blockType w t
    let g := g.openBlock (f.donePlace f.pc + 1) type.results.length type.params.length
    if c ≠ 0 then proceed g w
    else
      let p := f.code.partners.getD f.pc 0
      if f.code.ops.getD p .nop = .orElse then .next { g with pc := p + 1 } w
      else .next { g with pc := p } w
  | .orElse => .next { f with pc := f.code.partners.getD f.pc 0 } w
  | .done =>
    match f.blocks with
    | [] => f.leave [] w
    | [b] => f.leave b.stack.reverse w
    | b :: outer :: rest =>
      proceed { f with blocks := { outer with stack := b.stack ++ outer.stack } :: rest } w
  | .br l => f.branch l w
  | .brIf l =>
    let (c, g) := f.popBits
    if c ≠ 0 then g.branch l w else proceed g w
  | .brTable ls l =>
    let (i, g) := f.popBits
    g.branch (ls.getD i l) w
  | .ret => f.branch (f.blocks.length - 1) w
  | .call i =>
    let func := f.address w (·.funcs) i
    let count := ((w.store.funcs[func]?).map (·.type.params.length)).getD 0
    let (args, g) := f.popMany count
    .call func args g w
  | .callIndirect type table => execCallIndirect type table f w
  | .drop => proceed f.pop.2 w
  | .select | .selectTyped _ =>
    let (c, g) := f.popBits
    let (b, g) := g.pop
    let (a, g) := g.pop
    proceed (g.push (if c ≠ 0 then a else b)) w
  | .localGet i => proceed (f.push (f.locals.getD i default)) w
  | .localSet i =>
    let (v, g) := f.pop
    proceed { g with locals := g.locals.setIfInBounds i v } w
  | .localTee i =>
    let (v, g) := f.pop
    proceed ({ g with locals := g.locals.setIfInBounds i v }.push v) w
  | .globalGet i =>
    let v := w.globalValue (f.address w (·.globals) i)
    proceed (f.push v) (w.exposeVal v)
  | .globalSet i =>
    let (v, g) := f.pop
    proceed g (w.putGlobal (f.address w (·.globals) i) v)
  | .refNull t => proceed (f.push (Val.default t)) w
  | .refIsNull =>
    let (v, g) := f.pop
    proceed (g.push (word (if v.isNull then 1 else 0))) w
  | .refFunc i => proceed (f.push (.funcref (some (f.address w (·.funcs) i)))) w
  | .load op arg => execLoad op arg f w
  | .atomicLoad arg => execLoad ⟨.i32, 4, .unsigned⟩ arg f w
  | .store op arg => execStore op arg f w
  | .i32Const b => proceed (f.push (.i32 b)) w
  | .i64Const b => proceed (f.push (.i64 b)) w
  | .f32Const b => proceed (f.push (.f32 b)) w
  | .f64Const b => proceed (f.push (.f64 b)) w
  | .numeric op =>
    match f.blocks with
    | [] => proceed f w
    | b :: rest =>
      match op.apply b.stack with
      | .ok stack => proceed { f with blocks := { b with stack } :: rest } w
      | .error code => .trap code f w
  | .memorySize _ | .memoryGrow _ | .memoryFill _ | .memoryCopy .. | .memoryInit .. | .dataDrop _ =>
    execMemory op f w
  | .tableGet _ | .tableSet _ | .tableSize _ | .tableGrow _ | .tableFill _ | .tableCopy ..
  | .tableInit .. | .elemDrop _ => execTable op f w

/-- Carries out the instruction that a frame is at, with its fuel. A frame that has not been entered
is entered first. -/
def CodeFrame.step (f : CodeFrame) (w : World) : Outcome :=
  if !f.entered then
    match f.reckon.check w with
    | .next f w => .next { f with entered := true } w
    | o => o
  else
    let op := f.code.ops.getD f.pc .unreachable
    let f := { f with owed := f.owed + op.cost }
    let f := if op.reckons then f.reckon else f
    let (f, w) := if op.saves then f.save w else (f, w)
    exec op f w

end WasmHost

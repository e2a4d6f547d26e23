import WasmHost.Power
import WasmHost.Wasm.Module

/-!
# Typing of instructions

Each open block has the kinds of its own operands; a block cannot see those of the blocks around it.
Behind an unconditional jump the operands are unknown: any number of any kind. `checkOp` says how
one instruction changes the open blocks, and `checkBody` that a body leaves the results of its
function.
-/

namespace WasmHost.Wasm

/-- The optional parts of the language that a module may use. -/
structure Features where
  threads : Bool
  referenceTypes : Bool
  bulkMemory : Bool
  multiValue : Bool
deriving DecidableEq

/-- A kind may be used: references are optional. -/
def Features.allows (f : Features) (t : ValType) : Bool := f.referenceTypes || !t.isRef

/-- What instructions may refer to. -/
structure Context where
  features : Features
  types : Array FuncType
  funcs : Array FuncType
  tables : Array TableType
  memories : Array MemoryType
  globals : Array GlobalType
  elems : Array ValType
  /-- The number of segments of data, if it is given ahead of the code. -/
  dataCount : Option Nat
  /-- The functions that a reference may be made of. -/
  referable : List Nat
  locals : Array ValType := #[]

/-- The same context with the locals of a function. -/
def Context.withLocals (locals : List ValType) (c : Context) : Context :=
  { c with locals := locals.toArray }

/-- What opened a block. -/
inductive BlockKind where
  | block | loop | ifThen | orElse
deriving DecidableEq

/-- An open block: its signature, the kinds of its operands (the last one first; `none` for any
kind), and whether it is behind a jump. -/
structure OpenBlock where
  kind : BlockKind
  type : FuncType
  stack : List (Option ValType) := []
  jumped : Bool := false

namespace OpenBlock

/-- What a branch to the block must bring. -/
def labelTypes (b : OpenBlock) : List ValType :=
  match b.kind with
  | .loop => b.type.params
  | _ => b.type.results

/-- Adds an operand. -/
def push (t : ValType) (b : OpenBlock) : OpenBlock := { b with stack := some t :: b.stack }

/-- Adds operands in order. -/
def pushAll (ts : List ValType) (b : OpenBlock) : OpenBlock := ts.foldl (fun b t => b.push t) b

/-- Takes an operand of any kind. -/
def popAny (b : OpenBlock) : Option (Option ValType × OpenBlock) :=
  match b.stack with
  | t :: rest => some (t, { b with stack := rest })
  | [] => if b.jumped then some (none, b) else none

/-- Takes an operand of a kind. -/
def pop (t : ValType) (b : OpenBlock) : Option OpenBlock := do
  match ← b.popAny with
  | (some u, b) => if t = u then return b else none
  | (none, b) => return b

/-- Takes operands whose kinds are given in the order they were added. -/
def popAll (ts : List ValType) (b : OpenBlock) : Option OpenBlock :=
  ts.reverse.foldlM (fun b t => b.pop t) b

/-- Takes operands and adds results. -/
def apply (params results : List ValType) (b : OpenBlock) : Option OpenBlock := do
  return (← b.popAll params).pushAll results

/-- Drops all operands: what follows is not reached. -/
def jump (b : OpenBlock) : OpenBlock := { b with stack := [], jumped := true }

/-- Takes the results of a block, which must be all of its operands; gives its signature. -/
def close (b : OpenBlock) : Option FuncType := do
  let b ← b.popAll b.type.results
  if b.stack.isEmpty then return b.type else none

end OpenBlock

namespace Context

variable (c : Context)

/-- The signature of a block. -/
def blockType? : BlockType → Option FuncType
  | .empty => some ⟨[], []⟩
  | .value t => if c.features.allows t then some ⟨[], [t]⟩ else none
  | .index n => if c.features.multiValue then c.types[n]? else none

/-- Whether a memory instruction points into a memory, no further aligned than it is wide. -/
def checkMemArg (bytes : Nat) (a : MemArg) : Bool :=
  (c.memories[a.memory]?).isSome && decide (twoTo a.align ≤ bytes)

/-- The operands and results of an instruction that looks at nothing but its operands and what the
module has. -/
def plainType? : Op → Option (List ValType × List ValType)
  | .nop => some ([], [])
  | .call f => c.funcs[f]?.map fun t => (t.params, t.results)
  | .callIndirect type table => do
    let t ← c.tables[table]?
    let f ← c.types[type]?
    if t.element = .funcref then some (f.params ++ [.i32], f.results) else none
  | .localGet i => c.locals[i]?.map fun t => ([], [t])
  | .localSet i => c.locals[i]?.map fun t => ([t], [])
  | .localTee i => c.locals[i]?.map fun t => ([t], [t])
  | .globalGet i => c.globals[i]?.map fun g => ([], [g.content])
  | .globalSet i => do
    let g ← c.globals[i]?
    if g.isMutable then some ([g.content], []) else none
  | .tableGet t => reference (c.tables[t]?.map fun t => ([.i32], [t.element]))
  | .tableSet t => reference (c.tables[t]?.map fun t => ([.i32, t.element], []))
  | .tableSize t => reference (c.tables[t]?.map fun _ => ([], [.i32]))
  | .tableGrow t => reference (c.tables[t]?.map fun t => ([t.element, .i32], [.i32]))
  | .tableFill t => bulk (reference (c.tables[t]?.map fun t => ([.i32, t.element, .i32], [])))
  | .tableCopy t s => bulk do
    let (t, s) := (← c.tables[t]?, ← c.tables[s]?)
    if t.element = s.element then some ([.i32, .i32, .i32], []) else none
  | .tableInit e t => bulk do
    if (← c.tables[t]?).element = (← c.elems[e]?) then some ([.i32, .i32, .i32], []) else none
  | .elemDrop e => bulk (c.elems[e]?.map fun _ => ([], []))
  | .refNull t => reference (some ([], [t]))
  | .refFunc f => reference (if c.referable.contains f then some ([], [.funcref]) else none)
  | .load op a => if c.checkMemArg op.bytes a then some ([.i32], [op.type]) else none
  | .store op a => if c.checkMemArg op.bytes a then some ([.i32, op.type], []) else none
  | .atomicLoad a =>
    if c.features.threads ∧ c.checkMemArg 4 a ∧ a.align = 2 then some ([.i32], [.i32]) else none
  | .memorySize m => c.memories[m]?.map fun _ => ([], [.i32])
  | .memoryGrow m => c.memories[m]?.map fun _ => ([.i32], [.i32])
  | .memoryFill m => bulk (c.memories[m]?.map fun _ => ([.i32, .i32, .i32], []))
  | .memoryCopy t s => bulk do
    let _ ← c.memories[t]?
    let _ ← c.memories[s]?
    some ([.i32, .i32, .i32], [])
  | .memoryInit d m => bulk do
    let _ ← c.memories[m]?
    if d < (← c.dataCount) then some ([.i32, .i32, .i32], []) else none
  | .dataDrop d => bulk do if d < (← c.dataCount) then some ([], []) else none
  | .i32Const _ => some ([], [.i32])
  | .i64Const _ => some ([], [.i64])
  | .f32Const _ => some ([], [.f32])
  | .f64Const _ => some ([], [.f64])
  | .numeric op => some (op.type.1, [op.type.2])
  | _ => none
where
  reference (t : Option (List ValType × List ValType)) : Option (List ValType × List ValType) :=
    if c.features.referenceTypes then t else none
  bulk (t : Option (List ValType × List ValType)) : Option (List ValType × List ValType) :=
    if c.features.bulkMemory then t else none

/-- Opens a block. -/
def openBlock (kind : BlockKind) (type : BlockType) (b : OpenBlock) (outer : List OpenBlock) :
    Option (List OpenBlock) := do
  let t ← c.blockType? type
  let b ← b.popAll t.params
  return ({ kind, type := t } : OpenBlock).pushAll t.params :: b :: outer

/-- How an instruction changes the open blocks, innermost first. None is open behind the end of a
body. -/
def checkOp (blocks : List OpenBlock) (op : Op) : Option (List OpenBlock) := do
  match blocks with
  | [] => none
  | b :: outer =>
    match op with
    | .unreachable => return b.jump :: outer
    | .block t => c.openBlock .block t b outer
    | .loop t => c.openBlock .loop t b outer
    | .ifThen t => c.openBlock .ifThen t (← b.pop .i32) outer
    | .orElse =>
      if b.kind = .ifThen then
        let t ← b.close
        return ({ kind := .orElse, type := t } : OpenBlock).pushAll t.params :: outer
      else none
    | .done =>
      let t ← b.close
      if b.kind = .ifThen ∧ t.params ≠ t.results then none
      else
        match outer with
        | o :: outer => return o.pushAll t.results :: outer
        | [] => return []
    | .br l =>
      let target ← blocks[l]?
      let b ← b.popAll target.labelTypes
      return b.jump :: outer
    | .brIf l =>
      let target ← blocks[l]?
      let b ← b.pop .i32
      return (← b.apply target.labelTypes target.labelTypes) :: outer
    | .brTable ls l =>
      let b ← b.pop .i32
      let types := (← blocks[l]?).labelTypes
      let fits ← ls.mapM fun l => do
        let ts := (← blocks[l]?).labelTypes
        return ts.length == types.length && (b.popAll ts).isSome
      if fits.all id then
        let b ← b.popAll types
        return b.jump :: outer
      else none
    | .ret =>
      let body ← blocks.getLast?
      let b ← b.popAll body.type.results
      return b.jump :: outer
    | .drop => return (← b.popAny).2 :: outer
    | .select =>
      let b ← b.pop .i32
      let (t, b) ← b.popAny
      let (u, b) ← b.popAny
      if t.any (·.isRef) ∨ u.any (·.isRef) ∨ (t.isSome ∧ u.isSome ∧ t ≠ u) then none
      else return { b with stack := (t <|> u) :: b.stack } :: outer
    | .selectTyped [t] =>
      if c.features.referenceTypes then return (← b.apply [t, t, .i32] [t]) :: outer else none
    | .selectTyped _ => none
    | .refIsNull =>
      let (t, b) ← b.popAny
      if c.features.referenceTypes ∧ t.all (·.isRef) then return b.push .i32 :: outer else none
    | op =>
      let (params, results) ← c.plainType? op
      return (← b.apply params results) :: outer

/-- Whether a body gives the results of its function: its blocks close, the last one with its last
instruction. -/
def checkBody (type : FuncType) (body : List Op) : Bool :=
  match body.foldlM c.checkOp [{ kind := .block, type := ⟨[], type.results⟩ }] with
  | some [] => true
  | _ => false

end Context

end WasmHost.Wasm

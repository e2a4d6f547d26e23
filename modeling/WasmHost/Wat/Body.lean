import WasmHost.Wat.Scope

/-!
# Instructions from text

Instructions are written flat or folded: in a folded one the operands stand inside its parentheses
and come first. Both forms become one flat sequence. Labels are counted outwards from where they are
used; a signature that is only written out is looked up among the module's signatures and added to
them if it is new.
-/

namespace WasmHost.Wat

open WasmHost.Wasm

/-- What is known while the instructions of one body are read. -/
structure BodyState where
  types : List FuncType
  /-- The identifiers of the blocks around, innermost first. -/
  labels : Ids := []
  /-- The blocks so far, and the identifiers among them. -/
  blocks : Nat := 0
  labelNames : NameMap := []

/-- A step of reading that may fail. -/
abbrev Build := StateT BodyState Option

/-- A step that always fails. -/
def refused {α : Type} : Build α := StateT.lift none

/-- What is known of the module around. -/
structure BodyContext where
  scope : Scope
  locals : Ids := []

/-- The index of a signature among the module's signatures, added if it is new. -/
def internType (t : FuncType) : Build Nat := do
  let s ← get
  match s.types.findIdx? (· == t) with
  | some i => return i
  | none =>
    set { s with types := s.types ++ [t] }
    return s.types.length

namespace TypeUse

/-- The index of a signature that is used. One that is both referred to and written out must agree
with what is known of the reference. -/
def resolve (scope : Scope) (use : TypeUse) : Build Nat := do
  match use.ref with
  | none => internType (use.inline.getD {}).plain
  | some ref =>
    let n ← scope.types.resolve? ref
    let known := (← get).types[n]?
    match use.inline, known with
    | some t, some k => if t.plain = k then return n else refused
    | _, _ => return n

end TypeUse

/-- The type of a block; no or one result needs no signature. -/
def blockTypeOf (scope : Scope) (use : TypeUse) : Build BlockType := do
  match use.ref, use.inline with
  | none, none | none, some ⟨[], []⟩ => return .empty
  | none, some ⟨[], [t]⟩ => return .value t
  | _, _ => return .index (← use.resolve scope)

/-- The index that an optional reference stands for; without one it is the first item. -/
def resolveOr0 (ids : Ids) : Option Ref → Build Nat
  | some r => ids.resolve? r
  | none => return 0

/-- A number written behind a keyword and an equals sign. -/
def labelled? (key : String) (bound : Nat) : List Sexpr → Option (Option Nat × List Sexpr)
  | .word w :: rest =>
    if w.startsWith (key ++ "=") then do
      let n ← Numeral.ofWord? (w.drop (key.length + 1)).toString
      return (some (← n.toNat? bound), rest)
    else some (none, .word w :: rest)
  | items => some (none, items)

/-- Where a memory instruction points; `bytes` is its natural alignment. -/
def memArg (c : BodyContext) (bytes : Nat) (op : MemArg → Op) (items : List Sexpr) :
    Option (Build Op × List Sexpr) := do
  let (ref, items) := takeRef items
  let (offset, items) ← labelled? "offset" (twoTo 64) items
  let (align, items) ← labelled? "align" (twoTo 32) items
  let align := align.getD bytes
  if align = twoTo align.log2 then
    return (do return op ⟨align.log2, offset.getD 0, ← resolveOr0 c.scope.memories ref⟩, items)
  else none

/-- The label that a reference stands for. -/
def label (ref : Ref) : Build Nat := do
  match ref with
  | .index n => return n
  | .id name => (← get).labels.find? name

/-- Takes a numeral from the front. -/
def takeNumeral : List Sexpr → Option (Numeral × List Sexpr)
  | .word w :: rest => (Numeral.ofWord? w).map (·, rest)
  | _ => none

/-- Takes all references from the front. -/
def takeRefs : List Sexpr → List Ref × List Sexpr
  | [] => ([], [])
  | s :: rest =>
    match s.ref? with
    | some r =>
      let (rs, rest) := takeRefs rest
      (r :: rs, rest)
    | none => ([], s :: rest)

/-- Takes the result types of a `select` from the front. -/
def takeResults (soFar : Option (List ValType)) :
    List Sexpr → Option (Option (List ValType) × List Sexpr)
  | [] => some (soFar, [])
  | s :: rest =>
    match s.form? "result" with
    | some items =>
      match items.mapM Sexpr.valType? with
      | some ts => takeResults (some (soFar.getD [] ++ ts)) rest
      | none => none
    | none => some (soFar, s :: rest)

/-- Takes one reference, which must be there. -/
def takeGivenRef : List Sexpr → Option (Ref × List Sexpr)
  | s :: rest => s.ref?.map (·, rest)
  | [] => none

/-- An instruction whose one operand is a reference. -/
def indexed (ids : Ids) (op : Nat → Op) (items : List Sexpr) : Option (Build Op × List Sexpr) := do
  let (r, items) ← takeGivenRef items
  return (do return op (← ids.resolve? r), items)

/-- An instruction whose one operand is a reference that may be left out. -/
def indexedOr0 (ids : Ids) (op : Nat → Op) (items : List Sexpr) :
    Option (Build Op × List Sexpr) :=
  let (r, items) := takeRef items
  some (do return op (← resolveOr0 ids r), items)

/-- An instruction with two references to items of one kind, both or none of which are given. -/
def pairOr0 (ids : Ids) (op : Nat → Nat → Op) (items : List Sexpr) :
    Option (Build Op × List Sexpr) := do
  match takeRef items with
  | (some a, items) =>
    let (b, items) ← takeGivenRef items
    return (do return op (← ids.resolve? a) (← ids.resolve? b), items)
  | (none, items) => return (pure (op 0 0), items)

/-- An instruction that fills an item from a segment. The item may be left out and comes first. -/
def fromSegment (segments ids : Ids) (op : Nat → Nat → Op) (items : List Sexpr) :
    Option (Build Op × List Sexpr) := do
  let (a, items) ← takeGivenRef items
  match takeRef items with
  | (some b, items) => return (do return op (← segments.resolve? b) (← ids.resolve? a), items)
  | (none, items) => return (do return op (← segments.resolve? a) 0, items)

/-- An instruction with a label. -/
def branch (op : Nat → Op) (items : List Sexpr) : Option (Build Op × List Sexpr) := do
  let (r, items) ← takeGivenRef items
  return (do return op (← label r), items)

/-- A constant, whose numeral gives its bits. -/
def constant {α : Type} (bits? : Numeral → Option α) (op : α → Op) (items : List Sexpr) :
    Option (Build Op × List Sexpr) := do
  let (n, items) ← takeNumeral items
  let bits ← bits? n
  return (pure (op bits), items)

/-- An instruction that begins no block: its operands are taken from the front of `items`, and what
they refer to is looked up later. -/
def plainOp (c : BodyContext) (keyword : String) (items : List Sexpr) :
    Option (Build Op × List Sexpr) := do
  match keyword with
  | "unreachable" => return (pure .unreachable, items)
  | "nop" => return (pure .nop, items)
  | "return" => return (pure .ret, items)
  | "drop" => return (pure .drop, items)
  | "br" => branch .br items
  | "br_if" => branch .brIf items
  | "br_table" =>
    let (rs, items) := takeRefs items
    match rs.reverse with
    | last :: before =>
      return (do return .brTable (← before.reverse.mapM label) (← label last), items)
    | [] => none
  | "call" => indexed c.scope.funcs .call items
  | "call_indirect" =>
    let (before, items) := takeRef items
    let (use, items) ← takeTypeUse false items
    let (table, items) := match before with
      | some r => (some r, items)
      | none => takeRef items
    return (do return .callIndirect (← use.resolve c.scope) (← resolveOr0 c.scope.tables table),
      items)
  | "select" =>
    match ← takeResults none items with
    | (none, items) => return (pure .select, items)
    | (some ts, items) => return (pure (.selectTyped ts), items)
  | "local.get" => indexed c.locals .localGet items
  | "local.set" => indexed c.locals .localSet items
  | "local.tee" => indexed c.locals .localTee items
  | "global.get" => indexed c.scope.globals .globalGet items
  | "global.set" => indexed c.scope.globals .globalSet items
  | "table.get" => indexedOr0 c.scope.tables .tableGet items
  | "table.set" => indexedOr0 c.scope.tables .tableSet items
  | "table.size" => indexedOr0 c.scope.tables .tableSize items
  | "table.grow" => indexedOr0 c.scope.tables .tableGrow items
  | "table.fill" => indexedOr0 c.scope.tables .tableFill items
  | "table.copy" => pairOr0 c.scope.tables .tableCopy items
  | "table.init" => fromSegment c.scope.elems c.scope.tables .tableInit items
  | "elem.drop" => indexed c.scope.elems .elemDrop items
  | "ref.null" =>
    match items with
    | .word "func" :: items => return (pure (.refNull .funcref), items)
    | .word "extern" :: items => return (pure (.refNull .externref), items)
    | _ => none
  | "ref.is_null" => return (pure .refIsNull, items)
  | "ref.func" => indexed c.scope.funcs .refFunc items
  | "memory.size" => indexedOr0 c.scope.memories .memorySize items
  | "memory.grow" => indexedOr0 c.scope.memories .memoryGrow items
  | "memory.fill" => indexedOr0 c.scope.memories .memoryFill items
  | "memory.copy" => pairOr0 c.scope.memories .memoryCopy items
  | "memory.init" => fromSegment c.scope.datas c.scope.memories .memoryInit items
  | "data.drop" => indexed c.scope.datas .dataDrop items
  | "i32.atomic.load" => memArg c 4 .atomicLoad items
  | "i32.const" => constant (fun n => (n.toInt? 32).map UInt32.ofInt) .i32Const items
  | "i64.const" => constant (fun n => (n.toInt? 64).map UInt64.ofInt) .i64Const items
  | "f32.const" => constant (fun n => (n.toFloat? .single).map UInt32.ofNat) .f32Const items
  | "f64.const" => constant (fun n => (n.toFloat? .double).map UInt64.ofNat) .f64Const items
  | keyword =>
    match LoadOp.all.find? (·.name == keyword), StoreOp.all.find? (·.name == keyword) with
    | some op, _ => memArg c op.bytes (.load op) items
    | none, some op => memArg c op.bytes (.store op) items
    | none, none => (NumOp.ofName? keyword).map fun op => (pure (.numeric op), items)

/-- The instructions that begin a block. -/
def blockOp? : String → Option (BlockType → Op)
  | "block" => some .block
  | "loop" => some .loop
  | "if" => some .ifThen
  | _ => none

/-- What a block begins with: its identifier, its type, and what follows. -/
def blockHead (items : List Sexpr) : Option (Option String × TypeUse × List Sexpr) := do
  let (id, items) := takeId items
  let (use, items) ← takeTypeUse false items
  return (id, use, items)

/-- Begins a block. -/
def beginBlock (c : BodyContext) (op : BlockType → Op) (id : Option String) (use : TypeUse) :
    Build Op := do
  let type ← blockTypeOf c.scope use
  modify fun s =>
    { s with labels := id :: s.labels, blocks := s.blocks + 1
             labelNames := match id with
               | some name => s.labelNames ++ [(s.blocks, name)]
               | none => s.labelNames }
  return op type

/-- Ends the innermost block, if there is one. -/
def endBlock : Build Unit := modify fun s => { s with labels := s.labels.tail }

/-- Takes the identifier behind an `else` or `end`; it must be that of the block, if there is a
block. -/
def takeLabel (items : List Sexpr) : Build (List Sexpr) := do
  match takeId items, (← get).labels with
  | (some name, items), id :: _ => if id = some name then return items else refused
  | (_, items), _ => return items

mutual

/-- The flat sequence of some instructions, in at most `fuel` nested steps. -/
def instrs (c : BodyContext) : Nat → List Sexpr → Build (List Op)
  | 0, _ => refused
  | _, [] => return []
  | fuel + 1, .list items :: rest => do
    let ops ← folded c fuel items
    return ops ++ (← instrs c fuel rest)
  | fuel + 1, .word keyword :: rest => do
    let (op, rest) ← match keyword, blockOp? keyword with
      | _, some op => do
        let (id, use, rest) ← blockHead rest
        pure (← beginBlock c op id use, rest)
      | "else", none => do pure (Op.orElse, ← takeLabel rest)
      | "end", none => do
        let rest ← takeLabel rest
        endBlock
        pure (Op.done, rest)
      | _, none => do
        let (op, rest) ← plainOp c keyword rest
        pure (← op, rest)
    return op :: (← instrs c fuel rest)
  | _, _ => refused

/-- The flat sequence of one folded instruction: operands stand before the instruction they belong
to, and a block gets its end. -/
def folded (c : BodyContext) : Nat → List Sexpr → Build (List Op)
  | fuel + 1, .word keyword :: items =>
    match keyword, blockOp? keyword with
    | "if", some op => do
      let (id, use, items) ← blockHead items
      foldedIf c fuel (beginBlock c op id use) items
    | _, some op => do
      let (id, use, items) ← blockHead items
      let op ← beginBlock c op id use
      let ops ← instrs c fuel items
      endBlock
      return op :: ops ++ [.done]
    | _, none => do
      let (op, items) ← plainOp c keyword items
      let ops ← instrs c fuel items
      return ops ++ [← op]
  | _, _ => refused

/-- The flat sequence of a folded `if` behind its type: folded conditions, a `then`, and perhaps an
`else`. The block begins behind the conditions. -/
def foldedIf (c : BodyContext) : Nat → Build Op → List Sexpr → Build (List Op)
  | fuel + 1, begin, .list items :: rest =>
    match (Sexpr.list items).form? "then" with
    | none => do
      let condition ← folded c fuel items
      return condition ++ (← foldedIf c fuel begin rest)
    | some items => do
      let op ← begin
      let yes ← instrs c fuel items
      let no ← match rest with
        | [] => pure []
        | [s] =>
          match s.form? "else" with
          | some items => do pure (Op.orElse :: (← instrs c fuel items))
          | none => refused
        | _ => refused
      endBlock
      return op :: yes ++ no ++ [.done]
  | _, _, _ => refused

end

/-- The number of words, strings and lists in some trees. -/
def nodes : List Sexpr → Nat
  | [] => 0
  | .list items :: rest => 1 + nodes items + nodes rest
  | _ :: rest => 1 + nodes rest

/-- The flat sequence of some instructions. -/
def sequence (c : BodyContext) (items : List Sexpr) : Build (List Op) :=
  instrs c (2 * nodes items + 2) items

/-- An expression: its instructions and an end. -/
def expression (c : BodyContext) (items : List Sexpr) : Build (List Op) := do
  return (← sequence c items) ++ [.done]

end WasmHost.Wat

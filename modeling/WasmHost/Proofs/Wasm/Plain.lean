import WasmHost.Proofs.Wasm.Statics

/-!
# The typing of instructions that look at nothing but their operands

An instruction that opens, leaves or closes no block has operands and results of fixed kinds, if the
module has what it names. `Context.Types` tells which, with a rule for each instruction; the
validator accepts exactly these.
-/

namespace WasmHost.Wasm.Context

/-- The kinds of the operands and results of an instruction, and what the module has for it. -/
inductive Types (c : Context) : Op → List ValType → List ValType → Prop
  | nop : c.Types .nop [] []
  | call {k : Nat} {t : FuncType} (func : c.funcs[k]? = some t) :
      c.Types (.call k) t.params t.results
  | callIndirect {k n : Nat} {t : TableType} {f : FuncType} (table : c.tables[k]? = some t)
      (type : c.types[n]? = some f) (element : t.element = .funcref) :
      c.Types (.callIndirect n k) (f.params ++ [.i32]) f.results
  | localGet {k : Nat} {t : ValType} (local_ : c.locals[k]? = some t) :
      c.Types (.localGet k) [] [t]
  | localSet {k : Nat} {t : ValType} (local_ : c.locals[k]? = some t) :
      c.Types (.localSet k) [t] []
  | localTee {k : Nat} {t : ValType} (local_ : c.locals[k]? = some t) :
      c.Types (.localTee k) [t] [t]
  | globalGet {k : Nat} {g : GlobalType} (global : c.globals[k]? = some g) :
      c.Types (.globalGet k) [] [g.content]
  | globalSet {k : Nat} {g : GlobalType} (global : c.globals[k]? = some g)
      (isMutable : g.isMutable) : c.Types (.globalSet k) [g.content] []
  | tableGet {k : Nat} {t : TableType} (references : c.features.referenceTypes)
      (table : c.tables[k]? = some t) : c.Types (.tableGet k) [.i32] [t.element]
  | tableSet {k : Nat} {t : TableType} (references : c.features.referenceTypes)
      (table : c.tables[k]? = some t) : c.Types (.tableSet k) [.i32, t.element] []
  | tableSize {k : Nat} {t : TableType} (references : c.features.referenceTypes)
      (table : c.tables[k]? = some t) : c.Types (.tableSize k) [] [.i32]
  | tableGrow {k : Nat} {t : TableType} (references : c.features.referenceTypes)
      (table : c.tables[k]? = some t) : c.Types (.tableGrow k) [t.element, .i32] [.i32]
  | tableFill {k : Nat} {t : TableType} (bulk : c.features.bulkMemory)
      (references : c.features.referenceTypes) (table : c.tables[k]? = some t) :
      c.Types (.tableFill k) [.i32, t.element, .i32] []
  | tableCopy {k j : Nat} {t s : TableType} (bulk : c.features.bulkMemory)
      (target : c.tables[k]? = some t) (source : c.tables[j]? = some s)
      (element : t.element = s.element) : c.Types (.tableCopy k j) [.i32, .i32, .i32] []
  | tableInit {e k : Nat} {t : TableType} {s : ValType} (bulk : c.features.bulkMemory)
      (table : c.tables[k]? = some t) (segment : c.elems[e]? = some s) (element : t.element = s) :
      c.Types (.tableInit e k) [.i32, .i32, .i32] []
  | elemDrop {e : Nat} {s : ValType} (bulk : c.features.bulkMemory)
      (segment : c.elems[e]? = some s) : c.Types (.elemDrop e) [] []
  | refNull {t : ValType} (references : c.features.referenceTypes) : c.Types (.refNull t) [] [t]
  | refFunc {k : Nat} (references : c.features.referenceTypes)
      (referable : c.referable.contains k) : c.Types (.refFunc k) [] [.funcref]
  | load {op : LoadOp} {a : MemArg} (place : c.checkMemArg op.bytes a) :
      c.Types (.load op a) [.i32] [op.type]
  | store {op : StoreOp} {a : MemArg} (place : c.checkMemArg op.bytes a) :
      c.Types (.store op a) [.i32, op.type] []
  | atomicLoad {a : MemArg} (threads : c.features.threads) (place : c.checkMemArg 4 a)
      (align : a.align = 2) : c.Types (.atomicLoad a) [.i32] [.i32]
  | memorySize {k : Nat} {t : MemoryType} (memory : c.memories[k]? = some t) :
      c.Types (.memorySize k) [] [.i32]
  | memoryGrow {k : Nat} {t : MemoryType} (memory : c.memories[k]? = some t) :
      c.Types (.memoryGrow k) [.i32] [.i32]
  | memoryFill {k : Nat} {t : MemoryType} (bulk : c.features.bulkMemory)
      (memory : c.memories[k]? = some t) : c.Types (.memoryFill k) [.i32, .i32, .i32] []
  | memoryCopy {k j : Nat} {t s : MemoryType} (bulk : c.features.bulkMemory)
      (target : c.memories[k]? = some t) (source : c.memories[j]? = some s) :
      c.Types (.memoryCopy k j) [.i32, .i32, .i32] []
  | memoryInit {d k n : Nat} {t : MemoryType} (bulk : c.features.bulkMemory)
      (memory : c.memories[k]? = some t) (count : c.dataCount = some n) (there : d < n) :
      c.Types (.memoryInit d k) [.i32, .i32, .i32] []
  | dataDrop {d n : Nat} (bulk : c.features.bulkMemory) (count : c.dataCount = some n)
      (there : d < n) : c.Types (.dataDrop d) [] []
  | i32Const (bits : UInt32) : c.Types (.i32Const bits) [] [.i32]
  | i64Const (bits : UInt64) : c.Types (.i64Const bits) [] [.i64]
  | f32Const (bits : UInt32) : c.Types (.f32Const bits) [] [.f32]
  | f64Const (bits : UInt64) : c.Types (.f64Const bits) [] [.f64]
  | numeric (op : NumOp) : c.Types (.numeric op) op.type.1 [op.type.2]

variable {c : Context} {op : Op} {params results : List ValType}

theorem types_of_plainType (h : c.plainType? op = some (params, results)) :
    c.Types op params results := by
  cases op <;> simp only [plainType?, plainType?.bulk, plainType?.reference, reduceCtorEq,
    Option.bind_eq_bind, Option.bind_eq_some_iff, Option.map_eq_some_iff,
    Option.ite_none_right_eq_some, Option.some.injEq, Prod.mk.injEq] at h
  case nop | i32Const | i64Const | f32Const | f64Const | numeric =>
    obtain ⟨rfl, rfl⟩ := h
    constructor
  case call | localGet | localSet | localTee | globalGet | memorySize | memoryGrow =>
    obtain ⟨_, known, rfl, rfl⟩ := h
    constructor
    exact known
  case globalSet =>
    obtain ⟨_, known, isMutable, rfl, rfl⟩ := h
    exact .globalSet known isMutable
  case callIndirect =>
    obtain ⟨_, table, _, type, element, rfl, rfl⟩ := h
    exact .callIndirect table type element
  case tableGet | tableSet | tableSize | tableGrow | elemDrop | memoryFill =>
    obtain ⟨feature, _, known, rfl, rfl⟩ := h
    constructor <;> assumption
  case tableFill =>
    obtain ⟨bulk, references, _, known, rfl, rfl⟩ := h
    exact .tableFill bulk references known
  case tableCopy | tableInit =>
    obtain ⟨bulk, _, known, _, known', element, rfl, rfl⟩ := h
    constructor <;> assumption
  case memoryCopy =>
    obtain ⟨bulk, _, target, _, source, rfl, rfl⟩ := h
    exact .memoryCopy bulk target source
  case memoryInit =>
    obtain ⟨bulk, _, memory, _, count, there, rfl, rfl⟩ := h
    exact .memoryInit bulk memory count there
  case dataDrop =>
    obtain ⟨bulk, _, count, there, rfl, rfl⟩ := h
    exact .dataDrop bulk count there
  case refNull | load | store =>
    obtain ⟨checked, rfl, rfl⟩ := h
    constructor
    exact checked
  case refFunc =>
    obtain ⟨references, referable, rfl, rfl⟩ := h
    exact .refFunc references referable
  case atomicLoad =>
    obtain ⟨⟨threads, place, align⟩, rfl, rfl⟩ := h
    exact .atomicLoad threads place align

theorem plainType_of_types (h : c.Types op params results) :
    c.plainType? op = some (params, results) := by
  cases h with
  | refFunc references referable =>
      simp only [plainType?, plainType?.reference, references, referable, if_true]
  | _ => simp [plainType?, plainType?.bulk, plainType?.reference, *]

/-- The validator gives a plain instruction the kinds that its rule does. -/
theorem plainType?_eq_some_iff :
    c.plainType? op = some (params, results) ↔ c.Types op params results :=
  ⟨types_of_plainType, plainType_of_types⟩

theorem Types.isPlain (h : c.Types op params results) : op.IsPlain := by cases h <;> trivial

theorem Types.unique {params' results' : List ValType} (h : c.Types op params results)
    (h' : c.Types op params' results') : params = params' ∧ results = results' :=
  Prod.mk.inj (Option.some.inj ((plainType_of_types h).symm.trans (plainType_of_types h')))

/-- A plain instruction that is accepted has a rule, and works on the innermost block. -/
theorem types_of_checkOp {b : OpenBlock} {outer blocks' : List OpenBlock}
    (h : c.checkOp (b :: outer) op = some blocks') (hplain : op.IsPlain) :
    ∃ params results b', c.Types op params results ∧ b.apply params results = some b' ∧
      blocks' = b' :: outer := by
  obtain ⟨params, results, b', htype, happly, hblocks⟩ := apply_of_plain h hplain
  exact ⟨params, results, b', types_of_plainType htype, happly, hblocks⟩

end WasmHost.Wasm.Context

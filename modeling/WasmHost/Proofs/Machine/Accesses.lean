import WasmHost.Proofs.Machine.Routes

/-!
# Code and embedders work on the same objects

An instruction that reads through an index gives what an embedder reads of the object that the index
leads to, and what an instruction writes an embedder reads afterwards. The same holds of host
functions, which work on what their caller exports.
-/

namespace WasmHost

open World CodeFrame

/-! ## What is read and written -/

/-- What a load gives for the bytes that it reads. -/
def Wasm.LoadOp.loaded (op : LoadOp) (bytes : List UInt8) : StoreVal :=
  .ofBits op.type (wrapped (8 * numberBytes op.type)
    (op.sign.value (8 * op.bytes) (Memory.number bytes)))

/-- Code uses a global as an embedder does: it reads the value that the embedder reads, and the
embedder reads what it sets. -/
structure CodeFrame.UsesGlobal (w : World) (f : CodeFrame) (k a : Nat) : Prop where
  get : ∃ v, exec (.globalGet k) f w = proceed (f.push v) (w.exposeVal v) ∧
    (w.getGlobal a).1 = w.view v
  set : ∃ w', exec (.globalSet k) f w = proceed f.pop.2 w' ∧ (w'.getGlobal a).1 = w.view f.pop.1

/-- Code uses a table as an embedder does. -/
structure CodeFrame.UsesTable (w : World) (f : CodeFrame) (k a : Nat) : Prop where
  size : exec (.tableSize k) f w = proceed (f.push (word (w.tableSize a))) w
  get : ∀ index g, f.popBits = (index, g) →
    (w.getTable a index).1 = none ∧ exec (.tableGet k) f w = .trap .tableOutOfBounds f w ∨
    ∃ v, (w.getTable a index).1 = some (w.view v) ∧
      exec (.tableGet k) f w = proceed (g.push v) (w.exposeVal v)
  set : ∀ v g index g', f.pop = (v, g) → g.popBits = (index, g') →
    (w.getTable a index).1 = none ∧ exec (.tableSet k) f w = .trap .tableOutOfBounds f w ∨
    ∃ w', exec (.tableSet k) f w = proceed g' w' ∧ (w'.getTable a index).1 = some (w.view v)
  grow : ∀ delta g v g', f.popBits = (delta, g) → g.pop = (v, g') →
    (∃ w', exec (.tableGrow k) f w = proceed (g'.push growthFailed) w' ∧
      w'.tableSize a = w.tableSize a) ∨
    ∃ w', exec (.tableGrow k) f w = proceed (g'.push (word (w.tableSize a))) w' ∧
      w'.tableSize a = w.tableSize a + delta ∧ ∀ index, w.tableSize a ≤ index →
        index < w.tableSize a + delta → (w'.getTable a index).1 = some (w.view v)

/-- Code uses a memory as an embedder does. -/
structure CodeFrame.UsesMemory (w : World) (f : CodeFrame) (k a : Nat) : Prop where
  size : exec (.memorySize k) f w = proceed (f.push (word (w.memory a).pages)) w
  load : ∀ (op : Wasm.LoadOp) (arg : Wasm.MemArg) base g, arg.memory = k → f.popBits = (base, g) →
    exec (.load op arg) f w = match w.readMemory a (base + arg.offset) op.bytes with
      | some bytes => proceed (g.push (op.loaded bytes)) w
      | none => .trap .memoryOutOfBounds f w
  store : ∀ (op : Wasm.StoreOp) (arg : Wasm.MemArg) v g base g', arg.memory = k →
    f.pop = (v, g) → g.popBits = (base, g') →
    w.readMemory a (base + arg.offset) op.bytes = none ∧
      exec (.store op arg) f w = .trap .memoryOutOfBounds f w ∨
    ∃ w', exec (.store op arg) f w = proceed g' w' ∧
      w'.readMemory a (base + arg.offset) op.bytes = some (Memory.numberBytes op.bytes v.toBits)
  grow : ∀ delta g, f.popBits = (delta, g) →
    exec (.memoryGrow k) f w = proceed (g.push growthFailed) w ∨
    ∃ w', exec (.memoryGrow k) f w = proceed (g.push (word (w.memory a).pages)) w' ∧
      (w'.memory a).pages = (w.memory a).pages + delta

/-- What code does through an index with an object is what an embedder does with it. -/
def CodeFrame.Uses (w : World) (f : CodeFrame) (k : Nat) : Object → Prop
  | .global a => f.UsesGlobal w k a
  | .table a => f.UsesTable w k a
  | .memory a => f.UsesMemory w k a

/-- What a host function does with an export of its caller is what an embedder does with the object.
-/
def HostFrame.Uses (m : Machine) (h : HostFrame) (rest : List Activation) (name : String) :
    Object → Prop
  | .global a => ∀ v, m.hostOp (.setGlobal name v) h rest = match m.world.setGlobal a v with
      | .ok w => m.onHost h rest w
      | .error e => m.failHost (.ofText e.message) h
  | .table _ => True
  | .memory a =>
    m.hostOp (.size name) h rest =
      m.onHost h rest (m.world.log (.size (m.world.memory a).pages (m.world.memory a).size)) ∧
    (∀ delta, m.hostOp (.grow name delta) h rest = match m.world.growMemory a delta with
      | .ok (old, w) => m.onHost h rest (w.log (.grew old (w.memory a).size))
      | .error e => m.failHost (.ofText e.message) h)

/-! ## Code -/

variable {w : World} {f : CodeFrame} {k a : Nat}

/-- The number that an instruction works on is that of the object that its index leads to. -/
theorem CodeFrame.address_of_route {kind : ItemKind} {o : Object}
    (h : (Route.index f.owner kind k).object? w = some o) :
    Object.of? kind (f.address w (·.addrs kind) k) = some o := by
  obtain ⟨i, hi, h⟩ := Option.bind_eq_some_iff.mp h
  obtain ⟨a, ha, ho⟩ := Option.bind_eq_some_iff.mp h
  simp only [address, ownerOf, hi, Option.map_some, Option.getD_some,
    Array.getD_eq_getD_getElem?, ha]
  exact ho

theorem CodeFrame.usesGlobal (there : f.address w (·.globals) k < w.store.globals.size) :
    f.UsesGlobal w k (f.address w (·.globals) k) where
  get := ⟨_, rfl, rfl⟩
  set := by
    refine ⟨_, rfl, ?_⟩
    rw [getGlobal_fst, globalValue_putGlobal there, view_putGlobal]
    rfl

theorem CodeFrame.usesTable : f.UsesTable w k (f.address w (·.tables) k) where
  size := rfl
  get index g hpop := by
    simp only [exec, execTable, hpop, getTable_fst]
    cases (w.table (f.address w (·.tables) k)).elems[index]? with
    | none => exact .inl ⟨rfl, rfl⟩
    | some v => exact .inr ⟨v, rfl, rfl⟩
  set v g index g' hpop hpop' := by
    simp only [exec, execTable, hpop, hpop', getTable_fst]
    split
    · rename_i hlt
      refine .inr ⟨_, rfl, ?_⟩
      rw [elem_putElem hlt, view_putElem, Option.map_some]
    · rename_i hle
      refine .inl ⟨?_, rfl⟩
      rw [Array.getElem?_eq_none (Nat.not_lt.mp hle)]
      rfl
  grow delta g v g' hpop hpop' := by
    simp only [exec, execTable, hpop, hpop']
    cases hgrown : w.growElems (f.address w (·.tables) k) delta v with
    | mk old w' =>
        cases old with
        | none => exact .inl ⟨w', rfl, by rw [tableSize, table_growElems hgrown, tableSize]⟩
        | some old =>
            obtain ⟨rfl, hsize⟩ := tableSize_growElems hgrown
            refine .inr ⟨w', rfl, hsize, fun index hlow hhigh => ?_⟩
            have hview := view_growElems (f.address w (·.tables) k) delta v w
            rw [hgrown] at hview
            rw [getTable_fst, elem_growElems hgrown hlow hhigh, Option.map_some, ← hview]

theorem CodeFrame.usesMemory (there : f.address w (·.memories) k < w.store.memories.size) :
    f.UsesMemory w k (f.address w (·.memories) k) where
  size := rfl
  load op arg base g hk hpop := by
    subst hk
    simp only [exec, execLoad, hpop]
    rfl
  store op arg v g base g' hk hpop hpop' := by
    subst hk
    simp only [exec, execStore, hpop, hpop']
    split
    · rename_i hfits
      refine .inr ⟨_, rfl, ?_⟩
      have hlength := Memory.length_numberBytes op.bytes v.toBits
      rw [← hlength] at hfits
      have hread := Memory.read?_put hfits
      rw [readMemory, memory_mapMemory _ there]
      rwa [hlength] at hread
    · rename_i hfits
      refine .inl ⟨?_, rfl⟩
      rw [readMemory, Memory.read?, if_neg hfits]
  grow delta g hpop := by
    simp only [exec, execMemory, hpop]
    split
    · rename_i old w' hgrown
      obtain ⟨rfl, hpages⟩ := pages_growPages there hgrown
      exact .inr ⟨w', rfl, hpages⟩
    · exact .inl rfl

/-- Through an index code uses the object that the index leads to. -/
theorem CodeFrame.uses {kind : ItemKind} {o : Object} {s : Object.State}
    (h : (Route.index f.owner kind k).object? w = some o) (hs : w.state? o = some s) :
    f.Uses w k o := by
  have haddress := address_of_route h
  cases kind <;> cases haddress
  · obtain ⟨g, hg, -⟩ := Option.map_eq_some_iff.mp hs
    exact usesGlobal (Array.getElem?_eq_some_iff.mp hg).1
  · exact usesTable
  · obtain ⟨m, hm, -⟩ := Option.map_eq_some_iff.mp hs
    exact usesMemory (Array.getElem?_eq_some_iff.mp hm).1

/-! ## Host functions -/

theorem HostFrame.uses {m : Machine} {h : HostFrame} {name : String} {o : Object}
    (ho : (Route.caller h name).object? m.world = some o) (rest : List Activation) :
    h.Uses m rest name o := by
  obtain ⟨item, hitem, ho⟩ := Option.bind_eq_some_iff.mp ho
  cases item <;> cases ho
  · intro v
    simp only [Machine.hostOp, hitem]
    rfl
  · trivial
  · refine ⟨?_, fun delta => ?_⟩
    · simp only [Machine.hostOp, hitem]
      rfl
    · simp only [Machine.hostOp, hitem]
      rfl

end WasmHost

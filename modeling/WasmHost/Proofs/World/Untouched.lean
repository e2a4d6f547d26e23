import WasmHost.Linker
import WasmHost.Proofs.World.Accounts
import WasmHost.Proofs.World.Boxes

/-!
# What a failed instance leaves alone

Before the segments of a new instance are applied, its store has only grown: all objects that were
there are the same to the last byte, and so are the fuel, the foreign references, the signals and
the log. `World.Untouched` says so of two worlds.
-/

namespace WasmHost

namespace World

/-- The second world has more objects, and nothing else that anyone could tell from the first one.
-/
structure Untouched (w w' : World) : Prop where
  funcs : Extended Eq w.store.funcs w'.store.funcs
  globals : Extended Eq w.store.globals w'.store.globals
  tables : Extended Eq w.store.tables w'.store.tables
  memories : Extended Eq w.store.memories w'.store.memories
  instances : Extended Eq w.store.instances w'.store.instances
  fuel : w'.store.fuel = w.store.fuel
  deadline : w'.store.deadline = w.store.deadline
  refs : w'.shared.refs = w.shared.refs
  signals : w'.shared.signals = w.shared.signals
  epochs : w'.shared.epochs = w.shared.epochs
  files : w'.shared.files = w.shared.files
  log : w'.shared.log = w.shared.log

namespace Untouched

variable {w w' w'' : World}

theorem refl (w : World) : w.Untouched w where
  funcs := .refl Eq.refl _
  globals := .refl Eq.refl _
  tables := .refl Eq.refl _
  memories := .refl Eq.refl _
  instances := .refl Eq.refl _
  fuel := rfl
  deadline := rfl
  refs := rfl
  signals := rfl
  epochs := rfl
  files := rfl
  log := rfl

theorem trans (h : w.Untouched w') (h' : w'.Untouched w'') : w.Untouched w'' where
  funcs := h.funcs.trans Eq.trans h'.funcs
  globals := h.globals.trans Eq.trans h'.globals
  tables := h.tables.trans Eq.trans h'.tables
  memories := h.memories.trans Eq.trans h'.memories
  instances := h.instances.trans Eq.trans h'.instances
  fuel := h'.fuel.trans h.fuel
  deadline := h'.deadline.trans h.deadline
  refs := h'.refs.trans h.refs
  signals := h'.signals.trans h.signals
  epochs := h'.epochs.trans h.epochs
  files := h'.files.trans h.files
  log := h'.log.trans h.log

end Untouched

variable (w : World)

/-! ## New objects -/

/-- Holding a box once more releases nothing. -/
theorem shared_holdVal (v : StoreVal) : (w.holdVal v).shared = w.shared := by
  unfold holdVal
  cases boxOf v with
  | none => rfl
  | some b =>
      simp only [Option.elim_some, hold, updateBox]
      split
      · rfl
      · have hlive (x : Box) : ({ x with holds := x.holds + 1 } : Box).isLive := by
          simp [Box.isLive]
        simp only [hlive, Bool.not_true, Bool.and_false, Bool.false_eq_true, if_false]
        rfl

theorem holdVal_eq (v : StoreVal) :
    ∃ boxes, w.holdVal v = { w with store := { w.store with boxes } } := by
  obtain ⟨boxes, hstore⟩ := store_holdVal v w
  have hshared := w.shared_holdVal v
  generalize w.holdVal v = held at hstore hshared ⊢
  obtain ⟨store, shared⟩ := held
  cases hstore
  cases hshared
  exact ⟨boxes, rfl⟩

/-- Globals, tables and memories were added to a store. -/
structure Furnished (w w' : World) : Prop extends w.Untouched w' where
  funcs_eq : w'.store.funcs = w.store.funcs
  instances_eq : w'.store.instances = w.store.instances
  engine_eq : w'.store.engine = w.store.engine
  signal_eq : w'.store.signal = w.store.signal
  wasi_eq : w'.store.wasi = w.store.wasi
  keeps : w.Keeps w'

namespace Furnished

variable {w w' w'' : World}

theorem refl (w : World) : w.Furnished w := ⟨.refl w, rfl, rfl, rfl, rfl, rfl, .refl w⟩

theorem trans (h : w.Furnished w') (h' : w'.Furnished w'') : w.Furnished w'' where
  toUntouched := h.toUntouched.trans h'.toUntouched
  funcs_eq := h'.funcs_eq.trans h.funcs_eq
  instances_eq := h'.instances_eq.trans h.instances_eq
  engine_eq := h'.engine_eq.trans h.engine_eq
  signal_eq := h'.signal_eq.trans h.signal_eq
  wasi_eq := h'.wasi_eq.trans h.wasi_eq
  keeps := h.keeps.trans h'.keeps

theorem extends_ (h : w.Furnished w') : w.Extends w' where
  engine := h.engine_eq
  signal := h.signal_eq
  funcs := h.funcs
  globals := h.globals.mono fun h => h ▸ .refl _
  tables := h.tables.mono fun h => h ▸ .refl _
  memories := h.memories.mono fun h => h ▸ .refl _
  instances := h.instances.mono fun h => h ▸ .refl _

end Furnished

theorem furnished_holdVal (v : StoreVal) : w.Furnished (w.holdVal v) := by
  obtain ⟨boxes, h⟩ := w.holdVal_eq v
  rw [h]
  exact ⟨{ Untouched.refl w with }, rfl, rfl, rfl, rfl, rfl, h ▸ keeps_holdVal v w⟩

theorem furnished_holdAll (vs : List StoreVal) : w.Furnished (w.holdAll vs) := by
  induction vs generalizing w with
  | nil => exact .refl w
  | cons v vs ih => exact (w.furnished_holdVal v).trans (ih _)

theorem furnished_pushGlobals (funcs : Array FuncAddr) (globals : Array Nat)
    (gs : List Wasm.Global) : w.Furnished (w.pushGlobals funcs globals gs).2 := by
  induction gs generalizing globals w with
  | nil => exact .refl w
  | cons g gs ih =>
      refine ((w.furnished_holdVal (w.constant funcs globals g.init)).trans ?_).trans (ih _ _)
      exact ⟨{ Untouched.refl _ with globals := .push Eq.refl _ _ }, rfl, rfl, rfl, rfl, rfl, .of_boxes rfl⟩

theorem furnished_pushTable (type : TableType) (limit : Nat) (v : StoreVal) :
    w.Furnished (w.pushTable type limit v).2 :=
  (w.furnished_holdAll (Array.replicate type.limits.min v).toList).trans
    ⟨{ Untouched.refl _ with tables := .push Eq.refl _ _ }, rfl, rfl, rfl, rfl, rfl, .of_boxes rfl⟩

theorem furnished_pushTables (slot : Option Nat) (tables : Array Nat) (ts : List TableType) :
    w.Furnished (w.pushTables slot tables ts).2 := by
  induction ts generalizing tables w with
  | nil => exact .refl w
  | cons t ts ih => exact (w.furnished_pushTable t _ _).trans (ih _ _)

theorem furnished_pushMemories (slot : Option Nat) (memories : Array Nat) (ts : List MemoryType) :
    w.Furnished (w.pushMemories slot memories ts).2 := by
  induction ts generalizing memories w with
  | nil => exact .refl w
  | cons t ts ih =>
      refine Furnished.trans ?_ (ih _ _)
      exact ⟨{ Untouched.refl _ with memories := .push Eq.refl _ _ }, rfl, rfl, rfl, rfl, rfl, .of_boxes rfl⟩

/-! ## New instances -/

/-- The functions that the indices of a module stand for in an instance of it: those that are
imported, then its own. -/
def funcsFor (m : CompiledModule) (imports : List Item) : Array FuncAddr :=
  (imports.filterMap Item.func?).toArray ++
    (Array.range m.codes.size).map (w.store.funcs.size + ·)

/-- The store with the functions of a module for its next instance. -/
def withCode (m : CompiledModule) : World :=
  w.mapStore fun s => { s with funcs := s.funcs ++ m.newFuncs w.store.instances.size }

theorem untouched_withCode (m : CompiledModule) : w.Untouched (w.withCode m) :=
  { Untouched.refl w with funcs := .append Eq.refl _ _ }

/-- The instance of a module with the given imports and objects of its own. -/
def instanceOf (m : CompiledModule) (imports : List Item) (globals tables memories : Array Nat) :
    Instance :=
  { module := m, funcs := w.funcsFor m imports, globals, tables, memories
    exports := m.module.exports.map fun e =>
      (e.name, exportItem m.module (w.funcsFor m imports) globals tables memories e)
    droppedElems := (m.module.elems.map fun e => !isPassive e).toArray
    droppedDatas := (m.module.datas.map fun d => d.place.isSome).toArray }

/-- The store with one more instance, which its engine counts. -/
def withInstance (i : Instance) : World :=
  (w.mapStore fun s => { s with instances := s.instances.push i }).mapShared
    (·.setInstanceCount w.store.engine.id (w.shared.instanceCount w.store.engine.id + 1))

/-- A new instance comes after its functions and all other objects of its own. -/
theorem allocate_eq (m : CompiledModule) (imports : List Item) :
    ∃ (v : World) (globals tables memories : Array Nat), (w.withCode m).Furnished v ∧
      w.allocate m imports = (w.store.instances.size,
        v.withInstance (w.instanceOf m imports globals tables memories)) := by
  refine ⟨_, _, _, _, ?_, rfl⟩
  exact (furnished_pushGlobals _ _ _ _).trans
    ((furnished_pushTables _ _ _ _).trans (furnished_pushMemories _ _ _ _))

/-- A new instance leaves alone what was there, as long as its segments are not applied. -/
theorem untouched_allocate (m : CompiledModule) (imports : List Item) :
    w.Untouched (w.allocate m imports).2 := by
  obtain ⟨v, globals, tables, memories, hv, h⟩ := w.allocate_eq m imports
  rw [h]
  refine ((w.untouched_withCode m).trans hv.toUntouched).trans ?_
  exact { Untouched.refl v with instances := .push Eq.refl _ _ }

theorem extends_allocate (m : CompiledModule) (imports : List Item) :
    w.Extends (w.allocate m imports).2 := by
  obtain ⟨v, globals, tables, memories, hv, h⟩ := w.allocate_eq m imports
  rw [h]
  have hcode : w.Extends (w.withCode m) := extends_appendFuncs w _
  exact ((hcode.trans hv.extends_).trans (extends_pushInstance v _)).then_objects
    (objects_mapShared _ _)

/-- A new instance leaves the boxes and the system interface as they were. -/
theorem keeps_allocate (m : CompiledModule) (imports : List Item) :
    w.Keeps (w.allocate m imports).2 ∧
      (w.allocate m imports).2.store.wasi = w.store.wasi := by
  obtain ⟨v, globals, tables, memories, hv, h⟩ := w.allocate_eq m imports
  rw [h]
  have hcode : w.Keeps (w.withCode m) := .of_boxes rfl
  exact ⟨(hcode.trans hv.keeps).trans (.of_boxes rfl), hv.wasi_eq⟩

theorem instance_allocate (m : CompiledModule) (imports : List Item) :
    ∃ globals tables memories,
      (w.allocate m imports).2.store.instances[(w.allocate m imports).1]? =
        some (w.instanceOf m imports globals tables memories) := by
  obtain ⟨v, globals, tables, memories, hv, h⟩ := w.allocate_eq m imports
  refine ⟨globals, tables, memories, ?_⟩
  have hsize : v.store.instances.size = w.store.instances.size := by
    rw [hv.instances_eq]
    rfl
  rw [h, ← hsize]
  simp [withInstance, mapShared, mapStore]

theorem funcs_allocate (m : CompiledModule) (imports : List Item) :
    (w.allocate m imports).2.store.funcs =
      w.store.funcs ++ m.newFuncs w.store.instances.size := by
  exact congrArg (·.funcs) (accounts_allocate m imports w)

/-! ## Segments that do not fit -/

theorem fillTables_error {i : Instance} {es : List Wasm.Elem} {c : Cause} {w w' : World}
    (h : w.fillTables i es = (.error c, w')) : c = .code .tableOutOfBounds := by
  induction es generalizing w with
  | nil => cases h
  | cons e es ih =>
      unfold fillTables at h
      split at h
      · exact ih h
      · split at h
        · exact ih h
        · cases h
          rfl

theorem fillMemories_error {i : Instance} {ds : List Wasm.Data} {c : Cause} {w w' : World}
    (h : w.fillMemories i ds = (.error c, w')) : c = .code .memoryOutOfBounds := by
  induction ds generalizing w with
  | nil => cases h
  | cons d ds ih =>
      unfold fillMemories at h
      split at h
      · exact ih h
      · split at h
        · exact ih h
        · cases h
          rfl

/-- Segments fail with something other than a trap only where all are looked at before any is
applied. -/
theorem fill_other {addr : InstanceAddr} {text : String} {w w' : World}
    (h : w.fill addr = (.error (.other text), w')) :
    w' = w ∧ w.store.engine.options.bulkMemory = false ∧
      ∃ i, w.store.instances[addr]? = some i ∧ w.misplaced? i = some (.other text) := by
  unfold fill at h
  split at h
  · cases h
  · rename_i i hi
    split at h
    · rename_i c hc
      cases h
      split at hc
      · cases hc
      · rename_i hbulk
        exact ⟨rfl, by simpa using hbulk, i, hi, hc⟩
    · split at h
      · cases fillMemories_error h
      · cases fillTables_error h

theorem poolFault?_other {c : Cause} {w : World} (h : w.poolFault? = some c) :
    ∃ p text, w.store.engine.options.pooling = some p ∧ c = .other text := by
  unfold poolFault? at h
  split at h
  · rename_i p hp
    split at h <;> cases h
    exact ⟨p, _, hp, rfl⟩
  · cases h

/-- An instance that is refused with something other than a trap leaves all alone that was there. -/
theorem untouched_of_refused {m : CompiledModule} {imports : List Item} {text : String}
    {w w' : World} (h : w.instantiate m imports = (.error (.other text), w')) : w.Untouched w' := by
  unfold instantiate at h
  split at h
  · cases h
    exact .refl w
  · dsimp only at h
    split at h <;> rename_i hfill <;> cases h
    · obtain ⟨rfl, -⟩ := fill_other hfill
      exact w.untouched_allocate m imports

end World

/-! ## Items of definitions -/

open World

theorem Definition.untouched_toItem (d : Definition) (w : World) :
    w.Untouched (d.toItem w).2 := by
  cases d with
  | item => exact .refl w
  | host => exact { Untouched.refl w with funcs := .push Eq.refl _ _ }
  | wasi => exact { Untouched.refl w with funcs := .push Eq.refl _ _ }

theorem Definition.untouched_toItems (ds : List Definition) (w : World) :
    w.Untouched (toItems ds w).2 := by
  induction ds generalizing w with
  | nil => exact .refl w
  | cons d ds ih => exact (d.untouched_toItem w).trans (ih _)

end WasmHost

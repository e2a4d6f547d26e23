import WasmHost.Machine.Instantiate

/-!
# Worlds that differ in fuel

`World.withFuel` gives the store other fuel. Nothing that is done to boxes, objects and instances
looks at the fuel or changes it: it does the same, with the same answer, whatever fuel there is.
There is one lemma for each operation, which moves `withFuel` to the outside.
-/

namespace WasmHost.World

/-- The world with other fuel in its store. -/
def withFuel (fuel : Fuel) (w : World) : World := w.mapFuel fun _ => fuel

variable (fuel : Fuel) (w : World)

@[simp] theorem store_withFuel : (w.withFuel fuel).store = { w.store with fuel } := rfl

@[simp] theorem shared_withFuel : (w.withFuel fuel).shared = w.shared := rfl

@[simp] theorem withFuel_withFuel (fuel' : Fuel) :
    (w.withFuel fuel).withFuel fuel' = w.withFuel fuel' := rfl

/-- The fuel that there is anyway. -/
@[simp] theorem withFuel_self : w.withFuel w.store.fuel = w := rfl

/-- A change of the store that leaves the fuel aside. -/
theorem mapStore_withFuel {f : Store → Store}
    (h : ∀ s : Store, f { s with fuel } = { f s with fuel }) :
    (w.withFuel fuel).mapStore f = (w.mapStore f).withFuel fuel :=
  congrArg (World.mk · w.shared) (h w.store)

theorem foldl_withFuel {α : Type} {f : World → α → World}
    (h : ∀ w a, f (w.withFuel fuel) a = (f w a).withFuel fuel) (as : List α) (w : World) :
    as.foldl f (w.withFuel fuel) = (as.foldl f w).withFuel fuel := by
  induction as generalizing w with
  | nil => rfl
  | cons a as ih =>
      rw [List.foldl_cons, List.foldl_cons, h]
      exact ih _

/-! ## Boxes -/

@[simp] theorem clone_withFuel (r : RefId) :
    (w.withFuel fuel).clone r = (w.clone r).withFuel fuel := rfl

@[simp] theorem release_withFuel (r : RefId) :
    (w.withFuel fuel).release r = (w.release r).withFuel fuel := rfl

@[simp] theorem updateBox_withFuel (f : Box → Box) (b : BoxId) :
    (w.withFuel fuel).updateBox f b = (w.updateBox f b).withFuel fuel := by
  unfold updateBox
  rw [show (w.withFuel fuel).box? b = w.box? b from rfl]
  split
  · rfl
  · dsimp only
    split <;> rfl

@[simp] theorem hold_withFuel (b : BoxId) :
    (w.withFuel fuel).hold b = (w.hold b).withFuel fuel := updateBox_withFuel fuel w _ b

@[simp] theorem unhold_withFuel (b : BoxId) :
    (w.withFuel fuel).unhold b = (w.unhold b).withFuel fuel := updateBox_withFuel fuel w _ b

@[simp] theorem expose_withFuel (b : BoxId) :
    (w.withFuel fuel).expose b = (w.expose b).withFuel fuel := updateBox_withFuel fuel w _ b

@[simp] theorem holdVal_withFuel (v : StoreVal) :
    (w.withFuel fuel).holdVal v = (w.holdVal v).withFuel fuel := by
  unfold holdVal
  cases boxOf v <;> simp

@[simp] theorem unholdVal_withFuel (v : StoreVal) :
    (w.withFuel fuel).unholdVal v = (w.unholdVal v).withFuel fuel := by
  unfold unholdVal
  cases boxOf v <;> simp

@[simp] theorem exposeVal_withFuel (v : StoreVal) :
    (w.withFuel fuel).exposeVal v = (w.exposeVal v).withFuel fuel := by
  unfold exposeVal
  cases boxOf v <;> simp

@[simp] theorem holdAll_withFuel (vs : List StoreVal) :
    (w.withFuel fuel).holdAll vs = (w.holdAll vs).withFuel fuel :=
  foldl_withFuel fuel (fun w v => holdVal_withFuel fuel w v) vs w

@[simp] theorem unholdAll_withFuel (vs : List StoreVal) :
    (w.withFuel fuel).unholdAll vs = (w.unholdAll vs).withFuel fuel :=
  foldl_withFuel fuel (fun w v => unholdVal_withFuel fuel w v) vs w

@[simp] theorem exposeAll_withFuel (vs : List StoreVal) :
    (w.withFuel fuel).exposeAll vs = (w.exposeAll vs).withFuel fuel :=
  foldl_withFuel fuel (fun w v => exposeVal_withFuel fuel w v) vs w

@[simp] theorem collect_withFuel (live : List BoxId) :
    (w.withFuel fuel).collect live = (w.collect live).withFuel fuel := by
  refine foldl_withFuel fuel (fun w b => ?_) _ w
  split <;> simp

/-! ## Values at the border -/

@[simp] theorem accept_withFuel (v : HostVal) :
    (w.withFuel fuel).accept v = ((w.accept v).1, (w.accept v).2.withFuel fuel) := by
  unfold accept
  split <;> rfl

@[simp] theorem acceptAll_withFuel (vs : List HostVal) :
    (w.withFuel fuel).acceptAll vs = ((w.acceptAll vs).1, (w.acceptAll vs).2.withFuel fuel) := by
  induction vs generalizing w with
  | nil => rfl
  | cons v vs ih => simp only [acceptAll, accept_withFuel, ih]

@[simp] theorem view_withFuel (v : StoreVal) : (w.withFuel fuel).view v = w.view v := rfl

@[simp] theorem reveal_withFuel (v : StoreVal) :
    (w.withFuel fuel).reveal v = ((w.reveal v).1, (w.reveal v).2.withFuel fuel) := by
  simp only [reveal, view_withFuel]
  cases (w.view v).foreign? <;> rfl

@[simp] theorem revealAll_withFuel (vs : List StoreVal) :
    (w.withFuel fuel).revealAll vs = ((w.revealAll vs).1, (w.revealAll vs).2.withFuel fuel) := by
  induction vs generalizing w with
  | nil => rfl
  | cons v vs ih => simp only [revealAll, reveal_withFuel, ih]

@[simp] theorem discard_withFuel (v : HostVal) :
    (w.withFuel fuel).discard v = (w.discard v).withFuel fuel := by
  unfold discard
  cases v.foreign? <;> rfl

@[simp] theorem discardAll_withFuel (vs : List HostVal) :
    (w.withFuel fuel).discardAll vs = (w.discardAll vs).withFuel fuel :=
  foldl_withFuel fuel (fun w v => discard_withFuel fuel w v) vs w

/-! ## Interrupts and the log -/

@[simp] theorem log_withFuel (e : LogEntry) :
    (w.withFuel fuel).log e = (w.log e).withFuel fuel := rfl

@[simp] theorem interrupt_withFuel (signal : SignalId) :
    (w.withFuel fuel).interrupt signal = (w.interrupt signal).withFuel fuel := rfl

@[simp] theorem meetDeadline_withFuel :
    (w.withFuel fuel).meetDeadline = (w.meetDeadline.1, w.meetDeadline.2.withFuel fuel) := by
  cases h : w.shared.isPending w.store.signal <;> simp only [meetDeadline, store_withFuel,
    shared_withFuel, h] <;> rfl

/-! ## Globals, tables and memories -/

@[simp] theorem globalValue_withFuel (addr : Nat) :
    (w.withFuel fuel).globalValue addr = w.globalValue addr := rfl

@[simp] theorem table_withFuel (addr : Nat) : (w.withFuel fuel).table addr = w.table addr := rfl

@[simp] theorem tableSize_withFuel (addr : Nat) :
    (w.withFuel fuel).tableSize addr = w.tableSize addr := rfl

@[simp] theorem memory_withFuel (addr : Nat) : (w.withFuel fuel).memory addr = w.memory addr := rfl

@[simp] theorem readMemory_withFuel (addr offset length : Nat) :
    (w.withFuel fuel).readMemory addr offset length = w.readMemory addr offset length := rfl

@[simp] theorem mapElems_withFuel (addr : Nat) (f : Array StoreVal → Array StoreVal) :
    (w.withFuel fuel).mapElems addr f = (w.mapElems addr f).withFuel fuel := rfl

@[simp] theorem mapMemory_withFuel (addr : Nat) (f : Memory → Memory) :
    (w.withFuel fuel).mapMemory addr f = (w.mapMemory addr f).withFuel fuel := rfl

@[simp] theorem putGlobal_withFuel (addr : Nat) (v : StoreVal) :
    (w.withFuel fuel).putGlobal addr v = (w.putGlobal addr v).withFuel fuel := by
  simp only [putGlobal, globalValue_withFuel, holdVal_withFuel]
  rw [mapStore_withFuel fuel _ fun _ => rfl, unholdVal_withFuel]

theorem setGlobal_withFuel (addr : Nat) (v : HostVal) :
    (w.withFuel fuel).setGlobal addr v = (w.setGlobal addr v).map (withFuel fuel) := by
  simp only [setGlobal, show (w.withFuel fuel).globalType addr = w.globalType addr from rfl]
  split
  · rfl
  · split
    · rfl
    · simp [Except.map]

@[simp] theorem putElem_withFuel (addr index : Nat) (v : StoreVal) :
    (w.withFuel fuel).putElem addr index v = (w.putElem addr index v).withFuel fuel := by
  simp [putElem]

@[simp] theorem putElems_withFuel (addr index : Nat) (vs : List StoreVal) :
    (w.withFuel fuel).putElems addr index vs = (w.putElems addr index vs).withFuel fuel := by
  induction vs generalizing index w with
  | nil => rfl
  | cons v vs ih => simp only [putElems, putElem_withFuel, ih]

@[simp] theorem putElemsBack_withFuel (addr index : Nat) (vs : List StoreVal) :
    (w.withFuel fuel).putElemsBack addr index vs =
      (w.putElemsBack addr index vs).withFuel fuel := by
  induction vs generalizing index with
  | nil => rfl
  | cons v vs ih => simp only [putElemsBack, ih, putElem_withFuel]

@[simp] theorem copyElems_withFuel (addr source index : Nat) (vs : List StoreVal) :
    (w.withFuel fuel).copyElems addr source index vs =
      (w.copyElems addr source index vs).withFuel fuel := by
  unfold copyElems
  split <;> simp

@[simp] theorem growElems_withFuel (addr delta : Nat) (v : StoreVal) :
    (w.withFuel fuel).growElems addr delta v =
      ((w.growElems addr delta v).1, (w.growElems addr delta v).2.withFuel fuel) := by
  by_cases hzero : delta = 0
  · simp [growElems, hzero]
  · by_cases hroom : (w.table addr).elems.size + delta ≤ (w.table addr).limit <;>
      simp [growElems, hzero, hroom]

@[simp] theorem growPages_withFuel (addr delta : Nat) :
    (w.withFuel fuel).growPages addr delta =
      (w.growPages addr delta).map fun r => (r.1, r.2.withFuel fuel) := by
  by_cases hroom : (w.memory addr).canGrow delta <;> simp [growPages, hroom]

theorem growMemory_withFuel (addr delta : Nat) :
    (w.withFuel fuel).growMemory addr delta =
      (w.growMemory addr delta).map fun r => (r.1, r.2.withFuel fuel) := by
  simp only [growMemory, growPages_withFuel]
  cases w.growPages addr delta <;> rfl

theorem writeMemory_withFuel (addr offset : Nat) (bytes : List UInt8) :
    (w.withFuel fuel).writeMemory addr offset bytes =
      (w.writeMemory addr offset bytes).map (withFuel fuel) := by
  by_cases hfits : (w.memory addr).fits offset bytes.length <;> simp [writeMemory, hfits]

@[simp] theorem pushTable_withFuel (type : TableType) (limit : Nat) (v : StoreVal) :
    (w.withFuel fuel).pushTable type limit v =
      ((w.pushTable type limit v).1, (w.pushTable type limit v).2.withFuel fuel) := by
  simp only [pushTable, holdAll_withFuel]
  rfl

/-! ## Instances -/

theorem constantStack_withFuel (funcs : Array FuncAddr) (globals : Array Nat)
    (ops : List Wasm.Op) (stack : List StoreVal) :
    (w.withFuel fuel).constantStack funcs globals stack ops =
      w.constantStack funcs globals stack ops := by
  induction ops generalizing stack with
  | nil => rfl
  | cons op ops ih => exact ih _

@[simp] theorem constant_withFuel (funcs : Array FuncAddr) (globals : Array Nat)
    (e : List Wasm.Op) :
    (w.withFuel fuel).constant funcs globals e = w.constant funcs globals e :=
  congrArg (·.headD default) (constantStack_withFuel fuel w funcs globals e [])

@[simp] theorem elemValues_withFuel (i : Instance) (items : Wasm.ElemItems) :
    (w.withFuel fuel).elemValues i items = w.elemValues i items := by
  cases items with
  | funcs fs => rfl
  | exprs t es => simp [elemValues]

theorem pushGlobals_withFuel (funcs : Array FuncAddr) (globals : Array Nat)
    (gs : List Wasm.Global) :
    (w.withFuel fuel).pushGlobals funcs globals gs =
      ((w.pushGlobals funcs globals gs).1, (w.pushGlobals funcs globals gs).2.withFuel fuel) := by
  induction gs generalizing globals w with
  | nil => rfl
  | cons g gs ih =>
      simp only [pushGlobals, constant_withFuel, holdVal_withFuel, store_withFuel]
      rw [mapStore_withFuel fuel _ fun _ => rfl, ih]

theorem pushTables_withFuel (slot : Option Nat) (tables : Array Nat) (ts : List TableType) :
    (w.withFuel fuel).pushTables slot tables ts =
      ((w.pushTables slot tables ts).1, (w.pushTables slot tables ts).2.withFuel fuel) := by
  induction ts generalizing tables w with
  | nil => rfl
  | cons t ts ih => simp only [pushTables, pushTable_withFuel, ih]

@[simp] theorem pushMemory_withFuel (pages limit : Nat) :
    (w.withFuel fuel).pushMemory pages limit =
      ((w.pushMemory pages limit).1, (w.pushMemory pages limit).2.withFuel fuel) := rfl

theorem pushMemories_withFuel (slot : Option Nat) (memories : Array Nat) (ts : List MemoryType) :
    (w.withFuel fuel).pushMemories slot memories ts =
      ((w.pushMemories slot memories ts).1,
        (w.pushMemories slot memories ts).2.withFuel fuel) := by
  induction ts generalizing memories w with
  | nil => rfl
  | cons t ts ih =>
      simp only [pushMemories]
      rw [pushMemory_withFuel, ih]

theorem allocate_withFuel (m : CompiledModule) (imports : List Item) :
    (w.withFuel fuel).allocate m imports =
      ((w.allocate m imports).1, (w.allocate m imports).2.withFuel fuel) := by
  simp only [allocate, store_withFuel]
  rw [mapStore_withFuel fuel _ fun _ => rfl, pushGlobals_withFuel]
  dsimp only
  rw [pushTables_withFuel]
  dsimp only
  rw [pushMemories_withFuel]
  rfl

theorem activeElem?_withFuel (i : Instance) (e : Wasm.Elem) :
    (w.withFuel fuel).activeElem? i e = w.activeElem? i e := by
  simp [activeElem?]

theorem activeData?_withFuel (i : Instance) (d : Wasm.Data) :
    (w.withFuel fuel).activeData? i d = w.activeData? i d := by
  simp [activeData?]

theorem fillTables_withFuel (i : Instance) (es : List Wasm.Elem) :
    (w.withFuel fuel).fillTables i es =
      ((w.fillTables i es).1, (w.fillTables i es).2.withFuel fuel) := by
  induction es generalizing w with
  | nil => rfl
  | cons e es ih =>
      simp only [fillTables, activeElem?_withFuel, tableSize_withFuel, putElems_withFuel]
      cases w.activeElem? i e with
      | none => exact ih w
      | some s =>
          obtain ⟨table, place, values⟩ := s
          by_cases hfits : place + values.length ≤ w.tableSize table <;> simp [hfits, ih]

theorem fillMemories_withFuel (i : Instance) (ds : List Wasm.Data) :
    (w.withFuel fuel).fillMemories i ds =
      ((w.fillMemories i ds).1, (w.fillMemories i ds).2.withFuel fuel) := by
  induction ds generalizing w with
  | nil => rfl
  | cons d ds ih =>
      simp only [fillMemories, activeData?_withFuel, memory_withFuel, mapMemory_withFuel]
      cases w.activeData? i d with
      | none => exact ih w
      | some s =>
          obtain ⟨memory, place, bytes⟩ := s
          by_cases hfits : (w.memory memory).fits place bytes.length <;> simp [hfits, ih]

theorem misplaced?_withFuel (i : Instance) :
    (w.withFuel fuel).misplaced? i = w.misplaced? i := by
  simp only [misplaced?, activeElem?_withFuel, activeData?_withFuel]
  rfl

theorem fill_withFuel (addr : InstanceAddr) :
    (w.withFuel fuel).fill addr = ((w.fill addr).1, (w.fill addr).2.withFuel fuel) := by
  simp only [fill, store_withFuel, misplaced?_withFuel, fillTables_withFuel]
  cases w.store.instances[addr]? with
  | none => rfl
  | some i =>
      dsimp only
      cases if w.store.engine.options.bulkMemory then none else w.misplaced? i with
      | some c => rfl
      | none =>
          dsimp only
          obtain ⟨r, w'⟩ := w.fillTables i i.module.module.elems
          cases r with
          | error c => rfl
          | ok u => exact fillMemories_withFuel fuel w' i _

theorem instantiate_withFuel (m : CompiledModule) (imports : List Item) :
    (w.withFuel fuel).instantiate m imports =
      ((w.instantiate m imports).1, (w.instantiate m imports).2.withFuel fuel) := by
  simp only [instantiate, show (w.withFuel fuel).poolFault? = w.poolFault? from rfl,
    allocate_withFuel, fill_withFuel]
  cases w.poolFault? with
  | some c => rfl
  | none =>
      dsimp only
      obtain ⟨r, w'⟩ := (w.allocate m imports).2.fill (w.allocate m imports).1
      cases r <;> rfl

@[simp] theorem startFunc?_withFuel (addr : InstanceAddr) :
    (w.withFuel fuel).startFunc? addr = w.startFunc? addr := rfl

@[simp] theorem getExport_withFuel (addr : InstanceAddr) (name : String) :
    (w.withFuel fuel).getExport addr name = w.getExport addr name := rfl

end WasmHost.World

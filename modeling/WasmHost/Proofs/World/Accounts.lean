import WasmHost.Proofs.World.Objects
import WasmHost.Machine.Instantiate

/-!
# The accounts of a store

The accounts of a store are its ledger, which says how its fuel and its interrupts stand, and its
functions with the closures that they use. Boxes, globals, tables and memories come and go without
a change to them. Making an instance adds the functions of its module and nothing else.
-/

namespace WasmHost

/-- The engine of a store, its fuel, and what decides when its code is interrupted. -/
structure Ledger where
  engine : Engine
  signal : SignalId
  fuel : Fuel
  deadline : UInt64
  signals : Array Signal
  epochs : List (Nat × UInt64)

/-- The ledger of a store, its functions, and the bodies of host functions. -/
structure Accounts extends Ledger where
  funcs : Array Func
  closures : List ClosureId
  bodies : Array Closure

/-- The functions that an instance of a module adds to its store. -/
def CompiledModule.newFuncs (m : CompiledModule) (owner : InstanceAddr) : Array Func :=
  m.codes.map fun c => { type := c.type, body := .code owner c }

namespace World

/-- The accounts of the store. -/
def accounts (w : World) : Accounts :=
  { engine := w.store.engine, signal := w.store.signal, fuel := w.store.fuel
    deadline := w.store.deadline, signals := w.shared.signals, epochs := w.shared.epochs
    funcs := w.store.funcs, closures := w.store.closures, bodies := w.shared.closures }

/-- The ledger of the store. -/
def ledger (w : World) : Ledger := w.accounts.toLedger

theorem foldl_accounts {α : Type} {f : World → α → World}
    (h : ∀ w a, (f w a).accounts = w.accounts) (as : List α) (w : World) :
    (as.foldl f w).accounts = w.accounts := by
  induction as generalizing w with
  | nil => rfl
  | cons a as ih => exact (ih (f w a)).trans (h w a)

/-! ## Boxes, and values at the border -/

@[simp] theorem accounts_updateBox (f : Box → Box) (b : BoxId) (w : World) :
    (w.updateBox f b).accounts = w.accounts := by
  unfold updateBox
  split
  · rfl
  · dsimp only
    split <;> rfl

@[simp] theorem accounts_hold (b : BoxId) (w : World) : (w.hold b).accounts = w.accounts :=
  accounts_updateBox _ b w

@[simp] theorem accounts_unhold (b : BoxId) (w : World) : (w.unhold b).accounts = w.accounts :=
  accounts_updateBox _ b w

@[simp] theorem accounts_expose (b : BoxId) (w : World) : (w.expose b).accounts = w.accounts :=
  accounts_updateBox _ b w

@[simp] theorem accounts_holdVal (v : StoreVal) (w : World) :
    (w.holdVal v).accounts = w.accounts := by
  unfold holdVal
  cases boxOf v <;> simp

@[simp] theorem accounts_unholdVal (v : StoreVal) (w : World) :
    (w.unholdVal v).accounts = w.accounts := by
  unfold unholdVal
  cases boxOf v <;> simp

@[simp] theorem accounts_exposeVal (v : StoreVal) (w : World) :
    (w.exposeVal v).accounts = w.accounts := by
  unfold exposeVal
  cases boxOf v <;> simp

@[simp] theorem accounts_holdAll (vs : List StoreVal) (w : World) :
    (w.holdAll vs).accounts = w.accounts :=
  foldl_accounts (fun w v => accounts_holdVal v w) vs w

@[simp] theorem accounts_unholdAll (vs : List StoreVal) (w : World) :
    (w.unholdAll vs).accounts = w.accounts :=
  foldl_accounts (fun w v => accounts_unholdVal v w) vs w

@[simp] theorem accounts_exposeAll (vs : List StoreVal) (w : World) :
    (w.exposeAll vs).accounts = w.accounts :=
  foldl_accounts (fun w v => accounts_exposeVal v w) vs w

@[simp] theorem accounts_collect (live : List BoxId) (w : World) :
    (w.collect live).accounts = w.accounts := by
  refine foldl_accounts (fun w b => ?_) _ w
  split <;> simp

@[simp] theorem accounts_accept (v : HostVal) (w : World) :
    (w.accept v).2.accounts = w.accounts := by
  unfold accept
  split <;> rfl

@[simp] theorem accounts_acceptAll (vs : List HostVal) (w : World) :
    (w.acceptAll vs).2.accounts = w.accounts := by
  induction vs generalizing w with
  | nil => rfl
  | cons v vs ih => exact (ih _).trans (accounts_accept v w)

@[simp] theorem accounts_reveal (v : StoreVal) (w : World) :
    (w.reveal v).2.accounts = w.accounts := by
  simp only [reveal]
  cases (w.view v).foreign? <;> rfl

@[simp] theorem accounts_revealAll (vs : List StoreVal) (w : World) :
    (w.revealAll vs).2.accounts = w.accounts := by
  induction vs generalizing w with
  | nil => rfl
  | cons v vs ih => exact (ih _).trans (accounts_reveal v w)

@[simp] theorem accounts_discard (v : HostVal) (w : World) :
    (w.discard v).accounts = w.accounts := by
  unfold discard
  cases v.foreign? <;> rfl

@[simp] theorem accounts_discardAll (vs : List HostVal) (w : World) :
    (w.discardAll vs).accounts = w.accounts :=
  foldl_accounts (fun w v => accounts_discard v w) vs w

@[simp] theorem accounts_log (e : LogEntry) (w : World) : (w.log e).accounts = w.accounts := rfl

/-! ## Globals, tables and memories -/

variable (w : World)

@[simp] theorem accounts_putGlobal (addr : Nat) (v : StoreVal) :
    (w.putGlobal addr v).accounts = w.accounts := by
  simp only [putGlobal, accounts_unholdVal]
  exact accounts_holdVal v w

@[simp] theorem accounts_pushTable (type : TableType) (limit : Nat) (v : StoreVal) :
    (w.pushTable type limit v).2.accounts = w.accounts :=
  accounts_holdAll _ w

@[simp] theorem accounts_mapElems (addr : Nat) (f : Array StoreVal → Array StoreVal) :
    (w.mapElems addr f).accounts = w.accounts := rfl

@[simp] theorem accounts_putElem (addr index : Nat) (v : StoreVal) :
    (w.putElem addr index v).accounts = w.accounts := by
  simp [putElem]

@[simp] theorem accounts_putElems (addr index : Nat) (vs : List StoreVal) :
    (w.putElems addr index vs).accounts = w.accounts := by
  induction vs generalizing index w with
  | nil => rfl
  | cons v vs ih => exact (ih _ _).trans (accounts_putElem w addr index v)

@[simp] theorem accounts_putElemsBack (addr index : Nat) (vs : List StoreVal) :
    (w.putElemsBack addr index vs).accounts = w.accounts := by
  induction vs generalizing index w with
  | nil => rfl
  | cons v vs ih => exact (accounts_putElem _ addr index v).trans (ih w (index + 1))

@[simp] theorem accounts_copyElems (addr source index : Nat) (vs : List StoreVal) :
    (w.copyElems addr source index vs).accounts = w.accounts := by
  unfold copyElems
  split <;> simp

@[simp] theorem accounts_growElems (addr delta : Nat) (v : StoreVal) :
    (w.growElems addr delta v).2.accounts = w.accounts := by
  simp only [growElems]
  split
  · simp
  · split <;> simp

theorem accounts_growPages {addr delta old : Nat} {w' : World}
    (h : w.growPages addr delta = some (old, w')) : w'.accounts = w.accounts := by
  simp only [growPages] at h
  split at h
  · cases h
    rfl
  · cases h

/-! ## What the embedder does with them -/

variable {w} {w' : World}

theorem accounts_newGlobal {type : GlobalType} {init : HostVal} {addr : Nat}
    (h : w.newGlobal type init = .ok (addr, w')) : w'.accounts = w.accounts := by
  simp only [newGlobal] at h
  split at h
  · cases h
    exact accounts_accept init w
  · cases h

theorem accounts_setGlobal {addr : Nat} {v : HostVal} (h : w.setGlobal addr v = .ok w') :
    w'.accounts = w.accounts := by
  simp only [setGlobal] at h
  split at h
  · cases h
  · split at h <;> cases h
    simp

theorem accounts_newTable {type : TableType} {init : HostVal} {addr : Nat}
    (h : w.newTable type init = .ok (addr, w')) : w'.accounts = w.accounts := by
  simp only [newTable] at h
  split at h
  · cases h
  · split at h <;> cases h
    simp

@[simp] theorem accounts_getTable (addr index : Nat) (w : World) :
    (w.getTable addr index).2.accounts = w.accounts := by
  unfold getTable
  split
  · exact accounts_reveal _ w
  · rfl

theorem accounts_setTable {addr index : Nat} {v : HostVal} (h : w.setTable addr index v = .ok w') :
    w'.accounts = w.accounts := by
  simp only [setTable] at h
  split at h
  · cases h
  · split at h <;> cases h
    simp

@[simp] theorem accounts_growTable (addr delta : Nat) (v : HostVal) (w : World) :
    (w.growTable addr delta v).2.accounts = w.accounts := by
  simp only [growTable]
  split
  · rfl
  · split <;> simp

theorem accounts_newMemory {type : MemoryType} {addr : Nat}
    (h : w.newMemory type = some (addr, w')) : w'.accounts = w.accounts := by
  simp only [newMemory] at h
  split at h <;> cases h
  rfl

theorem accounts_growMemory {addr delta old : Nat} (h : w.growMemory addr delta = .ok (old, w')) :
    w'.accounts = w.accounts := by
  simp only [growMemory] at h
  split at h
  · cases h
    exact accounts_growPages w ‹_›
  · cases h

theorem accounts_writeMemory {addr offset : Nat} {bytes : List UInt8}
    (h : w.writeMemory addr offset bytes = some w') : w'.accounts = w.accounts := by
  simp only [writeMemory] at h
  split at h <;> cases h
  rfl

theorem accounts_setWasi {c : Wasi.Config} (h : w.setWasi c = .ok w') :
    w'.accounts = w.accounts := by
  unfold setWasi at h
  cases hb : c.build w.shared.process w.shared.files with
  | error e => simp [hb, Except.map] at h
  | ok context =>
      simp only [hb, Except.map, Except.ok.injEq] at h
      subst h
      rfl

/-! ## Instances -/

@[simp] theorem accounts_pushGlobals (funcs : Array FuncAddr) (globals : Array Nat)
    (gs : List Wasm.Global) (w : World) :
    (w.pushGlobals funcs globals gs).2.accounts = w.accounts := by
  induction gs generalizing globals w with
  | nil => rfl
  | cons g gs ih => exact (ih _ _).trans (accounts_holdVal _ w)

@[simp] theorem accounts_pushTables (slot : Option Nat) (tables : Array Nat) (ts : List TableType)
    (w : World) : (w.pushTables slot tables ts).2.accounts = w.accounts := by
  induction ts generalizing tables w with
  | nil => rfl
  | cons t ts ih => exact (ih _ _).trans (accounts_pushTable w t _ _)

@[simp] theorem accounts_pushMemories (slot : Option Nat) (memories : Array Nat)
    (ts : List MemoryType) (w : World) :
    (w.pushMemories slot memories ts).2.accounts = w.accounts := by
  induction ts generalizing memories w with
  | nil => rfl
  | cons t ts ih => exact ih _ _

theorem accounts_allocate (m : CompiledModule) (imports : List Item) (w : World) :
    (w.allocate m imports).2.accounts =
      { w.accounts with funcs := w.store.funcs ++ m.newFuncs w.store.instances.size } :=
  (accounts_pushMemories ..).trans ((accounts_pushTables ..).trans (accounts_pushGlobals ..))

@[simp] theorem accounts_fillTables (i : Instance) (es : List Wasm.Elem) (w : World) :
    (w.fillTables i es).2.accounts = w.accounts := by
  induction es generalizing w with
  | nil => rfl
  | cons e es ih =>
      unfold fillTables
      split
      · exact ih w
      · split
        · exact (ih _).trans (accounts_putElems w _ _ _)
        · rfl

@[simp] theorem accounts_fillMemories (i : Instance) (ds : List Wasm.Data) (w : World) :
    (w.fillMemories i ds).2.accounts = w.accounts := by
  induction ds generalizing w with
  | nil => rfl
  | cons d ds ih =>
      unfold fillMemories
      split
      · exact ih w
      · split
        · exact ih _
        · rfl

@[simp] theorem accounts_fill (addr : InstanceAddr) (w : World) :
    (w.fill addr).2.accounts = w.accounts := by
  unfold fill
  split
  · rfl
  · rename_i i _
    split
    · rfl
    · have htables := accounts_fillTables i i.module.module.elems w
      split
      · rename_i w' h
        rw [h] at htables
        exact (accounts_fillMemories i _ w').trans htables
      · exact htables

/-- A new instance adds the functions of its module, unless the pool has no place for it. -/
theorem accounts_instantiate (m : CompiledModule) (imports : List Item) (w : World) :
    (w.instantiate m imports).2.accounts = w.accounts ∨
      ∃ owner, (w.instantiate m imports).2.accounts =
        { w.accounts with funcs := w.store.funcs ++ m.newFuncs owner } := by
  have hmade := (accounts_fill (w.allocate m imports).1 (w.allocate m imports).2).trans
    (accounts_allocate m imports w)
  unfold instantiate
  split
  · exact .inl rfl
  · dsimp only
    split <;> rename_i h <;> rw [h] at hmade <;> exact .inr ⟨_, hmade⟩

end World

end WasmHost

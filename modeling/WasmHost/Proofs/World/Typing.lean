import WasmHost.Proofs.Wasm.TypedCode
import WasmHost.Proofs.World.Boxes
import WasmHost.Linker

/-!
# Stores that are well typed

In a well typed store every global and every element of a table holds a value of its kind, every
instance has the objects that its module declares, and every function has a body of its type. What
an embedder or running code does to globals, tables and memories keeps a store well typed, as long
as the values that are stored have their kinds.
-/

namespace WasmHost

/-- The number of an item among those of a kind, if it is of that kind. -/
def Item.addr? : ItemKind → Item → Option Nat
  | .func => Item.func?
  | .global => Item.global?
  | .table => Item.table?
  | .memory => Item.memory?

/-- The object with a number is of a type. The bounds of a table or memory are left out; they belong
to the place where it is declared. -/
def World.Has (w : World) : ItemType → Nat → Prop
  | .func t, a => ∃ f, w.store.funcs[a]? = some f ∧ f.type = t
  | .global t, a => ∃ g, w.store.globals[a]? = some g ∧ g.type = t
  | .table t, a => ∃ x, w.store.tables[a]? = some x ∧ x.element = t.element
  | .memory _, a => a < w.store.memories.size

/-- An item is there and of a type, apart from the bounds of a table or memory. -/
def World.Provides (w : World) (t : ItemType) (item : Item) : Prop :=
  ∃ a, item.addr? t.kind = some a ∧ w.Has t a

/-- Each index of an instance stands for an object of the type that its module declares, and its
exports are those of its module. -/
structure Instance.Linked (w : World) (i : Instance) : Prop where
  compiled : i.module.IsCompiled
  items : ∀ (kind : ItemKind) (k : Nat) (t : ItemType), i.module.module.itemType? kind k = some t →
    ∃ a, (i.addrs kind)[k]? = some a ∧ w.Has t a
  exports : i.exports = i.module.module.exports.map fun e =>
    (e.name, World.exportItem i.module.module i.funcs i.globals i.tables i.memories e)

/-- Items are provided for the imports of a module, one by one. -/
def World.ProvidesAll (w : World) (m : CompiledModule) (items : List Item) : Prop :=
  List.Forall₂ (fun i item => w.Provides i.type item) m.signature.imports items

/-- The body of a function fits its type. -/
def Func.Sound (w : World) (f : Func) : Prop :=
  match f.body with
  | .code owner code =>
    code.type = f.type ∧ ∃ i, w.store.instances[owner]? = some i ∧ code ∈ i.module.codes
  | .host _ => True
  | .command m items entry =>
    m.IsCompiled ∧ w.ProvidesAll m items ∧
      ∃ e ∈ m.signature.exports, e.name = entry ∧ e.type = .func f.type
  | .wasi g => f.type = g.type
  | .idle => f.type = ⟨[], []⟩

/-- A global holds a value of its kind. -/
def Global.Holds (g : Global) : Prop := g.value.type = g.type.content

/-- The elements of a table are of its kind. -/
def Table.Holds (t : Table) : Prop := ∀ v ∈ t.elems, v.type = t.element

/-- All values in globals and tables are of their kinds. -/
structure World.Valued (w : World) : Prop where
  globals : ∀ g ∈ w.store.globals, g.Holds
  tables : ∀ t ∈ w.store.tables, t.Holds

/-- All functions and instances of a store are well typed. -/
structure World.Linked (w : World) : Prop where
  funcs : ∀ f ∈ w.store.funcs, f.Sound w
  instances : ∀ i ∈ w.store.instances, i.Linked w

/-- A store is well typed. -/
structure World.Typed (w : World) : Prop extends w.Linked, w.Valued

variable {w w' w'' : World}

/-! ## Later on -/

theorem World.Has.extends {t : ItemType} {a : Nat} (h : w.Has t a) (hw : w.Extends w') :
    w'.Has t a := by
  cases t with
  | func t =>
      obtain ⟨f, hf, rfl⟩ := h
      obtain ⟨f', hf', rfl⟩ := hw.funcs a f hf
      exact ⟨f, hf', rfl⟩
  | global t =>
      obtain ⟨g, hg, rfl⟩ := h
      obtain ⟨g', hg', htype⟩ := hw.globals a g hg
      exact ⟨g', hg', htype⟩
  | table t =>
      obtain ⟨x, hx, helement⟩ := h
      obtain ⟨x', hx', hbecomes⟩ := hw.tables a x hx
      exact ⟨x', hx', hbecomes.element.trans helement⟩
  | memory t =>
      obtain ⟨x, hx⟩ : ∃ x, w.store.memories[a]? = some x := ⟨_, Array.getElem?_eq_getElem h⟩
      obtain ⟨x', hx', -⟩ := hw.memories a x hx
      exact (Array.getElem?_eq_some_iff.mp hx').1

theorem World.Provides.extends {t : ItemType} {item : Item} (h : w.Provides t item)
    (hw : w.Extends w') : w'.Provides t item := by
  obtain ⟨a, ha, hhas⟩ := h
  exact ⟨a, ha, hhas.extends hw⟩

theorem World.ProvidesAll.extends {m : CompiledModule} {items : List Item}
    (h : w.ProvidesAll m items) (hw : w.Extends w') : w'.ProvidesAll m items :=
  h.imp fun _ _ hi => hi.extends hw

theorem Instance.Linked.extends {i i' : Instance} (h : i.Linked w) (hw : w.Extends w')
    (hi : i.Becomes i') : i'.Linked w' := by
  have haddrs := hi.addrs
  rw [hi] at haddrs ⊢
  refine ⟨h.compiled, fun kind k t ht => ?_, h.exports⟩
  obtain ⟨a, ha, hhas⟩ := h.items kind k t ht
  rw [haddrs]
  exact ⟨a, ha, hhas.extends hw⟩

theorem Func.Sound.extends {f : Func} (h : f.Sound w) (hw : w.Extends w') : f.Sound w' := by
  unfold Func.Sound at h ⊢
  split <;> rename_i hbody <;> rw [hbody] at h <;> dsimp only at h
  · obtain ⟨htype, i, hi, hcode⟩ := h
    obtain ⟨i', hi', hbecomes⟩ := hw.instances _ i hi
    exact ⟨htype, i', hi', by rwa [hbecomes]⟩
  · trivial
  · exact ⟨h.1, h.2.1.extends hw, h.2.2⟩
  · exact h
  · exact h

/-! ## Changes that keep a store well typed -/

/-- A store has changed in a way that keeps it well typed; no function and no instance was added. -/
structure World.Respects (w w' : World) : Prop where
  grown : w.Extends w'
  funcs : w'.store.funcs = w.store.funcs
  instances : w'.store.instances.size = w.store.instances.size
  valued : w.Valued → w'.Valued

namespace World.Respects

theorem of_objects (h : w'.objects = w.objects) : w.Respects w' where
  grown := .of_objects h
  funcs := (congrArg Store.funcs h :)
  instances := (congrArg (·.instances.size) h :)
  valued hv := by
    have hglobals : w'.store.globals = w.store.globals := (congrArg Store.globals h :)
    have htables : w'.store.tables = w.store.tables := (congrArg Store.tables h :)
    exact ⟨hglobals ▸ hv.globals, htables ▸ hv.tables⟩

theorem refl (w : World) : w.Respects w := of_objects rfl

theorem trans (h : w.Respects w') (h' : w'.Respects w'') : w.Respects w'' where
  grown := h.grown.trans h'.grown
  funcs := h'.funcs.trans h.funcs
  instances := h'.instances.trans h.instances
  valued hv := h'.valued (h.valued hv)

theorem then_objects (h : w.Respects w') (ho : w''.objects = w'.objects) : w.Respects w'' :=
  h.trans (of_objects ho)

end World.Respects

theorem World.Linked.extends (h : w.Linked) (hw : w.Extends w')
    (hfuncs : w'.store.funcs = w.store.funcs)
    (hinstances : w'.store.instances.size = w.store.instances.size) : w'.Linked := by
  refine ⟨fun f hf => (h.funcs f (hfuncs ▸ hf)).extends hw, fun i' hi' => ?_⟩
  obtain ⟨a, hlt, rfl⟩ := Array.mem_iff_getElem.mp hi'
  have ha : w.store.instances[a]? = some w.store.instances[a] :=
    Array.getElem?_eq_getElem (hinstances ▸ hlt)
  obtain ⟨i', hi', hbecomes⟩ := hw.instances a _ ha
  rw [Array.getElem?_eq_getElem hlt] at hi'
  obtain rfl := Option.some.inj hi'
  exact (h.instances _ (Array.getElem_mem _)).extends hw hbecomes

theorem World.Respects.typed (h : w.Respects w') (ht : w.Typed) : w'.Typed where
  toLinked := ht.toLinked.extends h.grown h.funcs h.instances
  toValued := h.valued ht.toValued

theorem World.Typed.of_objects (h : w.Typed) (ho : w'.objects = w.objects) : w'.Typed :=
  (Respects.of_objects ho).typed h

namespace World

/-! ## Globals, tables and memories -/

theorem forall_mem_push {α : Type} {P : α → Prop} {xs : Array α} {x : α} (h : ∀ y ∈ xs, P y)
    (hx : P x) : ∀ y ∈ xs.push x, P y := by
  intro y hy
  rcases Array.mem_push.mp hy with hy | rfl
  · exact h y hy
  · exact hx

theorem forall_mem_modify {α : Type} {P : α → Prop} {xs : Array α} {a : Nat} {f : α → α}
    (h : ∀ y ∈ xs, P y) (hf : ∀ y, xs[a]? = some y → P y → P (f y)) : ∀ y ∈ xs.modify a f, P y := by
  intro y hy
  obtain ⟨i, hi, rfl⟩ := Array.mem_iff_getElem.mp hy
  rw [Array.size_modify] at hi
  rw [Array.getElem_modify]
  have hold := h xs[i] (Array.getElem_mem hi)
  split
  · rename_i heq
    subst heq
    exact hf _ (Array.getElem?_eq_getElem hi) hold
  · exact hold

theorem respects_pushGlobal {g : Global} (hg : g.Holds) (w : World) :
    w.Respects (w.mapStore fun s => { s with globals := s.globals.push g }) where
  grown := extends_pushGlobal w g
  funcs := rfl
  instances := rfl
  valued hv := ⟨forall_mem_push hv.globals hg, hv.tables⟩

theorem funcType_of_objects (h : w'.objects = w.objects) (func : FuncAddr) :
    w'.funcType func = w.funcType func := by
  have hfuncs : w'.store.funcs = w.store.funcs := (congrArg Store.funcs h :)
  rw [funcType, funcType, hfuncs]

theorem globalType_of_objects (h : w'.objects = w.objects) (addr : Nat) :
    w'.globalType addr = w.globalType addr := by
  have hglobals : w'.store.globals = w.store.globals := (congrArg Store.globals h :)
  rw [globalType, globalType, hglobals]

theorem respects_putGlobal {addr : Nat} {v : StoreVal} (hv : v.type = (w.globalType addr).content) :
    w.Respects (w.putGlobal addr v) := by
  refine (Respects.of_objects (objects_holdVal v w)).trans (Respects.then_objects ?_
    (objects_unholdVal (w.globalValue addr) _))
  refine ⟨extends_modifyGlobal _ addr (f := ({ · with value := v })) fun _ => rfl, rfl, rfl,
    fun held => ⟨?_, held.tables⟩⟩
  refine forall_mem_modify (a := addr) (f := ({ · with value := v })) held.globals fun g hg _ => ?_
  rw [← globalType_of_objects (objects_holdVal v w), globalType, hg] at hv
  exact hv

theorem respects_pushTable {type : TableType} {v : StoreVal} (hv : v.type = type.element)
    (limit : Nat) (w : World) : w.Respects (w.pushTable type limit v).2 := by
  refine (Respects.of_objects (objects_holdAll (Array.replicate type.limits.min v).toList w)).trans
    ⟨{ Extends.refl _ with tables := .push Table.Becomes.refl _ _ }, rfl, rfl, fun held =>
      ⟨held.globals, forall_mem_push held.tables fun u hu => ?_⟩⟩
  rw [(Array.mem_replicate.mp hu).2]
  exact hv

/-- The elements of a table are of its kind. -/
theorem Valued.type_element (h : w.Valued) {addr : Nat} {v : StoreVal}
    (hv : v ∈ (w.table addr).elems) : v.type = (w.table addr).element := by
  unfold table at hv ⊢
  cases ht : w.store.tables[addr]? with
  | none =>
      rw [ht] at hv
      exact absurd hv (Array.not_mem_empty v)
  | some t =>
      rw [ht] at hv
      exact h.tables t (Array.mem_of_getElem? ht) v hv

theorem respects_mapElems {addr : Nat} {f : Array StoreVal → Array StoreVal}
    (grows : ∀ vs, vs.size ≤ (f vs).size)
    (hf : ∀ vs, (∀ v ∈ vs, v.type = (w.table addr).element) →
      ∀ v ∈ f vs, v.type = (w.table addr).element) : w.Respects (w.mapElems addr f) where
  grown := extends_mapElems w addr grows
  funcs := rfl
  instances := rfl
  valued held := by
    refine ⟨held.globals, ?_⟩
    refine forall_mem_modify (a := addr) (f := fun t => { t with elems := f t.elems }) held.tables
      fun t ht hold => ?_
    have htable : w.table addr = t := by rw [table, ht, Option.getD_some]
    rw [htable] at hf
    exact hf _ hold

@[simp] theorem element_mapElems (addr addr' : Nat) (f : Array StoreVal → Array StoreVal)
    (w : World) : ((w.mapElems addr f).table addr').element = (w.table addr').element := by
  simp only [table, mapElems, mapStore, Array.getElem?_modify]
  split
  · rename_i heq
    subst heq
    cases w.store.tables[addr]? <;> rfl
  · rfl

@[simp] theorem element_putElem (addr addr' index : Nat) (v : StoreVal) (w : World) :
    ((w.putElem addr index v).table addr').element = (w.table addr').element := by
  rw [putElem, table_of_objects (objects_unholdVal _ _), element_mapElems,
    table_of_objects (objects_holdVal v w)]

@[simp] theorem element_putElemsBack (addr addr' index : Nat) (vs : List StoreVal) (w : World) :
    ((w.putElemsBack addr index vs).table addr').element = (w.table addr').element := by
  induction vs generalizing index w with
  | nil => rfl
  | cons v vs ih => rw [putElemsBack, element_putElem, ih]

theorem respects_putElem {addr index : Nat} {v : StoreVal} (hv : v.type = (w.table addr).element) :
    w.Respects (w.putElem addr index v) := by
  refine (Respects.of_objects (objects_holdVal v w)).trans (Respects.then_objects
    (respects_mapElems (by simp) fun vs hvs u hu => ?_) (objects_unholdVal _ _))
  rw [table_of_objects (objects_holdVal v w)] at hvs ⊢
  rcases Array.mem_or_eq_of_mem_setIfInBounds hu with hu | rfl
  · exact hvs u hu
  · exact hv

theorem respects_putElems {addr index : Nat} {vs : List StoreVal}
    (hvs : ∀ v ∈ vs, v.type = (w.table addr).element) : w.Respects (w.putElems addr index vs) := by
  induction vs generalizing index w with
  | nil => exact .refl w
  | cons v vs ih =>
      obtain ⟨hv, hvs⟩ := List.forall_mem_cons.mp hvs
      exact (respects_putElem hv).trans (ih fun u hu => by rw [element_putElem]; exact hvs u hu)

theorem respects_putElemsBack {addr index : Nat} {vs : List StoreVal}
    (hvs : ∀ v ∈ vs, v.type = (w.table addr).element) :
    w.Respects (w.putElemsBack addr index vs) := by
  induction vs generalizing index w with
  | nil => exact .refl w
  | cons v vs ih =>
      obtain ⟨hv, hvs⟩ := List.forall_mem_cons.mp hvs
      exact (ih hvs).trans (respects_putElem (by rw [element_putElemsBack]; exact hv))

theorem respects_copyElems {addr source index : Nat} {vs : List StoreVal}
    (hvs : ∀ v ∈ vs, v.type = (w.table addr).element) :
    w.Respects (w.copyElems addr source index vs) := by
  unfold copyElems
  split
  · exact respects_putElems hvs
  · exact respects_putElemsBack hvs

theorem respects_growElems {addr : Nat} {v : StoreVal}
    (hv : v.type = (w.table addr).element) (delta : Nat) :
    w.Respects (w.growElems addr delta v).2 := by
  simp only [growElems]
  split
  · exact .of_objects (objects_holdVal v w)
  · split
    · have held := objects_holdAll (Array.replicate delta v).toList w
      refine (Respects.of_objects held).trans
        (respects_mapElems (f := (· ++ Array.replicate delta v)) (by simp) fun vs hvs u hu => ?_)
      rw [table_of_objects held] at hvs ⊢
      rcases Array.mem_append.mp hu with hu | hu
      · exact hvs u hu
      · rw [(Array.mem_replicate.mp hu).2]
        exact hv
    · exact .of_objects (objects_holdVal v w)

theorem respects_pushMemory (pages limit : Nat) (w : World) :
    w.Respects (w.pushMemory pages limit).2 :=
  ⟨extends_pushMemory w pages limit, rfl, rfl, fun held => ⟨held.globals, held.tables⟩⟩

theorem respects_mapMemory {addr : Nat} {f : Memory → Memory}
    (hf : (w.memory addr).Becomes (f (w.memory addr))) : w.Respects (w.mapMemory addr f) :=
  ⟨extends_mapMemory w addr hf, rfl, rfl, fun held => ⟨held.globals, held.tables⟩⟩

theorem respects_putBytes (addr offset : Nat) (bytes : List UInt8) (w : World) :
    w.Respects (w.mapMemory addr (·.put offset bytes)) :=
  respects_mapMemory ((w.memory addr).becomes_put offset bytes)

theorem respects_growPages {addr delta old : Nat} (h : w.growPages addr delta = some (old, w')) :
    w.Respects w' := by
  simp only [growPages] at h
  split at h
  · cases h
    exact respects_mapMemory ⟨rfl, Nat.le_add_right _ _⟩
  · cases h

/-! ## What the embedder does with them -/

theorem respects_newGlobal {type : GlobalType} {init : HostVal} {addr : Nat}
    (h : w.newGlobal type init = .ok (addr, w')) : w.Respects w' := by
  unfold newGlobal at h
  split at h <;> cases h
  rename_i htype
  have hholds : Global.Holds ⟨type, (w.accept init).1⟩ := (type_accept init w).trans htype
  exact (Respects.of_objects (objects_accept init w)).trans (respects_pushGlobal hholds _)

theorem respects_setGlobal {addr : Nat} {v : HostVal} (h : w.setGlobal addr v = .ok w') :
    w.Respects w' := by
  simp only [setGlobal] at h
  split at h
  · cases h
  · split at h <;> cases h
    rename_i htype
    rw [not_not] at htype
    refine (Respects.of_objects (objects_accept v w)).trans
      (Respects.then_objects (respects_putGlobal ?_) (objects_unholdVal _ _))
    rw [globalType_of_objects (objects_accept v w), type_accept]
    exact htype

theorem respects_newTable {type : TableType} {init : HostVal} {addr : Nat}
    (h : w.newTable type init = .ok (addr, w')) : w.Respects w' := by
  simp only [newTable] at h
  split at h
  · cases h
  · split at h <;> cases h
    rename_i htype
    rw [not_not] at htype
    refine (Respects.of_objects (objects_accept init w)).trans
      (Respects.then_objects (respects_pushTable ?_ _ _) (objects_unholdVal _ _))
    rw [type_accept]
    exact htype

theorem respects_setTable {addr index : Nat} {v : HostVal} (h : w.setTable addr index v = .ok w') :
    w.Respects w' := by
  simp only [setTable] at h
  split at h
  · cases h
  · split at h <;> cases h
    rename_i htype
    rw [not_not] at htype
    have haccepted := objects_accept v w
    refine (Respects.of_objects haccepted).trans
      (respects_mapElems (by simp) fun vs hvs u hu => ?_)
    rw [table_of_objects haccepted] at hvs ⊢
    rcases Array.mem_or_eq_of_mem_setIfInBounds hu with hu | rfl
    · exact hvs u hu
    · rw [type_accept]
      exact htype

theorem respects_growTable (addr delta : Nat) (v : HostVal) (w : World) :
    w.Respects (w.growTable addr delta v).2 := by
  simp only [growTable]
  split
  · exact .refl w
  · rename_i htype
    rw [not_not] at htype
    have haccepted := objects_accept v w
    have hgrown : (w.accept v).2.Respects ((w.accept v).2.growElems addr delta (w.accept v).1).2 :=
      respects_growElems (by rw [type_accept, table_of_objects haccepted]; exact htype) delta
    have hdone := (Respects.of_objects haccepted).trans
      (hgrown.then_objects (objects_unholdVal (w.accept v).1 _))
    split <;> exact hdone

theorem respects_newMemory {type : MemoryType} {addr : Nat}
    (h : w.newMemory type = some (addr, w')) : w.Respects w' := by
  unfold newMemory at h
  dsimp only at h
  split at h <;> cases h
  exact respects_pushMemory _ _ w

theorem respects_growMemory {addr delta old : Nat}
    (h : w.growMemory addr delta = .ok (old, w')) : w.Respects w' := by
  unfold growMemory at h
  split at h <;> cases h
  rename_i hgrown
  exact respects_growPages hgrown

theorem respects_writeMemory {addr offset : Nat} {bytes : List UInt8}
    (h : w.writeMemory addr offset bytes = some w') : w.Respects w' := by
  unfold writeMemory at h
  split at h <;> cases h
  exact respects_putBytes addr offset bytes w

/-! ## New functions -/

/-- A new function whose body fits its type. -/
theorem Typed.newFunc (h : w.Typed) {type : FuncType} {body : FuncBody}
    (hf : (⟨type, body⟩ : Func).Sound w) : (w.newFunc type body).2.Typed := by
  have hext := extends_newFunc w type body
  refine ⟨⟨fun f hmem => ?_, fun i hi => ?_⟩, h.globals, h.tables⟩
  · rcases Array.mem_push.mp hmem with hmem | rfl
    · exact (h.funcs f hmem).extends hext
    · exact hf.extends hext
  · exact (h.instances i hi).extends hext (.refl i)

theorem Typed.pushHostFunc (h : w.Typed) (type : FuncType) (ops : List HostOp) (id : ClosureId) :
    (w.pushHostFunc type ops id).2.Typed := by
  have hclosed : (w.mapStore fun s => { s with closures := id :: s.closures }).Typed :=
    h.of_objects rfl
  exact hclosed.newFunc trivial

theorem Typed.newHostFunc (h : w.Typed) (type : FuncType) (ops : List HostOp) :
    (w.newHostFunc type ops).2.Typed := by
  have hshared : ({ w with shared := (w.shared.newClosure ops).2 } : World).Typed :=
    h.of_objects rfl
  exact hshared.pushHostFunc type ops _

theorem Typed.shareHostFunc (h : w.Typed) (type : FuncType) (ops : List HostOp) (id : ClosureId) :
    (w.shareHostFunc type ops id).2.Typed :=
  (h.of_objects (objects_mapShared _ w)).pushHostFunc type ops id

/-- A new store holds nothing. -/
theorem typed_create (engine : Engine) (s : Shared) : (create engine s).Typed := by
  refine ⟨⟨?_, ?_⟩, ?_, ?_⟩ <;> exact fun x hx => absurd hx (Array.not_mem_empty x)

end World

end WasmHost

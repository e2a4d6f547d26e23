import Mathlib.Logic.Relation
import WasmHost.Machine.Instantiate
import WasmHost.Proofs.World.Objects

/-!
# Stores only grow

A function, global, table, memory or instance of a store stays under its number for the life of the
store. A function stays the same, a global keeps its type, tables and memories keep their bounds and
never become smaller, and an instance keeps all that its indices and exports stand for.
`World.Extends` says so of two states of a store.
-/

namespace WasmHost

/-- Each element of one array has a counterpart under its index in another one. -/
def Extended {α : Type} (R : α → α → Prop) (xs ys : Array α) : Prop :=
  ∀ (i : Nat) (x : α), xs[i]? = some x → ∃ y, ys[i]? = some y ∧ R x y

namespace Extended

variable {α : Type} {R : α → α → Prop} {xs ys zs : Array α}

theorem refl (hR : ∀ x, R x x) (xs : Array α) : Extended R xs xs := fun _ x h => ⟨x, h, hR x⟩

theorem trans (hR : ∀ {x y z}, R x y → R y z → R x z) (h : Extended R xs ys)
    (h' : Extended R ys zs) : Extended R xs zs := by
  intro i x hx
  obtain ⟨y, hy, hxy⟩ := h i x hx
  obtain ⟨z, hz, hyz⟩ := h' i y hy
  exact ⟨z, hz, hR hxy hyz⟩

theorem mono {R' : α → α → Prop} (h : Extended R xs ys) (hR : ∀ {x y}, R x y → R' x y) :
    Extended R' xs ys := by
  intro i x hx
  obtain ⟨y, hy, hxy⟩ := h i x hx
  exact ⟨y, hy, hR hxy⟩

theorem append (hR : ∀ x, R x x) (xs ys : Array α) : Extended R xs (xs ++ ys) := by
  intro i x hx
  obtain ⟨hi, -⟩ := Array.getElem?_eq_some_iff.mp hx
  exact ⟨x, by rw [Array.getElem?_append_left hi, hx], hR x⟩

theorem push (hR : ∀ x, R x x) (xs : Array α) (y : α) : Extended R xs (xs.push y) := by
  rw [Array.push_eq_append]
  exact append hR xs #[y]

theorem modify (hR : ∀ x, R x x) {a : Nat} {f : α → α} (hf : ∀ x, xs[a]? = some x → R x (f x)) :
    Extended R xs (xs.modify a f) := by
  intro i x hx
  by_cases h : a = i
  · exact ⟨f x, by simp [Array.getElem?_modify, h, hx], hf x (h ▸ hx)⟩
  · exact ⟨x, by simp [Array.getElem?_modify, h, hx], hR x⟩

end Extended

/-- The same global later. -/
def Global.Becomes (g g' : Global) : Prop := g'.type = g.type

/-- The same table later. -/
structure Table.Becomes (t t' : Table) : Prop where
  element : t'.element = t.element
  limit : t'.limit = t.limit
  size : t.elems.size ≤ t'.elems.size

/-- The same memory later. -/
structure Memory.Becomes (m m' : Memory) : Prop where
  limit : m'.limit = m.limit
  pages : m.pages ≤ m'.pages

/-- The same instance later: only its segments are used up. -/
def Instance.Becomes (i i' : Instance) : Prop :=
  i' = { i with droppedElems := i'.droppedElems, droppedDatas := i'.droppedDatas }

theorem Global.Becomes.refl (g : Global) : g.Becomes g := rfl

theorem Table.Becomes.refl (t : Table) : t.Becomes t := ⟨rfl, rfl, Nat.le_refl _⟩

theorem Memory.Becomes.refl (m : Memory) : m.Becomes m := ⟨rfl, Nat.le_refl _⟩

theorem Instance.Becomes.refl (i : Instance) : i.Becomes i := rfl

theorem Global.Becomes.trans {g g' g'' : Global} (h : g.Becomes g') (h' : g'.Becomes g'') :
    g.Becomes g'' := Eq.trans h' h

theorem Table.Becomes.trans {t t' t'' : Table} (h : t.Becomes t') (h' : t'.Becomes t'') :
    t.Becomes t'' :=
  ⟨h'.element.trans h.element, h'.limit.trans h.limit, Nat.le_trans h.size h'.size⟩

theorem Memory.Becomes.trans {m m' m'' : Memory} (h : m.Becomes m') (h' : m'.Becomes m'') :
    m.Becomes m'' :=
  ⟨h'.limit.trans h.limit, Nat.le_trans h.pages h'.pages⟩

theorem Instance.Becomes.trans {i i' i'' : Instance} (h : i.Becomes i') (h' : i'.Becomes i'') :
    i.Becomes i'' := by
  unfold Instance.Becomes at h h' ⊢
  rw [h', h]

/-- The objects of a kind that the indices of an instance stand for. -/
def Instance.addrs (i : Instance) : ItemKind → Array Nat
  | .func => i.funcs
  | .global => i.globals
  | .table => i.tables
  | .memory => i.memories

theorem Instance.Becomes.addrs {i i' : Instance} (h : i.Becomes i') (kind : ItemKind) :
    i'.addrs kind = i.addrs kind := by
  rw [h]
  cases kind <;> rfl

theorem Memory.becomes_put (m : Memory) (addr : Nat) (bytes : List UInt8) :
    m.Becomes (m.put addr bytes) := by
  induction bytes generalizing m addr with
  | nil => exact .refl m
  | cons b bytes ih =>
      have hwritten : m.Becomes { m with cells := m.cells.insert addr b } := ⟨rfl, Nat.le_refl _⟩
      exact hwritten.trans (ih _ (addr + 1))

namespace Memory

/-- What happens to a memory. -/
inductive Step (m : Memory) : Memory → Prop
  | grow {delta : Nat} (room : m.canGrow delta) : Step m (m.grow delta)
  | put {addr : Nat} {bytes : List UInt8} (fits : m.fits addr bytes.length) :
      Step m (m.put addr bytes)

/-- One memory becomes another by growth and by writing. -/
abbrev Evolves : Memory → Memory → Prop := Relation.ReflTransGen Step

theorem Step.becomes {m m' : Memory} (h : m.Step m') : m.Becomes m' := by
  cases h with
  | grow room => exact ⟨rfl, Nat.le_add_right _ _⟩
  | put fits => exact m.becomes_put _ _

theorem Evolves.becomes {m m' : Memory} (h : m.Evolves m') : m.Becomes m' := by
  induction h with
  | refl => exact .refl m
  | tail _ step ih => exact ih.trans step.becomes

end Memory

namespace World

/-- The second world's store is the first one's later on. -/
structure Extends (w w' : World) : Prop where
  engine : w'.store.engine = w.store.engine
  signal : w'.store.signal = w.store.signal
  funcs : Extended Eq w.store.funcs w'.store.funcs
  globals : Extended Global.Becomes w.store.globals w'.store.globals
  tables : Extended Table.Becomes w.store.tables w'.store.tables
  memories : Extended Memory.Becomes w.store.memories w'.store.memories
  instances : Extended Instance.Becomes w.store.instances w'.store.instances

namespace Extends

variable {w w' w'' : World}

theorem of_objects (h : w'.objects = w.objects) : w.Extends w' := by
  simp only [objects, Store.objects, Store.mk.injEq, and_true] at h
  obtain ⟨hengine, hsignal, hfuncs, hglobals, htables, hmemories, hinstances⟩ := h
  refine ⟨hengine, hsignal, ?_, ?_, ?_, ?_, ?_⟩
  · rw [hfuncs]; exact .refl Eq.refl _
  · rw [hglobals]; exact .refl Global.Becomes.refl _
  · rw [htables]; exact .refl Table.Becomes.refl _
  · rw [hmemories]; exact .refl Memory.Becomes.refl _
  · rw [hinstances]; exact .refl Instance.Becomes.refl _

theorem refl (w : World) : w.Extends w := of_objects rfl

/-- A function of the store is never replaced. -/
theorem funcs_known (h : w.Extends w') {func : FuncAddr} {f : Func}
    (known : w.store.funcs[func]? = some f) : w'.store.funcs[func]? = some f := by
  obtain ⟨_, hknown, rfl⟩ := h.funcs func f known
  exact hknown

theorem trans (h : w.Extends w') (h' : w'.Extends w'') : w.Extends w'' where
  engine := h'.engine.trans h.engine
  signal := h'.signal.trans h.signal
  funcs := h.funcs.trans Eq.trans h'.funcs
  globals := h.globals.trans Global.Becomes.trans h'.globals
  tables := h.tables.trans Table.Becomes.trans h'.tables
  memories := h.memories.trans Memory.Becomes.trans h'.memories
  instances := h.instances.trans Instance.Becomes.trans h'.instances

/-- What only touches boxes and the like can stand before or behind. -/
theorem then_objects (h : w.Extends w') (ho : w''.objects = w'.objects) : w.Extends w'' :=
  h.trans (of_objects ho)

end Extends

/-! ## Changes to one kind of object -/

variable (w : World)

theorem extends_appendFuncs (fs : Array Func) :
    w.Extends (w.mapStore fun s => { s with funcs := s.funcs ++ fs }) :=
  { Extends.refl w with funcs := .append Eq.refl _ fs }

theorem extends_pushGlobal (g : Global) :
    w.Extends (w.mapStore fun s => { s with globals := s.globals.push g }) :=
  { Extends.refl w with globals := .push Global.Becomes.refl _ g }

theorem extends_modifyGlobal (addr : Nat) {f : Global → Global}
    (hf : ∀ g : Global, g.Becomes (f g)) :
    w.Extends (w.mapStore fun s => { s with globals := s.globals.modify addr f }) :=
  { Extends.refl w with globals := .modify Global.Becomes.refl fun g _ => hf g }

theorem extends_mapElems (addr : Nat) {f : Array StoreVal → Array StoreVal}
    (hf : ∀ vs, vs.size ≤ (f vs).size) : w.Extends (w.mapElems addr f) := by
  have hbecomes : ∀ t : Table, t.Becomes { t with elems := f t.elems } :=
    fun t => ⟨rfl, rfl, hf t.elems⟩
  exact { Extends.refl w with tables := .modify Table.Becomes.refl fun t _ => hbecomes t }

theorem extends_pushMemory (pages limit : Nat) : w.Extends (w.pushMemory pages limit).2 :=
  { Extends.refl w with memories := .push Memory.Becomes.refl _ _ }

theorem extends_mapMemory (addr : Nat) {f : Memory → Memory}
    (hf : (w.memory addr).Becomes (f (w.memory addr))) : w.Extends (w.mapMemory addr f) := by
  have hbecomes : ∀ m, w.store.memories[addr]? = some m → m.Becomes (f m) := by
    intro m hm
    simpa [memory, hm] using hf
  exact { Extends.refl w with memories := .modify Memory.Becomes.refl hbecomes }

theorem extends_pushInstance (i : Instance) :
    w.Extends (w.mapStore fun s => { s with instances := s.instances.push i }) :=
  { Extends.refl w with instances := .push Instance.Becomes.refl _ i }

/-! ## Functions -/

theorem extends_newFunc (type : FuncType) (body : FuncBody) : w.Extends (w.newFunc type body).2 :=
  { Extends.refl w with funcs := .push Eq.refl _ _ }

theorem extends_newHostFunc (type : FuncType) (ops : List HostOp) :
    w.Extends (w.newHostFunc type ops).2 :=
  { Extends.refl w with funcs := .push Eq.refl _ _ }

theorem extends_shareHostFunc (type : FuncType) (ops : List HostOp) (id : ClosureId) :
    w.Extends (w.shareHostFunc type ops id).2 :=
  { Extends.refl w with funcs := .push Eq.refl _ _ }

theorem extends_newMemory {type : MemoryType} {addr : Nat} {w' : World}
    (h : w.newMemory type = some (addr, w')) : w.Extends w' := by
  simp only [newMemory] at h
  split at h <;> cases h
  exact extends_pushMemory w _ _

end World

end WasmHost

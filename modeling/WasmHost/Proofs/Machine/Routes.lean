import WasmHost.Proofs.Machine.Echoes
import WasmHost.Proofs.Machine.Soundness
import WasmHost.Proofs.World.Sharing

/-!
# Routes to objects

The same global, table or memory can be got at in many ways: by a handle, as an export of an
instance, by a name in a linker, by a host function that asks its caller, and by an index in code. A
`Route` is such a way. Each step of a machine writes through some routes, which are listed here for
each kind of step; none of them reaches an object in any other way.
-/

namespace WasmHost

open World

/-- A way to get at an object. -/
inductive Route where
  /-- A handle that an embedder has. -/
  | handle (object : Object)
  /-- The export of an instance with a name. -/
  | named (addr : InstanceAddr) (name : String)
  /-- The export of an instance at a position. -/
  | nth (addr : InstanceAddr) (position : Nat)
  /-- What a name stands for in a linker. -/
  | linked (linker : Linker) (name : LinkName)
  /-- The export with a name of the instance that called a host function. -/
  | caller (frame : HostFrame) (name : String)
  /-- An index in the code of an instance. -/
  | index (addr : InstanceAddr) (kind : ItemKind) (index : Nat)

/-- The object that a route leads to. -/
def Route.object? (w : World) : Route → Option Object
  | handle o => some o
  | named addr name => (w.getExport addr name).bind Item.object?
  | nth addr position => ((w.exportsOf addr)[position]?).bind fun e => e.2.object?
  | linked l n => (l.get? n w).1.bind Item.object?
  | caller h name => (h.export? w name).bind Item.object?
  | index addr kind k =>
    (w.store.instances[addr]?).bind fun i => ((i.addrs kind)[k]?).bind (Object.of? kind)

/-- All that some routes lead to belongs to a set of objects. -/
def World.Covers (w : World) (routes : List Route) (T : Object → Prop) : Prop :=
  ∀ r ∈ routes, ∀ o, r.object? w = some o → T o

variable {w w' : World} {T : Object → Prop} {i : Instance} {addr : InstanceAddr}

theorem Route.object?_index {kind : ItemKind} {k a : Nat} (hi : w.store.instances[addr]? = some i)
    (ha : (i.addrs kind)[k]? = some a) : (index addr kind k).object? w = Object.of? kind a := by
  simp only [object?, hi, Option.bind_some, ha]

/-- A linker has handed out the same object under a name ever since it was defined. -/
theorem Route.object?_linked (w w' : World) (l : Linker) (n : LinkName) :
    (linked l n).object? w' = (linked l n).object? w := by
  simp only [object?, Linker.get?]
  cases l.find? n with
  | none => rfl
  | some d => cases d <;> rfl

/-- A route goes on to lead to the same object. -/
theorem Route.object?_extends {r : Route} {o : Object} (hw : w.Extends w')
    (hr : r.object? w = some o) : r.object? w' = some o := by
  cases r with
  | handle => exact hr
  | named addr name =>
      obtain ⟨item, hitem, ho⟩ := Option.bind_eq_some_iff.mp hr
      simp only [object?, hw.getExport hitem, Option.bind_some, ho]
  | nth addr position =>
      cases hi : w.store.instances[addr]? with
      | none => simp [object?, exportsOf, hi] at hr
      | some i =>
          rw [object?, hw.exportsOf_eq hi]
          exact hr
  | linked l n => exact (object?_linked w w' l n).trans hr
  | caller h name =>
      obtain ⟨item, hitem, ho⟩ := Option.bind_eq_some_iff.mp hr
      obtain ⟨c, hc, hitem⟩ := Option.bind_eq_some_iff.mp hitem
      simp only [object?, HostFrame.export?, hc, Option.bind_some, hw.getExport hitem, ho]
  | index addr kind k =>
      obtain ⟨i, hi, ha⟩ := Option.bind_eq_some_iff.mp hr
      obtain ⟨i', hi', hbecomes⟩ := hw.instances addr i hi
      simp only [object?, hi', Option.bind_some, hbecomes.addrs]
      exact ha

theorem World.Covers.of_extends {routes : List Route} (h : w'.Covers routes T)
    (hw : w.Extends w') : w.Covers routes T :=
  fun r hr o ho => h r hr o (Route.object?_extends hw ho)

/-! ## The routes of an instruction -/

/-- An instruction that writes looks at nothing but its operands and what the module has. -/
theorem Wasm.Op.isPlain_of_written? {op : Op} {x : ItemKind × Nat} (h : op.written? = some x) :
    op.IsPlain := by
  cases op <;> trivial

/-- The module has what a well typed instruction writes to. -/
theorem Wasm.Module.has_written {m : Module} {f : Features} {locals params results : List ValType}
    {op : Op} {x : ItemKind × Nat} (hx : op.written? = some x)
    (htype : ((m.context f).withLocals locals).Types op params results) :
    (m.itemType? x.1 x.2).isSome := by
  have known {α : Type} {xs : List α} {k : Nat} {x : α} (h : xs.toArray[k]? = some x) :
      xs[k]?.isSome := by
    rw [← List.getElem?_toArray, h]
    rfl
  cases htype <;> cases hx
  case globalSet global _ => exact Option.isSome_map.trans (known global)
  case store place =>
    simp only [Context.checkMemArg, Bool.and_eq_true] at place
    obtain ⟨t, memory⟩ := Option.isSome_iff_exists.mp place.1
    exact Option.isSome_map.trans (known memory)
  case memoryGrow memory | memoryFill memory | memoryInit memory _ _ =>
    exact Option.isSome_map.trans (known memory)
  case memoryCopy target _ => exact Option.isSome_map.trans (known target)
  case tableSet table | tableGrow table | tableFill table | tableInit table _ _ =>
    exact Option.isSome_map.trans (known table)
  case tableCopy target _ _ => exact Option.isSome_map.trans (known target)

/-- A well typed frame has an object for the index that its instruction writes to. -/
theorem CodeFrame.Typed.written {f : CodeFrame} {op : Wasm.Op} {x : ItemKind × Nat}
    (h : f.Typed w) (hop : f.code.ops[f.pc]? = some op) (hx : op.written? = some x) :
    ∃ i a, w.store.instances[f.owner]? = some i ∧ (i.addrs x.1)[x.2]? = some a ∧
      f.address w (·.addrs x.1) x.2 = a := by
  obtain ⟨i, c, o, os, b, bs, belongs, hat, -⟩ := h
  obtain ⟨blocks', hcheck, -⟩ := belongs.code.checked hat hop
  obtain ⟨params, results, -, htype, -⟩ :=
    Wasm.Context.types_of_checkOp hcheck (Wasm.Op.isPlain_of_written? hx)
  obtain ⟨features, -, rfl⟩ := belongs.context
  obtain ⟨t, ht⟩ := Option.isSome_iff_exists.mp (Wasm.Module.has_written hx htype)
  obtain ⟨a, ha, -⟩ := belongs.linked.items x.1 x.2 t ht
  refine ⟨i, a, belongs.owner, ha, ?_⟩
  simp only [address, ownerOf, belongs.owner, Option.map_some, Option.getD_some,
    Array.getD_eq_getD_getElem?, ha]

/-! ## The routes of a new instance -/

/-- The module has what its active segments go into. -/
theorem Wasm.Module.Valid.has_filled {m : Module} {f : Features} (h : m.Valid f) :
    ∀ x ∈ m.filled, (m.itemType? x.1 x.2).isSome := by
  intro x hx
  rcases List.mem_append.mp hx with hx | hx
  · obtain ⟨e, he, hmap⟩ := List.mem_filterMap.mp hx
    obtain ⟨k, hk, rfl⟩ := Option.map_eq_some_iff.mp hmap
    have hchecked := h.elems e he
    cases hmode : e.mode with
    | active table offset =>
        simp only [Elem.table?, hmode, Option.some.injEq] at hk
        subst hk
        have hknown : (m.tableTypes[table.getD 0]?).isSome := by
          unfold checkElem at hchecked
          simp only [hmode, Bool.and_eq_true] at hchecked
          obtain ⟨t, ht, -⟩ := (Option.any_eq_true _ _).mp hchecked.2.1
          rw [ht]
          rfl
        simpa [itemType?] using hknown
    | passive | declared =>
        rw [Elem.table?, hmode] at hk
        cases hk
  · obtain ⟨d, hd, hk⟩ := List.mem_filterMap.mp hx
    obtain ⟨p, hp, rfl⟩ := Option.map_eq_some_iff.mp hk
    have hchecked := h.datas d hd
    simp only [checkData, hp, Bool.and_eq_true, decide_eq_true_eq] at hchecked
    simp [itemType?, hchecked.1]

/-- The indices through which the segments of the next instance go. -/
def World.segmentRoutes (w : World) (m : CompiledModule) : List Route :=
  m.module.filled.map fun x => .index w.store.instances.size x.1 x.2

/-- What is at the number of the next instance after an attempt to make it is an instance of its
module. -/
theorem World.module_instantiate {m : CompiledModule} {items : List Item}
    (hi : (w.instantiate m items).2.store.instances[w.store.instances.size]? = some i) :
    i.module = m := by
  obtain ⟨i', hi', hmodule, -⟩ := w.exists_allocated m items
  have hgrown := extends_fill (w.allocate m items).1 (w.allocate m items).2
  obtain ⟨j, hj, hbecomes⟩ := hgrown.instances _ i' hi'
  unfold instantiate at hi
  split at hi
  · rw [Array.getElem?_eq_none (Nat.le_refl _)] at hi
    cases hi
  · have hfilled : ((w.allocate m items).2.fill (w.allocate m items).1).2.store.instances[
        w.store.instances.size]? = some i := by
      dsimp only at hi
      split at hi <;> rename_i h <;> rw [h] <;> exact hi
    obtain rfl := Option.some.inj (hj.symm.trans hfilled)
    rw [hbecomes]
    exact hmodule

/-- An attempt to make an instance changes only what its segments lead to. -/
theorem World.changes_segments {m : CompiledModule} {items : List Item}
    (made : (w.instantiate m items).2.Typed) (compiled : m.IsCompiled)
    (hT : (w.instantiate m items).2.Covers (w.segmentRoutes m) T) :
    w.Changes T (w.instantiate m items).2 := by
  refine changes_instantiate ?_
  intro i hi x hx o ho
  obtain rfl := module_instantiate hi
  obtain ⟨f, valid⟩ := compiled.valid
  obtain ⟨t, ht⟩ := Option.isSome_iff_exists.mp (valid.checks.has_filled x hx)
  obtain ⟨a, ha, -⟩ := (made.instances i (Array.mem_of_getElem? hi)).items x.1 x.2 t ht
  rw [Array.getD_eq_getD_getElem?, ha, Option.getD_some] at ho
  refine hT _ (List.mem_map_of_mem hx) o ?_
  rw [Route.object?_index hi ha]
  exact ho

/-! ## The routes of a step -/

/-- The routes through which the beginning of a call writes. -/
def World.entryRoutes (w : World) (func : FuncAddr) (caller : Option InstanceAddr) : List Route :=
  match (w.store.funcs[func]?).map Func.body with
  | some (.command m _ _) => w.segmentRoutes m
  | some (.wasi _) => caller.toList.map (.named · "memory")
  | _ => []

/-- The routes through which the next step of a frame writes: that of its instruction, and those of
the call that it makes. -/
def CodeFrame.routes (w : World) (f : CodeFrame) : List Route :=
  let written := if f.entered then (f.code.ops.getD f.pc .unreachable).written? else none
  let callee := match f.step w with
    | .call func _ g w' => w'.entryRoutes func (some g.owner)
    | _ => []
  written.toList.map (fun x => .index f.owner x.1 x.2) ++ callee

/-- The routes through which an operation of a host function writes. -/
def HostOp.routes (w : World) (h : HostFrame) : HostOp → List Route
  | poke name .. | grow name _ | setGlobal name _ => [.caller h name]
  | call name .. => ((h.export? w name).bind Item.func?).elim [] (w.entryRoutes · none)
  | _ => []

/-- The routes through which the next step of a machine writes. -/
def Machine.routes (m : Machine) : List Route :=
  match m.stack, m.control with
  | .code f :: _, .run => f.routes m.world
  | .host h :: _, .run =>
    match h.todo with
    | op :: todo => op.routes m.world { h with todo }
    | [] => []
  | .command c :: _, .run =>
    (m.world.startFunc? c.owner).elim [] (m.world.entryRoutes · (some c.owner))
  | .command c :: _, .back _ =>
    if c.stage = .calling then []
    else ((m.world.getExport c.owner c.entry).bind Item.func?).elim [] (m.world.entryRoutes · none)
  | _, _ => []

theorem World.segmentRoutes_of_objects (h : w'.objects = w.objects) (m : CompiledModule) :
    w'.segmentRoutes m = w.segmentRoutes m := by
  have hinstances : w'.store.instances = w.store.instances := (congrArg Store.instances h :)
  simp only [segmentRoutes, hinstances]

theorem World.entryRoutes_of_objects (h : w'.objects = w.objects) (func : FuncAddr)
    (caller : Option InstanceAddr) : w'.entryRoutes func caller = w.entryRoutes func caller := by
  have hfuncs : w'.store.funcs = w.store.funcs := (congrArg Store.funcs h :)
  simp only [entryRoutes, segmentRoutes_of_objects h, hfuncs]

end WasmHost

import WasmHost.Proofs.Embedding.ExportViews
import WasmHost.Proofs.Embedding.HostFunctions
import WasmHost.Proofs.Embedding.Sharing
import WasmHost.Proofs.Linker.Routes
import WasmHost.Proofs.Machine.Accesses

/-!
# Many routes to one object

A global, a table or a memory can be got at by the handle of its maker, through the exports of
instances, through linkers, from host functions and from the code of every instance that has it. All
these are routes to the one object: they go on to lead to it, what is written through one of them is
read through all, and no other object changes.
-/

namespace WasmHost

open World

/-- The exports of the instances in a store lead to what their indices stand for, by name, by
position, and for a host function that asks its caller. -/
structure World.Exposes (w : World) : Prop where
  named : ∀ {addr : InstanceAddr} {i : Instance} {e : Wasm.Export},
    w.store.instances[addr]? = some i → e ∈ i.module.module.exports →
    (i.exported e).isSharedMemory = false →
      (Route.named addr e.name).object? w = (Route.index addr e.kind e.index).object? w
  nth : ∀ {addr : InstanceAddr} {k : Nat} {name : String} {item : Item},
    (w.exportsOf addr)[k]? = some (name, item) →
      (Route.nth addr k).object? w = (Route.named addr name).object? w
  caller : ∀ {h : HostFrame} {addr : InstanceAddr}, h.caller = some addr → ∀ name,
    (Route.caller h name).object? w = (Route.named addr name).object? w

/-- Linking in a store hands over the objects that there are. -/
structure World.HandsOver (w : World) : Prop where
  /-- The first indices of a new instance lead to what was supplied. -/
  supplied : ∀ {w' : World} {m : CompiledModule} {items : List Item} {addr : InstanceAddr},
    w.instantiate m items = (.ok addr, w') → ∀ (kind : ItemKind) (k a : Nat),
      (items.filterMap (Item.addr? kind))[k]? = some a →
        (Route.index addr kind k).object? w' = Object.of? kind a
  /-- The other indices lead to objects that were not there before. -/
  own : ∀ {w' : World} {m : CompiledModule} {items : List Item} {addr : InstanceAddr},
    w.instantiate m items = (.ok addr, w') → ∀ (kind : ItemKind) (j : Nat) (o : Object),
      j < m.own kind → Object.of? kind (w.count kind + j) = some o →
        (Route.index addr kind ((items.filterMap (Item.addr? kind)).length + j)).object? w' =
          some o ∧ w.state? o = none
  given : ∀ {limit : Nat} {w' : World} {m : CompiledModule} {items : List Item}
    {addr : InstanceAddr}, w.instantiateWith limit m items = some (.ok addr, w') →
      ∀ (kind : ItemKind) (k a : Nat) (o : Object),
        (items.filterMap (Item.addr? kind))[k]? = some a → Object.of? kind a = some o →
          (Route.index addr kind k).object? w' = some o
  /-- A linker supplies what the names of the imports lead to. -/
  found : ∀ {limit : Nat} {w' : World} {m : CompiledModule} {l : Linker} {addr : InstanceAddr},
    l.instantiate limit m w = some (.ok addr, w') → ∃ items,
      List.Forall₂ (fun (x : ImportType) (item : Item) => ∀ o,
        (Route.linked l ⟨x.module, x.name⟩).object? w = some o → item.object? = some o)
        m.signature.imports items ∧
      ∀ (kind : ItemKind) (k a : Nat) (o : Object),
        (items.filterMap (Item.addr? kind))[k]? = some a → Object.of? kind a = some o →
          (Route.index addr kind k).object? w' = some o
  /-- A name leads to what was defined under it. -/
  defined : ∀ {n : LinkName} {item : Item} {l l' : Linker} {s : Shared},
    l.defineItem n item w = .ok (l', s) → item.isSharedMemory = false →
      (Route.linked l' n).object? { w with shared := s } = item.object?
  definedInstance : ∀ {module name : String} {addr : InstanceAddr} {l l' : Linker} {w' : World}
    {o : Object}, l.defineInstance module addr w = (.ok (), l', w') →
      (Route.named addr name).object? w = some o →
        (Route.linked l' ⟨module, name⟩).object? w' = some o
  definedModule : ∀ {limit : Nat} {module : String} {m : CompiledModule} {l l' : Linker}
    {w' : World}, m.IsCompiled → ModuleRole.of m.signature.exports = .ok .reactor →
      l.defineModule limit module m w = some (.ok (), l', w') →
        ∃ addr i, w'.store.instances[addr]? = some i ∧ i.module = m ∧
          ∀ name o, (Route.named addr name).object? w' = some o →
            (Route.linked l' ⟨module, name⟩).object? w' = some o
  /-- A name goes on to lead to it until it is defined again. -/
  kept : ∀ {c : LinkerCall} {l l' : Linker} {r : Except Failure Unit} {w' : World} {n : LinkName},
    c.run l w = some (r, l', w') → Linker.latest? n (c.insertions l w) = none →
      (Route.linked l' n).object? w' = (Route.linked l n).object? w

/-- An embedder reads of an object what it wrote to it, and finds it as large as it made it. -/
def World.Recalls (w : World) : Object → Prop
  | .global a => ∀ v w', w.setGlobal a v = .ok w' → (w'.getGlobal a).1 = v
  | .table a =>
    (∀ index v w', w.setTable a index v = .ok w' → (w'.getTable a index).1 = some v) ∧
    ∀ delta v old w', w.growTable a delta v = (.ok old, w') →
      old = w.tableSize a ∧ w'.tableSize a = w.tableSize a + delta ∧
        ∀ index, old ≤ index → index < old + delta → (w'.getTable a index).1 = some v
  | .memory a =>
    (∀ offset bytes w', w.writeMemory a offset bytes = some w' →
      w'.readMemory a offset bytes.length = some bytes) ∧
    ∀ delta old w', w.growMemory a delta = .ok (old, w') →
      old = (w.memory a).pages ∧ (w'.memory a).pages = (w.memory a).pages + delta

/-- Whoever works on an object works on the same content: what an embedder writes it reads, and code
and host functions that have a route to the object read and write what the embedder does. -/
structure World.Coherent (w : World) (o : Object) : Prop where
  embedder : w.Recalls o
  code : ∀ {f : CodeFrame} {kind : ItemKind} {k : Nat},
    (Route.index f.owner kind k).object? w = some o → f.Uses w k o
  host : ∀ {m : Machine} {h : HostFrame} {name : String} (rest : List Activation), m.world = w →
    (Route.caller h name).object? w = some o → h.Uses m rest name o

namespace World

variable {w w' : World} {o : Object} {s : Object.State}

theorem Typed.exposes (hw : w.Typed) : w.Exposes where
  named hi he plain := (hw.instances _ (Array.mem_of_getElem? hi)).object?_named hi he plain
  nth hk := Route.object?_nth hw hk
  caller hc _ := Route.object?_caller hc

theorem Typed.handsOver (hw : w.Typed) : w.HandsOver where
  supplied made _ _ _ ha := Route.object?_supplied made ha
  own made _ _ _ hj ho := ⟨(Route.object?_own made hj).trans ho, state?_new ho⟩
  given h _ _ _ _ ha ho := Route.object?_given h ha ho
  found h := Linker.object?_found h
  defined h plain := Linker.object?_defined h plain _
  definedInstance {module name addr l l' w' o} h ho := by
    cases hi : w.store.instances[addr]? with
    | none => simp [Route.object?, getExport, exportsOf, hi] at ho
    | some i =>
        have linked := hw.instances i (Array.mem_of_getElem? hi)
        obtain ⟨f, valid⟩ := linked.compiled.valid
        refine Linker.object?_definedInstance hi ?_ h ho _
        rw [linked.exports, List.map_map]
        exact valid.made.names
  definedModule compiled role h := Linker.object?_definedModule compiled role h
  kept h hn := Linker.object?_kept h hn _ _

/-- Objects stay in their store. -/
theorem Extends.isSome_state? (hw : w.Extends w') (h : (w.state? o).isSome) :
    (w'.state? o).isSome := by
  obtain ⟨s, hs⟩ := Option.isSome_iff_exists.mp h
  cases o with
  | global a =>
      obtain ⟨g, hg, -⟩ := Option.map_eq_some_iff.mp hs
      obtain ⟨g', hg', -⟩ := hw.globals a g hg
      simp only [state?, hg', Option.map_some, Option.isSome_some]
  | table a =>
      obtain ⟨t, ht, -⟩ := Option.map_eq_some_iff.mp hs
      obtain ⟨t', ht', -⟩ := hw.tables a t ht
      simp only [state?, ht', Option.map_some, Option.isSome_some]
  | memory a =>
      obtain ⟨m, hm, -⟩ := Option.map_eq_some_iff.mp hs
      obtain ⟨m', hm', -⟩ := hw.memories a m hm
      simp only [state?, hm', Option.map_some, Option.isSome_some]

theorem recalls (hs : w.state? o = some s) : w.Recalls o := by
  cases o with
  | global a => exact fun v w' h => getGlobal_setGlobal h
  | table a =>
      refine ⟨fun index v w' h => getTable_setTable h, fun delta v old w' h => ?_⟩
      obtain ⟨hold, hsize⟩ := tableSize_growTable h
      exact ⟨hold, hsize, fun index hlow hhigh => getTable_growTable h hlow hhigh⟩
  | memory a =>
      obtain ⟨m, hm, -⟩ := Option.map_eq_some_iff.mp hs
      have there := (Array.getElem?_eq_some_iff.mp hm).1
      exact ⟨fun offset bytes w' h => readMemory_writeMemory there h,
        fun delta old w' h => pages_growMemory there h⟩

theorem coherent (hs : w.state? o = some s) : w.Coherent o where
  embedder := recalls hs
  code h := CodeFrame.uses h hs
  host rest hm h := by
    subst hm
    exact HostFrame.uses h rest

end World

namespace Usage

variable {u v : Usage}

/-- Routes to one object are coherent, and different objects are independent. Whatever happens, a
route goes on to lead to the same object; linking makes routes to the objects that there are, and a
host function that an instance calls finds what that instance exports; whoever works on an object
works on the same content. A step changes only what the routes that it writes through lead to, so
that an object keeps all that it holds until something is written through one of its own. -/
theorem handles_coherent (hu : u.Reachable) (later : Relation.ReflTransGen Step u v) :
    (∀ (r : Route) (o : Object), r.object? u.world = some o → r.object? v.world = some o) ∧
    (∀ o, (u.world.state? o).isSome → (v.world.state? o).isSome ∧ v.world.Coherent o) ∧
    v.world.Exposes ∧ v.world.HandsOver ∧
    (∀ {func : FuncAddr} {seen : List HostVal} {addr : InstanceAddr} {v' : Usage}
      {type : FuncType} {ops : List HostOp}, v.Calls func seen (some addr) v' →
        v.world.store.funcs[func]? = some ⟨type, .host ops⟩ →
          ∃ t h rest, v'.task = some t ∧ t.AtHost h rest ∧ ∀ name,
            (Route.caller h name).object? v'.world = (Route.named addr name).object? v'.world) ∧
    (∀ v', v.Step v' → ∃ routes, v.StepThrough routes v' ∧ ∀ o s, v.world.state? o = some s →
      (∀ r ∈ routes, r.object? v'.world ≠ some o) → v'.world.state? o = some s) ∧
    ∀ o s v', Relation.ReflTransGen (Spares o) v v' → v.world.state? o = some s →
      v'.world.state? o = some s := by
  obtain ⟨hv, hext⟩ := hu.later later
  have htyped := hv.typed
  refine ⟨fun r o ho => Route.object?_extends hext ho, fun o ho => ?_, htyped.world.exposes,
    htyped.world.handsOver, fun {func seen addr v' type ops} hcalls known => ?_,
    fun v' step => ?_, fun o s v' spares hs => (hv.state_of_spares spares hs).2⟩
  · have there := hext.isSome_state? ho
    obtain ⟨s, hs⟩ := Option.isSome_iff_exists.mp there
    exact ⟨there, coherent hs⟩
  · obtain ⟨t, held, rest, task, at_host⟩ := hcalls.begins known
    exact ⟨t, _, rest, task, at_host, fun name => Route.object?_caller rfl⟩
  · obtain ⟨routes, through⟩ := step.through
    exact ⟨routes, through, fun o s hs hspared =>
      htyped.state_of_spares ⟨routes, through, hspared⟩ hs⟩

/-- The store with the instance that exports its imported table again, and a global beside it. -/
def beside : Usage :=
  { world := ((StoreCall.newGlobal ⟨.i32, true⟩ (.i32 7)).run [] forwarding.world).2 }

/-- Three routes lead to the table, and go on to do so when it grows; what is read through them is
what was written, and the global keeps its value. -/
theorem forwarded_table_is_one : ∃ v, beside.Step v ∧
    (∀ r ∈ [Route.handle (.table 0), .named 0 "t", .index 0 .table 0],
      r.object? beside.world = some (.table 0) ∧ r.object? v.world = some (.table 0)) ∧
    v.world.Coherent (.table 0) ∧ v.world.tableSize 0 = 3 ∧
    beside.world.state? (.global 0) = some (.global ⟨⟨.i32, true⟩, .i32 7⟩) ∧
    v.world.state? (.global 0) = some (.global ⟨⟨.i32, true⟩, .i32 7⟩) := by
  have free {w : World} : ({ world := w } : Usage).IsFree := fun _ ht => by cases ht
  have reached : beside.Reachable := reachable_forwarding.step
    (.store (c := .newGlobal ⟨.i32, true⟩ (.i32 7)) [] free trivial)
  have through : beside.StepThrough [.handle (.table 0)] _ :=
    .store (c := .growTable 0 2 (.funcref none)) [] free trivial
  have value : beside.world.state? (.global 0) = some (.global ⟨⟨.i32, true⟩, .i32 7⟩) := rfl
  obtain ⟨routes, objects, -⟩ := handles_coherent reached (.single through.step)
  obtain ⟨-, -, -, -, -, -, spared⟩ := handles_coherent reached .refl
  refine ⟨_, through.step, fun r hr => ?_, (objects (.table 0) rfl).2, rfl, value,
    spared _ _ _ (.single ⟨_, through, ?_⟩) value⟩
  · have leads : r.object? beside.world = some (.table 0) := by
      simp only [List.mem_cons, List.not_mem_nil, or_false] at hr
      obtain rfl | rfl | rfl := hr <;> rfl
    exact ⟨leads, routes r _ leads⟩
  · rw [List.forall_mem_singleton]
    exact fun h => by cases h

end Usage

end WasmHost

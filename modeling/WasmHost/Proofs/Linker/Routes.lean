import WasmHost.Proofs.Embedding.ExportViews
import WasmHost.Proofs.Machine.Routes

/-!
# Routes that linking makes

An export leads to the object that its index stands for, whether the instance defines it or was
given it. An index of a new instance leads to the item that was supplied, or to an object that no
route led to before. A name in a linker leads to what was defined under it. So all of these are
routes to the objects that there are, and none leads to a copy.
-/

namespace WasmHost

open World

variable {w w' w'' : World} {i : Instance} {addr : InstanceAddr} {e : Wasm.Export} {o : Object}
  {m : CompiledModule} {items : List Item} {kind : ItemKind} {name : String} {l l' : Linker}

/-! ## Exports -/

theorem Item.object?_of_addr? {item : Item} {a : Nat} (h : item.addr? kind = some a) :
    item.object? = Object.of? kind a := by
  cases kind <;> cases item <;> cases h <;> rfl

namespace Instance.Linked

/-- An export stands for the object of its index. -/
theorem object?_exported (h : i.Linked w) (hi : w.store.instances[addr]? = some i)
    (he : e ∈ i.module.module.exports) :
    (i.exported e).object? = (Route.index addr e.kind e.index).object? w := by
  obtain ⟨f, valid⟩ := h.compiled.valid
  obtain ⟨t, ht⟩ := Option.isSome_iff_exists.mp (valid.checks.exports e he)
  obtain ⟨a, ha, -⟩ := h.items e.kind e.index t ht
  rw [Route.object?_index hi ha]
  exact Item.object?_of_addr? (Instance.addr?_exported ha)

theorem object?_named (h : i.Linked w) (hi : w.store.instances[addr]? = some i)
    (he : e ∈ i.module.module.exports) (plain : (i.exported e).isSharedMemory = false) :
    (Route.named addr e.name).object? w = (Route.index addr e.kind e.index).object? w := by
  rw [Route.object?, h.getExport_eq hi he plain, Option.bind_some]
  exact h.object?_exported hi he

end Instance.Linked

namespace Route

theorem object?_nth (hw : w.Typed) {k : Nat} {item : Item}
    (hk : (w.exportsOf addr)[k]? = some (name, item)) :
    (nth addr k).object? w = (named addr name).object? w := by
  have hmem := List.mem_of_getElem? hk
  cases hi : w.store.instances[addr]? with
  | none => simp [exportsOf, hi] at hmem
  | some i =>
      have hlinked := hw.instances i (Array.mem_of_getElem? hi)
      rw [object?, object?, hk, hlinked.getExport_of_mem hi hmem]
      rfl

theorem object?_caller {h : HostFrame} (hc : h.caller = some addr) :
    (caller h name).object? w = (named addr name).object? w := by
  simp only [object?, HostFrame.export?, hc, Option.bind_some]

/-! ## Imports -/

/-- A first index leads to the item that was supplied for it. -/
theorem object?_supplied {k a : Nat} (made : w.instantiate m items = (.ok addr, w'))
    (ha : (items.filterMap (Item.addr? kind))[k]? = some a) :
    (index addr kind k).object? w' = Object.of? kind a := by
  obtain ⟨i, hi, -, hindexes⟩ := exists_indexed made
  exact object?_index hi (hindexes.imports kind k a ha)

/-- The other indices lead to new objects, each to one of its own. -/
theorem object?_own {j : Nat} (made : w.instantiate m items = (.ok addr, w'))
    (hj : j < m.own kind) :
    (index addr kind ((items.filterMap (Item.addr? kind)).length + j)).object? w' =
      Object.of? kind (w.count kind + j) := by
  obtain ⟨i, hi, rfl, hindexes⟩ := exists_indexed made
  exact object?_index hi (hindexes.own hj)

end Route

/-- Objects with numbers that the store has not given yet are not there. -/
theorem World.state?_new {j : Nat} (ho : Object.of? kind (w.count kind + j) = some o) :
    w.state? o = none := by
  cases kind <;> cases ho <;>
    simp only [state?, count, Option.map_eq_none_iff] <;>
    exact Array.getElem?_eq_none (Nat.le_add_right _ j)

/-- An instance that was made and started is one that was made. -/
theorem World.instantiate_of_newInstance {limit : Nat}
    (h : w.newInstance limit m items = some (.ok addr, w')) :
    ∃ w'', w.instantiate m items = (.ok addr, w'') ∧ w''.Extends w' := by
  rcases newInstance_cases m items w with ⟨c, w₁, -, hanswer⟩ | ⟨made, w₁, hm, hrest⟩
  · rw [hanswer] at h
    cases h
  · rcases hrest with ⟨-, hanswer⟩ | ⟨func, -, hanswer⟩
    · rw [hanswer] at h
      cases h
      exact ⟨_, hm, .refl _⟩
    · rw [hanswer] at h
      obtain ⟨⟨r, w₂⟩, hrun, h⟩ := Option.map_eq_some_iff.mp h
      have hbegun := Machine.alters_enter (Machine.idle w₁) .refl func [] (some made)
      have hext := World.Alters.extends_ (hbegun.trans (Machine.alters_run hrun))
      cases r <;> cases h
      exact ⟨w₁, hm, hext⟩

/-- So are those of an instance that gets items one by one. -/
theorem Route.object?_given {limit k a : Nat}
    (h : w.instantiateWith limit m items = some (.ok addr, w'))
    (ha : (items.filterMap (Item.addr? kind))[k]? = some a) (ho : Object.of? kind a = some o) :
    (index addr kind k).object? w' = some o := by
  simp only [instantiateWith] at h
  split at h
  · cases h
  · split at h
    · cases h
    · obtain ⟨w₁, hmade, hext⟩ := instantiate_of_newInstance h
      exact object?_extends hext ((object?_supplied hmade ha).trans ho)

namespace Linker

/-! ## Names in a linker -/

theorem object?_find? {n : LinkName} {d : Definition} (h : l.find? n = some d)
    (ho : (Route.linked l n).object? w = some o) : (d.toItem w').1.object? = some o := by
  simp only [Route.object?, get?, h] at ho
  split at ho
  · cases ho
  · cases d <;> exact ho

/-- What is found for the imports of a module is what their names lead to. -/
theorem objects_toItems {imports : List ImportType} {ds : List Definition}
    (h : List.Forall₂ (fun x d => l.find? ⟨x.module, x.name⟩ = some d) imports ds) (w v : World) :
    List.Forall₂ (fun (x : ImportType) (item : Item) => ∀ o,
      (Route.linked l ⟨x.module, x.name⟩).object? v = some o → item.object? = some o)
      imports (Definition.toItems ds w).1 := by
  induction h generalizing w with
  | nil => exact .nil
  | cons hd _ ih => exact .cons (fun o ho => object?_find? hd ho) (ih _)

/-- The imports that a linker finds lead to what their names lead to. -/
theorem object?_found {limit : Nat} (h : l.instantiate limit m w = some (.ok addr, w')) :
    ∃ items, List.Forall₂ (fun (x : ImportType) (item : Item) => ∀ o,
        (Route.linked l ⟨x.module, x.name⟩).object? w = some o → item.object? = some o)
        m.signature.imports items ∧
      ∀ (kind : ItemKind) (k a : Nat) o, (items.filterMap (Item.addr? kind))[k]? = some a →
        Object.of? kind a = some o → (Route.index addr kind k).object? w' = some o := by
  unfold instantiate at h
  split at h
  · cases h
  · rename_i ds hr
    obtain ⟨w₁, hmade, hext⟩ := instantiate_of_newInstance h
    refine ⟨_, objects_toItems (resolve_ok hr).1 w w, fun kind k a o ha ho => ?_⟩
    exact Route.object?_extends hext ((Route.object?_supplied hmade ha).trans ho)

/-- A name leads to the item that was defined under it, unless that is a shared memory. -/
theorem object?_defined {n : LinkName} {item : Item} {s : Shared}
    (h : l.defineItem n item w = .ok (l', s)) (plain : item.isSharedMemory = false) (v : World) :
    (Route.linked l' n).object? v = item.object? := by
  unfold defineItem at h
  split at h
  · rename_i type _
    cases hd : l.define n (.item item type) w.shared with
    | error reason => simp [hd, Except.mapError] at h
    | ok p =>
        simp only [hd, Except.mapError, Except.ok.injEq] at h
        obtain ⟨-, hl⟩ := define_linker hd
        rw [h] at hl
        obtain rfl : l' = l.insert n (.item item type) := hl
        rw [Route.object?, get?_insert_item, plain]
        rfl
  · cases h

theorem taken_of_ok {ds : List (LinkName × Definition)} {s : Shared}
    (h : (l.defineAll ds s).1 = .ok ()) : l.taken ds = ds := by
  induction ds generalizing l s with
  | nil => rfl
  | cons d ds ih =>
      obtain ⟨n, d⟩ := d
      unfold defineAll at h
      cases ht : l.takes n with
      | true =>
          obtain ⟨s', hd⟩ := define_of_takes (s := s) ht d
          rw [hd] at h
          rw [taken, if_pos ht, ih h]
      | false =>
          rw [define_of_not_takes ht] at h
          cases h

/-- Where all definitions are taken, a name that only one of them has stands for that one. -/
theorem find?_of_defineAll {ds : List (LinkName × Definition)} {s : Shared} {n : LinkName}
    {d : Definition} (h : (l.defineAll ds s).1 = .ok ()) (hd : (n, d) ∈ ds)
    (single : ∀ d', (n, d') ∈ ds → d' = d) : (l.defineAll ds s).2.1.find? n = some d := by
  rw [defineAll_linker, taken_of_ok h, find?_insertAll]
  have hsome : (latest? n ds).isSome := by
    rw [latest?, List.lookup_isSome_iff]
    exact ⟨(n, d), List.mem_reverse.mpr hd, by simp⟩
  obtain ⟨d', hd'⟩ := Option.isSome_iff_exists.mp hsome
  rw [hd', single d' (mem_of_latest? hd')]
  rfl

theorem mem_exportsOf {item : Item} (h : w.getExport addr name = some item) :
    (name, item) ∈ w.exportsOf addr := by
  obtain ⟨before, after, heq, -⟩ := List.lookup_eq_some_iff.mp h
  rw [heq]
  exact List.mem_append_right before List.mem_cons_self

/-- A name that is not defined again goes on to lead to the same object. -/
theorem object?_kept {c : LinkerCall} {r : Except Failure Unit} {n : LinkName}
    (h : c.run l w = some (r, l', w')) (hn : latest? n (c.insertions l w) = none) (v v' : World) :
    (Route.linked l' n).object? v' = (Route.linked l n).object? v := by
  have hsame : l'.find? n = l.find? n := by rw [LinkerCall.run_find? h, hn, Option.none_or]
  rw [← Route.object?_linked v v' l n, Route.object?, get?_congr hsame]
  rfl

/-- Names under which an instance was defined lead to what it exports. -/
theorem object?_definedInstance {module : String} (hi : w.store.instances[addr]? = some i)
    (distinct : (i.exports.map Prod.fst).Nodup)
    (h : l.defineInstance module addr w = (.ok (), l', w'))
    (ho : (Route.named addr name).object? w = some o) (v : World) :
    (Route.linked l' ⟨module, name⟩).object? v = some o := by
  obtain ⟨item, hitem, ho⟩ := Option.bind_eq_some_iff.mp ho
  have hmem := mem_exportsOf hitem
  simp only [exportsOf, hi, Option.map_some, Option.getD_some] at hmem
  obtain ⟨hmem, plain⟩ := List.mem_filter.mp hmem
  obtain ⟨type, htype⟩ : ∃ type, w.currentType? item = some type := by
    cases item <;> first | exact ⟨_, rfl⟩ | cases ho
  have hoffered : ((⟨module, name⟩, .item item type) : LinkName × Definition) ∈
      exportDefinitions module addr w := by
    simp only [exportDefinitions, hi, Option.map_some, Option.getD_some]
    exact List.mem_filterMap.mpr ⟨(name, item), hmem, by rw [htype]; rfl⟩
  have hsingle (d : Definition)
      (hd : ((⟨module, name⟩, d) : LinkName × Definition) ∈ exportDefinitions module addr w) :
      d = .item item type := by
    simp only [exportDefinitions, hi, Option.map_some, Option.getD_some] at hd
    obtain ⟨⟨name', item'⟩, hmem', heq⟩ := List.mem_filterMap.mp hd
    obtain ⟨type', htype', heq⟩ := Option.map_eq_some_iff.mp heq
    simp only [Prod.mk.injEq, LinkName.mk.injEq] at heq
    obtain ⟨⟨-, rfl⟩, rfl⟩ := heq
    obtain ⟨-, rfl⟩ := Prod.mk.inj (List.inj_on_of_nodup_map distinct hmem' hmem rfl)
    rw [Option.some.inj (htype'.symm.trans htype)]
  simp only [defineInstance, Prod.mk.injEq] at h
  obtain ⟨hok, rfl, -⟩ := h
  have hok : (l.defineAll (exportDefinitions module addr w) w.shared).1 = .ok () := by
    cases hr : (l.defineAll (exportDefinitions module addr w) w.shared).1 with
    | ok => rfl
    | error reason => simp [hr, Except.mapError] at hok
  have hfound := find?_of_defineAll hok hoffered hsingle
  rw [Route.object?, get?_of_find? hfound ((Bool.not_eq_true' _).mp plain)]
  exact ho

/-- The exports of an instance that a linker made have different names. -/
theorem exists_instance {limit : Nat} (compiled : m.IsCompiled)
    (h : l.instantiate limit m w = some (.ok addr, w')) :
    ∃ i, w'.store.instances[addr]? = some i ∧ i.module = m ∧ (i.exports.map Prod.fst).Nodup := by
  obtain ⟨f, valid⟩ := compiled.valid
  unfold instantiate at h
  split at h
  · cases h
  · rename_i ds _
    obtain ⟨w₁, hmade, hext⟩ := instantiate_of_newInstance h
    obtain ⟨globals, tables, memories, hi⟩ :=
      (Definition.toItems ds w).2.instance_allocate m (Definition.toItems ds w).1
    obtain ⟨i, hi, hbecomes⟩ := instance_instantiated hmade hi
    obtain ⟨i', hi', hbecomes'⟩ := hext.instances addr i hi
    refine ⟨i', hi', ?_⟩
    rw [hbecomes', hbecomes]
    refine ⟨rfl, ?_⟩
    simp only [instanceOf, List.map_map]
    exact valid.made.names

/-- Names under which a reactor was defined lead to what its instance exports. -/
theorem object?_definedModule {limit : Nat} {module : String} (compiled : m.IsCompiled)
    (role : ModuleRole.of m.signature.exports = .ok .reactor)
    (h : l.defineModule limit module m w = some (.ok (), l', w')) :
    ∃ addr i, w'.store.instances[addr]? = some i ∧ i.module = m ∧
      ∀ name o, (Route.named addr name).object? w' = some o →
        (Route.linked l' ⟨module, name⟩).object? w' = some o := by
  simp only [defineModule, role] at h
  rcases defineReactor_cases h with ⟨f, -, hr, -⟩ | ⟨addr, w₁, f, -, -, hr, -⟩ |
    ⟨addr, w₁, w₂, hmade, hready, hr, hdefined⟩
  · cases hr
  · cases hr
  · have hready := (World.alters_runInitialize hready).extends_
    obtain ⟨i, hi, hmodule, distinct⟩ := exists_instance compiled hmade
    obtain ⟨i', hi', hbecomes⟩ := hready.instances addr i hi
    rw [Prod.ext_iff] at hdefined
    obtain ⟨rfl, rfl⟩ := hdefined
    have hok : (l.defineInstance module addr w₂).1 = .ok () := by
      cases hd : (l.defineInstance module addr w₂).1 with
      | ok => rfl
      | error e => simp [hd, Except.mapError] at hr
    refine ⟨addr, i', hi', by rw [hbecomes]; exact hmodule, fun name o ho => ?_⟩
    exact object?_definedInstance hi' (by rw [hbecomes]; exact distinct) (Prod.ext hok rfl) ho _

end Linker

end WasmHost

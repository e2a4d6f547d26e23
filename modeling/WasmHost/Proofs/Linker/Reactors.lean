import WasmHost.Proofs.Linker.Acceptance
import WasmHost.Proofs.Linker.Routes

/-!
# Reactors are instantiated, made ready and defined

A module that is no command is instantiated once, when it is defined. That is the same as to make
its instance first, then to call the `_initialize` that the instance exports, if there is one, and
then to define the instance: with the same answer, the same names and the same store. Only a failure
of `_initialize` that is no trap is reported in other words.
-/

namespace WasmHost

open World

variable {limit : Nat} {w w' w₁ w₂ : World} {m : CompiledModule} {l l' : Linker} {module : String}
  {addr : InstanceAddr} {i : Instance}

/-! ## Exports by name -/

theorem CompiledModule.WellMade.eq_of_name (made : m.WellMade) {x y : ExportType}
    (hx : x ∈ m.signature.exports) (hy : y ∈ m.signature.exports) (h : x.name = y.name) :
    x = y := by
  obtain ⟨d, hd, hdx⟩ := List.mem_filterMap.mp hx
  obtain ⟨e, he, hey⟩ := List.mem_filterMap.mp hy
  obtain ⟨t, ht, rfl⟩ := Option.map_eq_some_iff.mp hdx
  obtain ⟨s, hs, rfl⟩ := Option.map_eq_some_iff.mp hey
  obtain rfl : d = e := List.inj_on_of_nodup_map made.names hd he h
  rw [Option.some.inj (ht.symm.trans hs)]

/-- The export of a function is found by its name. -/
theorem World.getExport_of_func {globals tables memories : Array Nat}
    (hi : w.store.instances[addr]? = some i)
    (exports : i.exports = i.module.module.exports.map fun x =>
      (x.name, exportItem i.module.module i.funcs globals tables memories x))
    (names : (i.module.module.exports.map (·.name)).Nodup) {x : Wasm.Export}
    (hx : x ∈ i.module.module.exports) (kind : x.kind = .func) :
    w.getExport addr x.name = some (.func (i.funcs.getD x.index 0)) := by
  have hmem : (x.name, Item.func (i.funcs.getD x.index 0)) ∈ w.exportsOf addr := by
    simp only [exportsOf, hi, Option.map_some, Option.getD_some, exports]
    refine List.mem_filter.mpr ⟨List.mem_map.mpr ⟨x, hx, ?_⟩, rfl⟩
    simp [exportItem, kind]
  obtain ⟨item, hitem⟩ : ∃ item, w.getExport addr x.name = some item := by
    refine Option.isSome_iff_exists.mp ?_
    rw [getExport, List.lookup_isSome_iff]
    exact ⟨_, hmem, by simp⟩
  have hfound := Instance.WellTyped.mem_exports_of_lookup hi hitem
  rw [exports] at hfound
  obtain ⟨y, hy, hye⟩ := List.mem_map.mp hfound
  -- names of exports differ, so that only one export can have been found
  obtain rfl : y = x := List.inj_on_of_nodup_map names hy hx (congrArg Prod.fst hye)
  have hfunc : item = .func (i.funcs.getD y.index 0) := by
    refine (congrArg Prod.snd hye).symm.trans ?_
    simp only [exportItem, kind]
  rw [hitem, hfunc]

/-- The export that a module shows as a function. -/
theorem CompiledModule.exists_export {e : ExportType} {type : FuncType}
    (he : e ∈ m.signature.exports) (htype : e.type = .func type) :
    ∃ x ∈ m.module.exports, x.name = e.name ∧ x.kind = .func := by
  obtain ⟨x, hx, hxe⟩ := List.mem_filterMap.mp he
  obtain ⟨t, ht, rfl⟩ := Option.map_eq_some_iff.mp hxe
  obtain rfl : t = .func type := htype
  refine ⟨x, hx, rfl, ?_⟩
  cases hk : x.kind <;> simp only [hk, Wasm.Module.itemType?, Option.map_eq_some_iff] at ht <;>
    first | rfl | simp at ht

namespace Instance.WellTyped

/-- A function among the exports of a module is found in its instances, with the type that the
module says. -/
theorem exists_func (h : i.WellTyped w) (hi : w.store.instances[addr]? = some i) {e : ExportType}
    {type : FuncType} (he : e ∈ i.module.signature.exports) (htype : e.type = .func type) :
    ∃ func, w.getExport addr e.name = some (.func func) ∧ w.funcType func = type := by
  obtain ⟨x, hx, hname, hkind⟩ := CompiledModule.exists_export he htype
  obtain ⟨globals, tables, memories, hexports⟩ := h.exports
  have hitem := getExport_of_func hi hexports h.made.names hx hkind
  rw [hname] at hitem
  have hlookup : (w.getExport addr e.name).bind Item.func? = some (i.funcs.getD x.index 0) := by
    rw [hitem]
    rfl
  obtain ⟨f, hf, rfl⟩ := h.exported hi he htype hlookup
  exact ⟨_, hitem, by rw [funcType, hf]; rfl⟩

/-- What is found by name is among the exports that the module shows. -/
theorem exists_exportType (h : i.WellTyped w) (compiled : i.module.IsCompiled)
    (hi : w.store.instances[addr]? = some i) {name : String} {item : Item}
    (hget : w.getExport addr name = some item) :
    ∃ e ∈ i.module.signature.exports, e.name = name := by
  obtain ⟨globals, tables, memories, hexports⟩ := h.exports
  have hmem := mem_exports_of_lookup hi hget
  rw [hexports] at hmem
  obtain ⟨x, hx, hxe⟩ := List.mem_map.mp hmem
  obtain ⟨f, valid⟩ := compiled.valid
  obtain ⟨t, ht⟩ := Option.isSome_iff_exists.mp (valid.checks.exports x hx)
  refine ⟨⟨x.name, t⟩, List.mem_filterMap.mpr ⟨x, hx, ?_⟩, congrArg Prod.fst hxe⟩
  rw [ht, Option.map_some]

end Instance.WellTyped

/-! ## Steps one after the other -/

/-- A call of a function that takes nothing comes out the same whatever its other failures are
called. -/
theorem World.callOr_of_empty {func : FuncAddr} (h : w.funcType func = ⟨[], []⟩) (limit : Nat) :
    ∃ run : Option (Except Fault (List HostVal) × World), ∀ otherwise,
      w.callOr otherwise limit func [] = run.map fun (r, w) =>
        (r.mapError (·.failure otherwise), w) := by
  have hfits : checkArgs (w.funcType func) [] = .ok () := by rw [h]; rfl
  refine ⟨(((Machine.idle ((w.acceptAll []).2.exposeAll (w.acceptAll []).1)).enter func
    (w.acceptAll []).1 none).run limit).map fun p =>
      (p.1.map fun results => (p.2.revealAll results).1,
        (p.1.toOption.elim p.2 fun results => (p.2.revealAll results).2).unholdAll []),
    fun otherwise => ?_⟩
  simp only [callOr, hfits, Option.map_map]
  congr 1
  funext p
  obtain ⟨r, w₁⟩ := p
  cases r <;> rfl

/-- What comes of a module that is instantiated and whose instance is then defined under a name. -/
def Linker.instantiateAndDefine (limit : Nat) (module : String) (m : CompiledModule) (l : Linker)
    (w : World) : Option (Except Failure Unit × Linker × World) :=
  (l.instantiate limit m w).map fun (r, w) =>
    match r with
    | .error f => (.error f, l, w)
    | .ok addr => ((l.defineInstance module addr w).1.mapError .error,
      (l.defineInstance module addr w).2)

/-- What comes of a module that is instantiated, whose `_initialize` is then called from outside,
and whose instance is then defined under a name; each step is taken only after the one before it. A
failure of the call that is no trap is told in words of its own. -/
inductive Linker.Readies (limit : Nat) (module : String) (m : CompiledModule) (l : Linker)
    (w : World) : Option (Except Failure Unit × Linker × World) → Prop
  | starting (made : l.instantiate limit m w = none) : Readies limit module m l w none
  | refused {f : Failure} {w₁ : World} (made : l.instantiate limit m w = some (.error f, w₁)) :
      Readies limit module m l w (some (.error f, l, w₁))
  | calling {addr : InstanceAddr} {func : FuncAddr} {w₁ : World}
      (made : l.instantiate limit m w = some (.ok addr, w₁))
      (found : w₁.getExport addr ModuleRole.initializeName = some (.func func))
      (call : w₁.callFunc limit func [] = none) : Readies limit module m l w none
  | trapped {addr : InstanceAddr} {func : FuncAddr} {t : Trap} {w₁ w₂ : World}
      (made : l.instantiate limit m w = some (.ok addr, w₁))
      (found : w₁.getExport addr ModuleRole.initializeName = some (.func func))
      (call : w₁.callFunc limit func [] = some (.error (.trap t), w₂)) :
      Readies limit module m l w (some (.error (.trap t), l, w₂))
  | failed {addr : InstanceAddr} {func : FuncAddr} {reason : String} {w₁ w₂ : World}
      (made : l.instantiate limit m w = some (.ok addr, w₁))
      (found : w₁.getExport addr ModuleRole.initializeName = some (.func func))
      (call : w₁.callFunc limit func [] = some (.error (.error (.typeMismatch reason)), w₂)) :
      Readies limit module m l w
        (some (.error (.error (.link ("calling the Reactor initialization function: " ++ reason))),
          l, w₂))
  | ready {addr : InstanceAddr} {func : FuncAddr} {vals : List HostVal} {w₁ w₂ : World}
      (made : l.instantiate limit m w = some (.ok addr, w₁))
      (found : w₁.getExport addr ModuleRole.initializeName = some (.func func))
      (call : w₁.callFunc limit func [] = some (.ok vals, w₂)) :
      Readies limit module m l w (some ((l.defineInstance module addr w₂).1.mapError .error,
        (l.defineInstance module addr w₂).2))

namespace Linker

/-- The instance that a linker makes of a module is well typed. -/
theorem exists_wellTyped (made : m.WellMade) (hstore : l.InStore w)
    (h : l.instantiate limit m w = some (.ok addr, w')) :
    ∃ i, w'.store.instances[addr]? = some i ∧ i.module = m ∧ i.WellTyped w' := by
  simp only [instantiate] at h
  split at h
  · cases h
  · rename_i ds hr
    have hds : ∀ d ∈ ds, d.InStore w := by
      intro d hd
      obtain ⟨n, hn⟩ := exists_find?_of_resolve hr d hd
      exact hstore n d hn
    obtain ⟨w₁, hmade, hext⟩ := instantiate_of_newInstance h
    obtain ⟨i, hi, rfl, -, htyped⟩ :=
      WasmHost.wellTyped_instantiate (supplies_of_currentTypes hds hr) made hmade
    obtain ⟨i', hi', hbecomes⟩ := hext.instances addr i hi
    exact ⟨i', hi', by rw [hbecomes], htyped.extends hext hbecomes⟩

/-- A module without `_start` whose `_initialize`, if it has one, is a function is a reactor. -/
theorem reactor_of_exports {exports : List ExportType}
    (command : ∀ e ∈ exports, e.name ≠ ModuleRole.startName)
    (func : ∀ e ∈ exports, e.name = ModuleRole.initializeName → e.type.kind = .func) :
    ModuleRole.of exports = .ok .reactor := by
  have hstart : exports.find? (·.name == ModuleRole.startName) = none :=
    List.find?_eq_none.mpr fun e he => by simpa using command e he
  simp only [ModuleRole.of, hstart, Option.map_none]
  cases hinit : exports.find? (·.name == ModuleRole.initializeName) with
  | none => rfl
  | some e =>
      have hkind := func e (List.mem_of_find?_eq_some hinit)
        (by simpa using List.find?_some hinit)
      simp only [Option.map_some, hkind]

/-- Without an `_initialize` nothing comes between the instance and its definition. -/
theorem defineReactor_of_plain
    (plain : ∀ addr w₁, l.instantiate limit m w = some (.ok addr, w₁) →
      w₁.getExport addr ModuleRole.initializeName = none) :
    l.defineReactor limit module m w = l.instantiateAndDefine limit module m w := by
  unfold defineReactor instantiateAndDefine
  cases hmade : l.instantiate limit m w with
  | none => rfl
  | some p =>
      obtain ⟨r, w₁⟩ := p
      cases r with
      | error f => rfl
      | ok addr =>
          have hready : w₁.runInitialize limit addr = some (.ok (), w₁) := by
            simp only [runInitialize, plain addr w₁ hmade, Option.bind_none]
          simp [hready]

/-- An `_initialize` that takes and gives nothing is called between the two. -/
theorem readies_defineReactor
    (ready : ∀ addr w₁, l.instantiate limit m w = some (.ok addr, w₁) →
      ∃ func, w₁.getExport addr ModuleRole.initializeName = some (.func func) ∧
        w₁.funcType func = ⟨[], []⟩) :
    l.Readies limit module m w (l.defineReactor limit module m w) := by
  cases hmade : l.instantiate limit m w with
  | none =>
      have hanswer : l.defineReactor limit module m w = none := by simp [defineReactor, hmade]
      exact hanswer ▸ .starting hmade
  | some p =>
      obtain ⟨r, w₁⟩ := p
      cases r with
      | error f =>
          have hanswer : l.defineReactor limit module m w = some (.error f, l, w₁) := by
            simp [defineReactor, hmade]
          exact hanswer ▸ .refused hmade
      | ok addr =>
          obtain ⟨func, hfound, htype⟩ := ready addr w₁ hmade
          obtain ⟨run, hrun⟩ := callOr_of_empty htype limit
          have hinit : w₁.runInitialize limit addr = run.map fun (r, w) =>
              ((r.mapError (·.failure initializing)).map fun _ => (), w) := by
            simp only [runInitialize, hfound, Option.bind_some, Item.func?, initializeMisfit?,
              htype, hrun, Option.map_map]
            rfl
          have hcall : w₁.callFunc limit func [] = run.map fun (r, w) =>
              (r.mapError (·.failure .typeMismatch), w) := hrun _
          cases run with
          | none =>
              have hanswer : l.defineReactor limit module m w = none := by
                simp [defineReactor, hmade, hinit]
              exact hanswer ▸ .calling hmade hfound hcall
          | some p =>
              obtain ⟨r, w₂⟩ := p
              cases r with
              | ok vals =>
                  have hanswer : l.defineReactor limit module m w =
                      some ((l.defineInstance module addr w₂).1.mapError .error,
                        (l.defineInstance module addr w₂).2) := by
                    simp [defineReactor, hmade, hinit, Except.mapError, Except.map]
                  exact hanswer ▸ .ready hmade hfound hcall
              | error f =>
                  have hanswer : l.defineReactor limit module m w =
                      some (.error (f.failure initializing), l, w₂) := by
                    simp [defineReactor, hmade, hinit, Except.mapError, Except.map]
                  rw [hanswer]
                  simp only [Option.map_some, Except.mapError] at hcall
                  unfold Fault.failure at hcall ⊢
                  cases ht : f.trap? with
                  | some t =>
                      rw [ht] at hcall
                      exact .trapped hmade hfound hcall
                  | none =>
                      rw [ht] at hcall
                      exact .failed hmade hfound hcall

/-- To define a reactor is to instantiate it, to call its `_initialize` and to define the instance.
Where the module exports no `_initialize` the answer, the linker and the store are those of the
first and the last of these steps. Where it exports one that takes and gives nothing, they are those
of all three: a trap of `_initialize` is reported as that trap, any other failure of it as an error
of the linker, and both leave the linker as it was. -/
theorem reactor_defined_in_turn {s : Session} (reachable : s.Reachable) (known : l ∈ s.linkers)
    (compiled : m.IsCompiled) (command : ∀ e ∈ m.signature.exports, e.name ≠ "_start")
    (limit : Nat) (module : String) :
    ((∀ e ∈ m.signature.exports, e.name ≠ "_initialize") →
      l.defineModule limit module m s.world = l.instantiateAndDefine limit module m s.world) ∧
    (∀ e ∈ m.signature.exports, e.name = "_initialize" → e.type = .func ⟨[], []⟩ →
      l.Readies limit module m s.world (l.defineModule limit module m s.world)) := by
  obtain ⟨options, bytes, hbinary⟩ := id compiled
  have made := CompiledModule.wellMade_ofBinary hbinary
  have hinstance {addr : InstanceAddr} {w₁ : World}
      (h : l.instantiate limit m s.world = some (.ok addr, w₁)) :=
    exists_wellTyped made (reachable.inStore l known) h
  constructor
  · intro none
    have hrole := reactor_of_exports command fun e he h => absurd h (none e he)
    simp only [defineModule, hrole]
    refine defineReactor_of_plain fun addr w₁ hmade => ?_
    obtain ⟨i, hi, rfl, htyped⟩ := hinstance hmade
    cases hfound : w₁.getExport addr ModuleRole.initializeName with
    | none => rfl
    | some item =>
        obtain ⟨e, he, hname⟩ := htyped.exists_exportType compiled hi hfound
        exact absurd hname (none e he)
  · intro e he hname htype
    have hrole := reactor_of_exports command fun x hx h => by
      rw [made.eq_of_name hx he (h.trans hname.symm), htype]
      rfl
    simp only [defineModule, hrole]
    refine readies_defineReactor fun addr w₁ hmade => ?_
    obtain ⟨i, hi, rfl, htyped⟩ := hinstance hmade
    obtain ⟨func, hfound, hfunc⟩ := htyped.exists_func hi he htype
    rw [hname] at hfound
    exact ⟨func, hfound, hfunc⟩

end Linker

/-! ## A reactor that is made ready -/

/-- The binary of a module with an `_initialize` that does nothing. -/
def tidyBinary : Wasm.Bytes :=
  [0x00, 0x61, 0x73, 0x6d, 0x01, 0x00, 0x00, 0x00, 0x01, 0x04, 0x01, 0x60, 0x00, 0x00, 0x03, 0x02,
    0x01, 0x00, 0x07, 0x0f, 0x01, 0x0b, 0x5f, 0x69, 0x6e, 0x69, 0x74, 0x69, 0x61, 0x6c, 0x69, 0x7a,
    0x65, 0x00, 0x00, 0x0a, 0x04, 0x01, 0x02, 0x00, 0x0b]

/-- The module. -/
def tidy : CompiledModule :=
  { compatibility := ({} : EngineOptions).compatibility, binary := tidyBinary
    module :=
      { types := [⟨[], []⟩], funcs := [0], exports := [⟨"_initialize", .func, 0⟩]
        codes := [⟨[], [.done]⟩] }
    codes := #[.make 0 ⟨[], []⟩ ⟨[], [.done]⟩ ⟨39, 39, #[40]⟩] }

theorem isCompiled_tidy : tidy.IsCompiled := ⟨{}, tidyBinary, by decide +kernel⟩

/-- A session with a new store and a new linker. -/
def linkerSession : Session := ⟨World.create (.default 0) { files := ⟨[], #[]⟩ }, [{}]⟩

/-- The module is instantiated, its `_initialize` returns, and its export is defined. -/
theorem tidy_defined_in_turn : linkerSession.Reachable ∧ ({} : Linker) ∈ linkerSession.linkers ∧
    (({} : Linker).defineModule 3 "m" tidy linkerSession.world).map (·.1) = some (.ok ()) ∧
    ({} : Linker).Readies 3 "m" tidy linkerSession.world
      (({} : Linker).defineModule 3 "m" tidy linkerSession.world) := by
  have reachable : linkerSession.Reachable :=
    (Session.Reachable.start (.default 0) { files := ⟨[], #[]⟩ }).step (.newLinker _ [])
  have known : ({} : Linker) ∈ linkerSession.linkers := List.mem_singleton_self _
  have hexports : tidy.signature.exports = [⟨"_initialize", .func ⟨[], []⟩⟩] := rfl
  have command : ∀ e ∈ tidy.signature.exports, e.name ≠ "_start" := by
    rw [hexports]
    decide
  have hboth := Linker.reactor_defined_in_turn reachable known isCompiled_tidy command 3 "m"
  exact ⟨reachable, known, by decide +kernel,
    hboth.2 ⟨"_initialize", .func ⟨[], []⟩⟩ (hexports ▸ List.mem_singleton_self _) rfl rfl⟩

/-! ## An initialization that fails with no trap -/

/-- The binary of a command with a byte behind the end of its memory. -/
def strayBinary : Wasm.Bytes :=
  [0x00, 0x61, 0x73, 0x6d, 0x01, 0x00, 0x00, 0x00, 0x01, 0x04, 0x01, 0x60, 0x00, 0x00, 0x03, 0x02,
    0x01, 0x00, 0x05, 0x03, 0x01, 0x00, 0x01, 0x07, 0x0a, 0x01, 0x06, 0x5f, 0x73, 0x74, 0x61, 0x72,
    0x74, 0x00, 0x00, 0x0a, 0x04, 0x01, 0x02, 0x00, 0x0b, 0x0b, 0x09, 0x01, 0x00, 0x41, 0x80, 0x80,
    0x04, 0x0b, 0x01, 0x61]

/-- The command. -/
def stray : CompiledModule :=
  { compatibility := withoutBulk.compatibility, binary := strayBinary
    module :=
      { types := [⟨[], []⟩], funcs := [0], memories := [⟨⟨1, none⟩, false⟩]
        exports := [⟨"_start", .func, 0⟩], codes := [⟨[], [.done]⟩]
        datas := [⟨some (0, [.i32Const 65536, .done]), [0x61]⟩] }
    codes := #[.make 0 ⟨[], []⟩ ⟨[], [.done]⟩ ⟨39, 39, #[40]⟩] }

/-- The binary of a reactor whose `_initialize` is the function of a command. -/
def eagerBinary : Wasm.Bytes :=
  [0x00, 0x61, 0x73, 0x6d, 0x01, 0x00, 0x00, 0x00, 0x01, 0x04, 0x01, 0x60, 0x00, 0x00, 0x02, 0x0c,
    0x01, 0x01, 0x58, 0x06, 0x5f, 0x73, 0x74, 0x61, 0x72, 0x74, 0x00, 0x00, 0x07, 0x0f, 0x01, 0x0b,
    0x5f, 0x69, 0x6e, 0x69, 0x74, 0x69, 0x61, 0x6c, 0x69, 0x7a, 0x65, 0x00, 0x00]

/-- The reactor. -/
def eager : CompiledModule :=
  { compatibility := withoutBulk.compatibility, binary := eagerBinary
    module :=
      { types := [⟨[], []⟩], imports := [⟨"X", "_start", .func 0⟩]
        exports := [⟨"_initialize", .func, 0⟩] }
    codes := #[] }

/-- A linker and a store in which the command is defined, in an engine without bulk operations. -/
def strayDefined : Except String Unit × Linker × World :=
  Linker.defineCommand "X" stray stray.signature.exports {}
    (World.create { Engine.default 0 with options := withoutBulk } { files := ⟨[], #[]⟩ })

/-- The session with these. -/
def straySession : Session := ⟨strayDefined.2.2, [strayDefined.2.1]⟩

/-- The store with an instance of the reactor. -/
def eagerWorld : World :=
  ((strayDefined.2.1.instantiate 0 eager straySession.world).getD (.ok 0, straySession.world)).2

/-- The store after its `_initialize` was called. -/
def eagerCalled : World := ((eagerWorld.callFunc 1 0 []).getD (.ok [], eagerWorld)).2

/-- A failure of `_initialize` that is no trap is one error when the embedder calls it, and another
one when a linker does. -/
theorem initialize_fails_differently : straySession.Reachable ∧
    strayDefined.2.1 ∈ straySession.linkers ∧ eager.IsCompiled ∧
    eager.signature.exports = [⟨"_initialize", .func ⟨[], []⟩⟩] ∧
    eagerWorld.getExport 0 "_initialize" = some (.func 0) ∧ ∀ n,
      strayDefined.2.1.instantiate (n + 1) eager straySession.world = some (.ok 0, eagerWorld) ∧
      eagerWorld.callFunc (n + 1) 0 [] = some (.error (.error
        (.typeMismatch "memory out of bounds: data segment does not fit")), eagerCalled) ∧
      strayDefined.2.1.defineModule (n + 1) "m" eager straySession.world = some (.error (.error
        (initializing "memory out of bounds: data segment does not fit")), strayDefined.2.1,
          eagerCalled) := by
  have hdefined : (LinkerCall.defineModule 0 "X" stray).run {}
      (World.create { Engine.default 0 with options := withoutBulk } { files := ⟨[], #[]⟩ }) =
        some (.ok (), strayDefined.2.1, strayDefined.2.2) := rfl
  have hnew := (Session.Reachable.start { Engine.default 0 with options := withoutBulk }
    { files := ⟨[], #[]⟩ }).step (.newLinker _ [])
  have hstep := @Session.Step.linker _ _ [] [] _ _ _ _ hdefined
  have reachable : straySession.Reachable := hnew.step hstep
  have hmade (n : Nat) : strayDefined.2.1.instantiate n eager straySession.world =
      some (.ok 0, eagerWorld) := rfl
  have hrole : ModuleRole.of eager.signature.exports = .ok .reactor := rfl
  have hready (n : Nat) : eagerWorld.runInitialize (n + 1) 0 = some (.error (.error
      (initializing "memory out of bounds: data segment does not fit")), eagerCalled) := by
    with_unfolding_all rfl
  refine ⟨reachable, List.mem_singleton_self _, ⟨withoutBulk, eagerBinary, by decide +kernel⟩, rfl,
    by with_unfolding_all rfl, fun n => ⟨hmade _, by with_unfolding_all rfl, ?_⟩⟩
  simp [Linker.defineModule, hrole, Linker.defineReactor, hmade, hready]

end WasmHost

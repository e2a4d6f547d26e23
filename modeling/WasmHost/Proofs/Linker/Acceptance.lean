import WasmHost.Proofs.Embedding.References
import WasmHost.Proofs.Linker.Commands
import WasmHost.Proofs.Linker.LinkErrors

/-!
# Imports that are accepted

Items in the order of the imports make an instance if they match the imports one by one, and are
refused with an error if they do not. Where the engine looks at all segments before it applies any,
a segment that does not fit is an error as well. Otherwise nothing goes wrong but traps.
-/

namespace WasmHost

open World

variable {w w' : World} {m : CompiledModule} {items : List Item}

/-- Items are no imports of a module: there are too many or too few, or some import is not matched
by the item in its place. -/
def World.Refuses (w : World) (m : CompiledModule) (items : List Item) : Prop :=
  items.length ≠ m.signature.imports.length ∨
    ∃ (k : Nat) (i : ImportType) (item : Item), m.signature.imports[k]? = some i ∧
      items[k]? = some item ∧ ¬w.Matches i.type item

/-- An active segment of an instance goes beyond the end of its table or memory. -/
def World.Oversteps (w : World) (i : Instance) : Prop :=
  (∃ e ∈ i.module.module.elems, ∃ table place values,
    w.activeElem? i e = some (table, place, values) ∧
      w.tableSize table < place + values.length) ∨
  ∃ d ∈ i.module.module.datas, ∃ memory place bytes,
    w.activeData? i d = some (memory, place, bytes) ∧
      (w.memory memory).fits place bytes.length = false

/-- Bulk operations are switched off, and an active segment of a new instance goes beyond the end of
its table or memory. -/
def World.Misplaces (w : World) (m : CompiledModule) (items : List Item) : Prop :=
  w.store.engine.options.bulkMemory = false ∧
    ∃ i, (w.allocate m items).2.store.instances[(w.allocate m items).1]? = some i ∧
      (w.allocate m items).2.Oversteps i

/-- Each command of a store was compiled. -/
def World.CommandsCompiled (w : World) : Prop :=
  ∀ f ∈ w.store.funcs, ∀ m items entry, f.body = .command m items entry → m.IsCompiled

/-- The answer to an attempt to make an instance is an instance or a trap. -/
def Session.MadeOrTrapped : Except Failure InstanceAddr → Prop
  | .ok _ | .error (.trap _) => True
  | .error (.error _) => False

/-! ## Segments -/

theorem World.any_elems_iff {i : Instance} :
    (i.module.module.elems.any fun e => (w.activeElem? i e).any
      fun (table, place, values) => decide (w.tableSize table < place + values.length)) ↔
      ∃ e ∈ i.module.module.elems, ∃ table place values,
        w.activeElem? i e = some (table, place, values) ∧
          w.tableSize table < place + values.length := by
  simp [List.any_eq_true, Option.any_eq_true]

theorem World.any_datas_iff {i : Instance} :
    (i.module.module.datas.any fun d => (w.activeData? i d).any
      fun (memory, place, bytes) => !(w.memory memory).fits place bytes.length) ↔
      ∃ d ∈ i.module.module.datas, ∃ memory place bytes,
        w.activeData? i d = some (memory, place, bytes) ∧
          (w.memory memory).fits place bytes.length = false := by
  simp [List.any_eq_true, Option.any_eq_true]

theorem World.oversteps_iff {i : Instance} :
    w.Oversteps i ↔ ∃ text, w.misplaced? i = some (.other text) := by
  unfold Oversteps misplaced?
  rw [← any_elems_iff, ← any_datas_iff]
  dsimp only
  split
  · rename_i helem
    exact ⟨fun _ => ⟨_, rfl⟩, fun _ => .inl helem⟩
  · rename_i helem
    split
    · rename_i hdata
      exact ⟨fun _ => ⟨_, rfl⟩, fun _ => .inr hdata⟩
    · rename_i hdata
      simp [helem, hdata]

/-- Without a pool, an instance is refused with something other than a trap exactly if a segment is
misplaced. -/
theorem World.instantiate_other_iff (unpooled : w.store.engine.options.pooling = none) :
    (∃ text, (w.instantiate m items).1 = .error (.other text)) ↔ w.Misplaces m items := by
  have hpool : w.poolFault? = none := by simp [poolFault?, unpooled]
  have hengine : (w.allocate m items).2.store.engine = w.store.engine :=
    (w.extends_allocate m items).engine
  unfold instantiate
  rw [hpool]
  dsimp only
  constructor
  · rintro ⟨text, h⟩
    split at h <;> rename_i hfill <;> cases h
    obtain ⟨-, hbulk, i, hi, hmisplaced⟩ := fill_other hfill
    exact ⟨hengine ▸ hbulk, i, hi, oversteps_iff.mpr ⟨text, hmisplaced⟩⟩
  · rintro ⟨hbulk, i, hi, hoversteps⟩
    obtain ⟨text, hmisplaced⟩ := oversteps_iff.mp hoversteps
    have hfill : (w.allocate m items).2.fill (w.allocate m items).1 =
        (.error (.other text), (w.allocate m items).2) := by
      simp [fill, hi, hengine, hbulk, hmisplaced]
    exact ⟨text, by rw [hfill]⟩

/-! ## The start function -/

/-- The start function of a new instance fails with nothing but traps, unless bulk operations are
switched off and it is that of a command. -/
theorem World.start_not_escapes {addr : InstanceAddr} {func : FuncAddr} {fault : Fault}
    (signed : w.Signed) (compiled : w.CommandsCompiled)
    (unpooled : w.store.engine.options.pooling = none)
    (ordinary : w.store.engine.options.bulkMemory = true ∨ ¬w.StartsCommand m items)
    (supplies : w.Supplies m items) (made : m.WellMade)
    (hm : w.instantiate m items = (.ok addr, w')) (hs : w'.startFunc? addr = some func) :
    ¬((Machine.idle w').enter func [] (some addr)).Escapes fault := by
  intro hescapes
  rcases ordinary with bulk | hstarts
  · -- instances of commands are refused with traps only, so it does not matter what the start is
    have orderly : w.Orderly := by
      refine ⟨signed, fun f hf module imports entry hbody => ?_, unpooled, bulk⟩
      obtain ⟨options, bytes, hbinary⟩ := compiled f hf module imports entry hbody
      exact CompiledModule.wellMade_ofBinary hbinary
    have hext := (alters_instantiate m items w).extends_
    rw [hm] at hext
    have horderly : w'.Orderly :=
      orderly.of_append hext (funcs_instantiate hm) fun _ => CompiledModule.body_newFuncs
    obtain ⟨i, hi, -, -, htyped⟩ := wellTyped_instantiate supplies made hm
    obtain ⟨f, hf, htype⟩ := htyped.start hi hs
    exact Machine.not_escapes_of_orderly horderly hf htype [] (some addr) hescapes
  · exact hstarts (startsCommand_of_escapes signed supplies made hm hs hescapes)

/-! ## Answers -/

/-- A new instance whose imports suit it and whose segments fit is made or traps, once its start
function has come to an end. -/
theorem World.newInstance_made_or_trapped (signed : w.Signed) (compiled : w.CommandsCompiled)
    (unpooled : w.store.engine.options.pooling = none)
    (ordinary : w.store.engine.options.bulkMemory = true ∨ ¬w.StartsCommand m items)
    (supplies : w.Supplies m items) (made : m.WellMade) (fit : ¬w.Misplaces m items) :
    (∃ n r w', Session.MadeOrTrapped r ∧
      ∀ limit, w.newInstance limit m items = if n ≤ limit then some (r, w') else none) ∨
    ∃ addr w₁ func, w.instantiate m items = (.ok addr, w₁) ∧ w₁.startFunc? addr = some func ∧
      ∀ limit, ((Machine.idle w₁).enter func [] (some addr)).run limit = none := by
  rcases newInstance_cases m items w with ⟨c, w₁, hm, hanswer⟩ | ⟨addr, w₁, hm, hrest⟩
  · obtain ⟨t, ht⟩ : ∃ t, Fault.trap? { cause := c } = some t := by
      cases c with
      | exit | code | host => exact ⟨_, rfl⟩
      | other text =>
          have hmisplaces := (instantiate_other_iff unpooled).mp ⟨text, by rw [hm]⟩
          exact absurd hmisplaces fit
    refine .inl ⟨0, .error (.trap t), w₁, trivial, fun limit => ?_⟩
    simp [hanswer, Fault.failure, ht]
  · rcases hrest with ⟨-, hanswer⟩ | ⟨func, hs, hanswer⟩
    · exact .inl ⟨0, .ok addr, w₁, trivial, fun limit => by simp [hanswer]⟩
    · rcases ((Machine.idle w₁).enter func [] (some addr)).run_eq_or_none with
        ⟨n, ⟨r, w₂⟩, hends, hrun⟩ | hnever
      · refine .inl ⟨n, (r.map fun _ => addr).mapError (·.failure .link), w₂, ?_, fun limit => ?_⟩
        · cases r with
          | ok vals => trivial
          | error fault =>
              have htrap : fault.trap? ≠ none := by
                intro bare
                have framed := Machine.framed_enter w₁ func [] (some addr)
                exact start_not_escapes signed compiled unpooled ordinary supplies made hm hs
                  ((framed.ends_iff_escapes bare).mp ⟨w₂, hends⟩)
              obtain ⟨t, ht⟩ := Option.ne_none_iff_exists'.mp htrap
              simp [Except.map, Except.mapError, Fault.failure, ht, Session.MadeOrTrapped]
        · rw [hanswer, hrun]
          split <;> rfl
      · exact .inr ⟨addr, w₁, func, hm, hs, hnever⟩

/-- Items that a module does not refuse pass both checks. -/
theorem World.not_refuses_iff (externs : ∀ i ∈ items, w.IsExtern i) :
    ¬w.Refuses m items ↔ positionalError? m.signature.imports items = none ∧
      w.fit m.signature.imports items = .ok () := by
  rw [checks_pass_iff externs, Refuses, ← not_forall₂_iff, not_not]

theorem World.newInstance_other {text : String}
    (other : (w.instantiate m items).1 = .error (.other text)) (limit : Nat) :
    w.newInstance limit m items =
      some (.error (.error (.link text)), (w.instantiate m items).2) := by
  rcases newInstance_cases m items w with ⟨c, w₁, hm, hanswer⟩ | ⟨addr, w₁, hm, -⟩ <;>
    rw [hm] at other <;> cases other
  rw [hanswer, hm]
  rfl

/-- Items in the order of the imports are refused with an error if there are too many or too few, or
one of them does not match, or a segment of the new instance is misplaced. In every other case the
start function decides: there is an instance, or a trap, as soon as it has come to an end. Nothing
is said of that where bulk operations are switched off and the start function is that of a command.
-/
theorem link_error_iff_refused {s : Session} {bytes : Wasm.Bytes} (reachable : s.Reachable)
    (compiled : CompiledModule.ofBinary s.world.store.engine.options bytes = .ok m)
    (commands : s.world.CommandsCompiled)
    (unpooled : s.world.store.engine.options.pooling = none)
    (externs : ∀ i ∈ items, s.world.IsExtern i) :
    (s.world.Refuses m items ∨ s.world.Misplaces m items → ∃ reason w', ∀ limit,
      s.world.instantiateWith limit m items = some (.error (.error (.link reason)), w')) ∧
    (¬(s.world.Refuses m items ∨ s.world.Misplaces m items) →
      s.world.store.engine.options.bulkMemory = true ∨ ¬s.world.StartsCommand m items →
      (∃ n r w', Session.MadeOrTrapped r ∧ ∀ limit,
        s.world.instantiateWith limit m items = if n ≤ limit then some (r, w') else none) ∨
      ∃ m₀, (Operation.instantiateWith m items).Starts s.world m₀ ∧
        ∀ limit, m₀.run limit = none) := by
  have made := CompiledModule.wellMade_ofBinary compiled
  have signed := reachable.signed.world
  rcases instantiateWith_cases m items s.world with
    ⟨hchecks, reason, hreason⟩ | ⟨kinds, fits, hnew⟩
  · rw [← not_refuses_iff externs, not_not] at hchecks
    exact ⟨fun _ => ⟨reason, s.world, hreason⟩, fun haccepted => absurd (.inl hchecks) haccepted⟩
  · have haccepts := (not_refuses_iff externs).mpr ⟨kinds, fits⟩
    have supplies := supplies_of_checks externs kinds fits
    simp only [hnew]
    constructor
    · intro hrefused
      have hmisplaces := hrefused.resolve_left haccepts
      obtain ⟨text, hother⟩ := (instantiate_other_iff unpooled).mpr hmisplaces
      exact ⟨text, _, newInstance_other hother⟩
    · intro haccepted ordinary
      obtain ⟨-, fit⟩ := not_or.mp haccepted
      rcases newInstance_made_or_trapped signed commands unpooled ordinary supplies made fit with
        hanswer | ⟨addr, w₁, func, hm, hs, hnever⟩
      · exact .inl hanswer
      · exact .inr ⟨_, .instantiateWith kinds fits hm hs, hnever⟩

/-- A session whose store has a host function. -/
def hostSession : Session :=
  ⟨(newSession.world.newHostFunc ⟨[], []⟩ []).2, []⟩

/-- The first import is matched, and for the second one a function stands where a global is asked
for. -/
theorem function_for_global_is_refused : ∃ reason w', ∀ limit,
    hostSession.world.instantiateWith limit mover [.func 0, .func 0] =
      some (.error (.error (.link reason)), w') := by
  have reachable : hostSession.Reachable :=
    .step (.start (.default 0) _) (.world (.newHostFunc _ ⟨[], []⟩ []))
  have compiled : CompiledModule.ofBinary hostSession.world.store.engine.options
      moverBinary = .ok mover := by decide +kernel
  have commands : hostSession.world.CommandsCompiled := by
    intro f hf module imports entry hbody
    obtain rfl : f = ⟨⟨[], []⟩, .host []⟩ := Array.mem_singleton.mp hf
    cases hbody
  have externs : ∀ i ∈ [Item.func 0, Item.func 0], hostSession.world.IsExtern i := by
    intro i hi
    obtain rfl : i = .func 0 := by simpa using hi
    exact Nat.zero_lt_one
  have hboth := link_error_iff_refused reachable compiled commands rfl externs
  exact hboth.1 (.inl (.inr ⟨1, ⟨"", "x", .global ⟨.externref, true⟩⟩, .func 0, rfl, rfl, id⟩))

/-! ## A segment that is looked at before -/

/-- The binary of a module with a memory of one page and a byte behind its end. -/
def farByteBinary : Wasm.Bytes :=
  [0x00, 0x61, 0x73, 0x6d, 0x01, 0x00, 0x00, 0x00, 0x05, 0x03, 0x01, 0x00, 0x01, 0x0b, 0x09, 0x01,
    0x00, 0x41, 0x80, 0x80, 0x04, 0x0b, 0x01, 0x61]

/-- Engine options without bulk operations. -/
def withoutBulk : EngineOptions := { bulkMemory := false }

/-- The module. -/
def farByte : CompiledModule :=
  { compatibility := withoutBulk.compatibility, binary := farByteBinary
    module :=
      { memories := [⟨⟨1, none⟩, false⟩]
        datas := [⟨some (0, [.i32Const 65536, .done]), [0x61]⟩] }
    codes := #[] }

/-- Matching imports are not enough where segments are looked at before they are applied. -/
theorem far_byte_is_link_error :
    let engine : Engine := { Engine.default 0 with options := withoutBulk }
    let s : Session := ⟨World.create engine { files := ⟨[], #[]⟩ }, []⟩
    s.Reachable ∧ CompiledModule.ofBinary engine.options farByteBinary = .ok farByte ∧
      engine.options.pooling = none ∧ ¬s.world.Refuses farByte [] ∧
      ∃ w', ∀ limit, s.world.instantiateWith limit farByte [] =
        some (.error (.error (.link "memory out of bounds: data segment does not fit")), w') := by
  intro engine s
  have hfar : (s.world.instantiate farByte []).1 =
      .error (.other "memory out of bounds: data segment does not fit") := by
    decide +kernel
  have hrefuses : ¬s.world.Refuses farByte [] := by
    rintro (hlength | ⟨k, i, item, hi, -, -⟩)
    · exact hlength rfl
    · cases hi
  refine ⟨.start _ _, by decide +kernel, rfl, hrefuses, (s.world.instantiate farByte []).2,
    fun limit => ?_⟩
  rcases instantiateWith_cases farByte [] s.world with ⟨hchecks, -⟩ | ⟨-, -, hnew⟩
  · exact absurd ((not_refuses_iff (by simp)).mp hrefuses) hchecks
  · rw [hnew]
    exact newInstance_other hfar limit

end WasmHost

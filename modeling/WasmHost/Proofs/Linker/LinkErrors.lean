import WasmHost.Proofs.Embedding.Fuel
import WasmHost.Proofs.Linker.Signatures
import WasmHost.Proofs.Machine.Unwinding

/-!
# Errors of instances

An instance is refused with an error before its first segment is applied, and then nothing that was
there is different. One thing can go wrong later with something other than a trap: the start
function is an import that stands for a function of a command, whose own instance is refused while
no code is at work.
-/

namespace WasmHost

open World

variable {limit : Nat} {w w' w₁ : World} {m : CompiledModule} {items : List Item} {e : Error}

/-- The function makes an instance of a command for each call. -/
def FuncBody.IsCommand : FuncBody → Prop
  | .command .. => True
  | .code .. | .host _ | .wasi _ | .idle => False

/-- The start function of a module is an import, and a function of a command is there for it. -/
def World.StartsCommand (w : World) (m : CompiledModule) (items : List Item) : Prop :=
  ∃ (k : Nat) (func : FuncAddr) (f : Func), m.module.start = some k ∧
    (items.filterMap Item.func?)[k]? = some func ∧ w.store.funcs[func]? = some f ∧
      f.body.IsCommand

namespace Operation

/-- The operation makes an instance whose start function is that of a command. -/
def StartsCommand (w : World) : Operation → Prop
  | call .. => False
  | instantiateWith m items => w.StartsCommand m items
  | instantiate l m => ∃ ds, l.resolve m (·.currentType w) = .ok ds ∧
    (Definition.toItems ds w).2.StartsCommand m (Definition.toItems ds w).1

/-- The operation makes an instance in a session: with items of its store in the order of the
imports, or through one of its linkers. -/
inductive Instantiates (s : Session) (m : CompiledModule) : Operation → Prop
  | items {items : List Item} (externs : ∀ i ∈ items, s.world.IsExtern i) :
      Instantiates s m (.instantiateWith m items)
  | names {l : Linker} (known : l ∈ s.linkers) : Instantiates s m (.instantiate l m)

end Operation

/-! ## What the start function can be -/

theorem Fault.failure_eq_error_iff {f : Fault} {otherwise : String → Error} :
    f.failure otherwise = .error e ↔ f.trap? = none ∧ e = otherwise f.message := by
  unfold failure
  cases f.trap? with
  | none => simp [eq_comm]
  | some t => simp

/-- A function without parameters and results that is called from outside and fails with no trap is
one of a command. -/
theorem World.Signed.command_of_escapes {f : Func} {func : FuncAddr} {args : List StoreVal}
    {caller : Option InstanceAddr} {fault : Fault} (signed : w.Signed)
    (hf : w.store.funcs[func]? = some f) (htype : f.type = ⟨[], []⟩)
    (h : ((Machine.idle w).enter func args caller).Escapes fault) : f.body.IsCommand := by
  obtain ⟨g, hg, hbody⟩ := h.body
  obtain rfl : f = g := by simpa [hf] using hg
  have hsigned := signed f (Array.mem_of_getElem? hf)
  unfold Func.Signed at hsigned
  cases hb : f.body with
  | command => trivial
  | wasi g =>
      rw [hb] at hsigned
      exact Wasi.type_ne_empty hsigned.2 (hsigned.1.symm.trans htype)
  | code | host | idle => simp [hb] at hbody

/-- If the start function of a new instance fails with no trap, it was imported and is one of a
command. -/
theorem World.startsCommand_of_escapes {addr : InstanceAddr} {func : FuncAddr} {fault : Fault}
    (signed : w.Signed) (supplies : w.Supplies m items) (made : m.WellMade)
    (hm : w.instantiate m items = (.ok addr, w₁)) (hs : w₁.startFunc? addr = some func)
    (h : ((Machine.idle w₁).enter func [] (some addr)).Escapes fault) :
    w.StartsCommand m items := by
  obtain ⟨i, hi, rfl, hfuncs, htyped⟩ := wellTyped_instantiate supplies made hm
  obtain ⟨f, hf, htype⟩ := htyped.start hi hs
  have hsigns := signs_instantiate i.module items w
  rw [hm] at hsigns
  have hcommand := (hsigns.signed signed).command_of_escapes hf htype h
  simp only [startFunc?, hi, Option.bind_eq_bind, Option.bind_some, Option.bind_eq_some_iff] at hs
  obtain ⟨k, hk, hfunc⟩ := hs
  rw [hfuncs] at hfunc
  rw [funcs_instantiate hm] at hf
  rcases Nat.lt_or_ge k i.module.module.importedFuncs with himported | hown
  · obtain ⟨hitem, f', hf', -⟩ := imported_funcsFor supplies made hfunc himported
    obtain ⟨hlt, -⟩ := Array.getElem?_eq_some_iff.mp hf'
    obtain rfl : f' = f := by
      rw [Array.getElem?_append_left hlt, hf'] at hf
      exact Option.some.inj hf
    exact ⟨k, func, f', hk, hitem, hf', hcommand⟩
  · -- the functions of the module itself are code
    obtain ⟨code, hcode, -⟩ := own_funcsFor supplies made hfunc hown addr
    rw [hcode] at hf
    cases hf
    exact hcommand.elim

/-! ## Errors of new instances -/

theorem World.newInstance_error (signed : w.Signed) (supplies : w.Supplies m items)
    (made : m.WellMade) (h : w.newInstance limit m items = some (.error (.error e), w')) :
    (w.Untouched w' ∧ ∀ n, w.newInstance n m items = some (.error (.error e), w')) ∨
      w.StartsCommand m items ∧ ∃ addr w₁ func fault, w.instantiate m items = (.ok addr, w₁) ∧
        w₁.startFunc? addr = some func ∧
        ((Machine.idle w₁).enter func [] (some addr)).Escapes fault ∧ e = .link fault.message := by
  rcases newInstance_cases m items w with ⟨c, w₁, hm, hanswer⟩ | ⟨addr, w₁, hm, hrest⟩
  · simp only [hanswer, Option.some.injEq, Prod.mk.injEq, Except.error.injEq] at h ⊢
    obtain ⟨hfailure, rfl⟩ := h
    obtain ⟨bare, -⟩ := Fault.failure_eq_error_iff.mp hfailure
    refine .inl ⟨?_, fun _ => ⟨hfailure, rfl⟩⟩
    cases c with
    | other text => exact untouched_of_refused hm
    | exit | code | host => cases bare
  · rcases hrest with ⟨-, hanswer⟩ | ⟨func, hs, hanswer⟩
    · simp [hanswer] at h
    · -- the start function has run, so its fault was raised somewhere
      rw [hanswer] at h
      obtain ⟨⟨r, w₂⟩, hrun, hr⟩ := Option.map_eq_some_iff.mp h
      cases r with
      | ok vals => cases hr
      | error fault =>
          obtain ⟨bare, he⟩ := Fault.failure_eq_error_iff.mp
            (Except.error.inj (congrArg Prod.fst hr))
          have framed := Machine.framed_enter w₁ func [] (some addr)
          have hescapes := (framed.ends_iff_escapes bare).mp ⟨w₂, limit, hrun⟩
          exact .inr ⟨startsCommand_of_escapes signed supplies made hm hs hescapes, addr, w₁, func,
            fault, hm, hs, hescapes, he⟩

/-- Items whose types at the moment fit suit the imports. -/
theorem World.supplies_of_fitTypes {types : List ItemType}
    (hlength : m.signature.imports.length = types.length)
    (htypes : items.map w.currentType? = types.map some)
    (hfit : fitTypes m.signature.imports types = .ok ()) : w.Supplies m items := by
  rw [fitTypes_ok_iff hlength] at hfit
  unfold Supplies
  generalize m.signature.imports = imports at hfit
  clear hlength
  induction hfit generalizing items with
  | nil =>
      obtain rfl : items = [] := List.map_eq_nil_iff.mp htypes
      exact .nil
  | cons hfirst _ ih =>
      cases items with
      | nil => cases htypes
      | cons item items =>
          obtain ⟨htype, htypes⟩ := List.cons_eq_cons.mp htypes
          exact .cons ((suits_of_currentType? htype).of_fit hfirst) (ih htypes)

theorem World.supplies_of_checks (externs : ∀ i ∈ items, w.IsExtern i)
    (kinds : positionalError? m.signature.imports items = none)
    (fits : w.fit m.signature.imports items = .ok ()) : w.Supplies m items :=
  ((checks_pass_iff externs).mp ⟨kinds, fits⟩).imp fun _ _ hmatch => hmatch.suits

theorem Linker.supplies_of_currentTypes {l : Linker} {ds : List Definition}
    (hds : ∀ d ∈ ds, d.InStore w) (h : l.resolve m (·.currentType w) = .ok ds) :
    (Definition.toItems ds w).2.Supplies m (Definition.toItems ds w).1 := by
  obtain ⟨hfound, hfit⟩ := resolve_ok h
  have hlength : m.signature.imports.length = (ds.map (·.currentType w)).length := by
    rw [List.length_map, hfound.length_eq]
  refine supplies_of_fitTypes hlength ?_ hfit
  rw [Definition.currentTypes_toItems hds, List.map_map]
  rfl

/-! ## Errors of operations -/

/-- Items in order are refused before the store is changed, or else their module is. -/
theorem World.instantiateWith_error (signed : w.Signed) (made : m.WellMade)
    (externs : ∀ i ∈ items, w.IsExtern i)
    (h : w.instantiateWith limit m items = some (.error (.error e), w')) :
    (w.Untouched w' ∧ ∀ n, w.instantiateWith n m items = some (.error (.error e), w')) ∨
      w.StartsCommand m items ∧ ∃ m₀ fault, (Operation.instantiateWith m items).Starts w m₀ ∧
        m₀.Escapes fault ∧ e = .link fault.message := by
  rcases instantiateWith_cases m items w with ⟨-, reason, hrefused⟩ | ⟨kinds, fits, hnew⟩
  · simp only [hrefused, Option.some.injEq, Prod.mk.injEq] at h ⊢
    obtain ⟨hreason, rfl⟩ := h
    exact .inl ⟨.refl w, fun _ => ⟨hreason, rfl⟩⟩
  · simp only [hnew] at h ⊢
    have supplies := supplies_of_checks externs kinds fits
    rcases newInstance_error signed supplies made h with
      hclean | ⟨hstarts, addr, w₁, func, fault, hm, hs, hescapes, he⟩
    · exact .inl hclean
    · exact .inr ⟨hstarts, _, fault, .instantiateWith kinds fits hm hs, hescapes, he⟩

/-- So are items that a linker finds; the store gets the functions that the linker makes first. -/
theorem Linker.instantiate_error {l : Linker} (signed : w.Signed) (made : m.WellMade)
    (hl : l.Signed w) (hstore : l.InStore w)
    (h : l.instantiate limit m w = some (.error (.error e), w')) :
    (w.Untouched w' ∧ ∀ n, l.instantiate n m w = some (.error (.error e), w')) ∨
      (Operation.instantiate l m).StartsCommand w ∧ ∃ m₀ fault,
        (Operation.instantiate l m).Starts w m₀ ∧ m₀.Escapes fault ∧ e = .link fault.message := by
  simp only [instantiate] at h ⊢
  cases hr : l.resolve m (·.currentType w) with
  | error reason =>
      simp only [hr, Option.some.injEq, Prod.mk.injEq] at h ⊢
      obtain ⟨hreason, rfl⟩ := h
      exact .inl ⟨.refl w, fun _ => ⟨hreason, rfl⟩⟩
  | ok ds =>
      simp only [hr] at h ⊢
      have hds : ∀ d ∈ ds, d.InStore w := by
        intro d hd
        obtain ⟨n, hn⟩ := exists_find?_of_resolve hr d hd
        exact hstore n d hn
      have hitems := Definition.signs_toItems (signed_of_resolve hl hr)
      have supplies := supplies_of_currentTypes hds hr
      rcases newInstance_error (hitems.1.signed signed) supplies made h with
        ⟨hclean, hall⟩ | ⟨hstarts, addr, w₁, func, fault, hm, hs, hescapes, he⟩
      · exact .inl ⟨(Definition.untouched_toItems ds w).trans hclean, hall⟩
      · exact .inr ⟨⟨ds, hr, hstarts⟩, _, fault, .instantiate hr rfl hm hs, hescapes, he⟩

theorem map_eq_error_iff {a : Option (Except Failure InstanceAddr × World)} :
    (a.map fun (r, w) => (r.map fun _ => (), w)) =
        (some (.error (.error e), w') : Option (Except Failure Unit × World)) ↔
      a = some (.error (.error e), w') := by
  rcases a with - | ⟨- | -, -⟩ <;> simp [Except.map]

/-- An operation that makes an instance fails with an error in two ways. As a rule no code has run:
whatever limit is set, the answer is the same, and the store that is left has at most more objects
than before, with every global, table and memory, the fuel and the log as they were. Otherwise the
start function is an import that is a function of a command, and the fault was raised in its run
with no code and no host function at work. -/
theorem link_error_leaves_no_trace {s : Session} {o : Operation} (reachable : s.Reachable)
    (compiled : m.IsCompiled) (instantiates : o.Instantiates s m)
    (refused : o.perform limit s.world = some (.error (.error e), w')) :
    (s.world.Untouched w' ∧ ∀ n, o.perform n s.world = some (.error (.error e), w')) ∨
      o.StartsCommand s.world ∧ ∃ m₀ fault, o.Starts s.world m₀ ∧ m₀.Escapes fault ∧
        e = .link fault.message := by
  obtain ⟨options, bytes, hbinary⟩ := compiled
  have made := CompiledModule.wellMade_ofBinary hbinary
  obtain ⟨signed, linkers⟩ := reachable.signed
  cases instantiates with
  | items externs =>
      simp only [Operation.perform, map_eq_error_iff] at refused ⊢
      exact instantiateWith_error signed made externs refused
  | @names l known =>
      simp only [Operation.perform, map_eq_error_iff] at refused ⊢
      exact l.instantiate_error signed made (linkers l known) (reachable.inStore l known) refused

/-- A session with a new store. -/
def newSession : Session := ⟨World.create (.default 0) { files := ⟨[], #[]⟩ }, []⟩

theorem surplus_item_leaves_no_trace :
    let o : Operation := .instantiateWith emptyFunction [.module emptyFunction]
    let e : Error := .link "expected 0 imports, found 1"
    o.perform 0 newSession.world = some (.error (.error e), newSession.world) ∧
      ((newSession.world.Untouched newSession.world ∧
        ∀ n, o.perform n newSession.world = some (.error (.error e), newSession.world)) ∨
      o.StartsCommand newSession.world ∧ ∃ m₀ fault, o.Starts newSession.world m₀ ∧
        m₀.Escapes fault ∧ e = .link fault.message) := by
  intro o e
  have refused : o.perform 0 newSession.world = some (.error (.error e), newSession.world) := rfl
  refine ⟨refused, link_error_leaves_no_trace (.start _ _) isCompiled_emptyFunction (.items ?_)
    refused⟩
  intro i hi
  rw [List.mem_singleton.mp hi]
  trivial

end WasmHost

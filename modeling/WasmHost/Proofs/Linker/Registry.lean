import WasmHost.Linker.Module
import WasmHost.Proofs.Linker.Definitions

/-!
# The registry of a linker

`LinkerCall` is any operation that works on the names of a linker, and `Linker.History` is a
sequence of them, each in a world of its own. What a name stands for after a history is the latest
insertion under that very name: an operation that fails, at once or halfway, inserts what it took
before it failed and nothing else.
-/

namespace WasmHost

/-- An operation on the names of a linker. -/
inductive LinkerCall where
  | allowShadowing (allow : Bool)
  | define (name : LinkName) (item : Item)
  | defineFunc (name : LinkName) (type : FuncType) (ops : List HostOp)
  | defineInstance (module : String) (addr : InstanceAddr)
  | defineWasi
  | defineModule (limit : Nat) (module : String) (code : CompiledModule)

namespace LinkerCall

/-- The answer of a definition. One that is refused leaves the linker and the world as they were. -/
def settle (l : Linker) (w : World) :
    Except Error (Linker × Shared) → Except Failure Unit × Linker × World
  | .ok (l, shared) => (.ok (), l, { w with shared })
  | .error e => (.error (.error e), l, w)

/-- Carries an operation out; `none` if the code that it runs takes too long. -/
def run (l : Linker) (w : World) :
    LinkerCall → Option (Except Failure Unit × Linker × World)
  | allowShadowing allow => some (.ok (), l.allowShadowing allow, w)
  | define n item => some (settle l w (l.defineItem n item w))
  | defineFunc n type ops => some (settle l w (l.defineFunc n type ops w.shared))
  | defineInstance module addr =>
    let (r, l, w) := l.defineInstance module addr w
    some (r.mapError .error, l, w)
  | defineWasi =>
    let (r, l, shared) := l.defineWasi w.shared
    some (r.mapError .error, l, { w with shared })
  | defineModule limit module m => l.defineModule limit module m w

end LinkerCall

namespace Linker

/-! ## The insertions of an operation -/

/-- What the functions of the system interface are offered as. -/
def wasiDefinitions : List (LinkName × Definition) :=
  Wasi.functions.map fun f => (⟨Wasi.moduleName, f.name⟩, .wasi f)

/-- The insertions that the functions of a command make. -/
def commandInsertions (module : String) (m : CompiledModule) :
    List ExportType → Linker → World → List (LinkName × Definition)
  | [], _, _ => []
  | e :: rest, l, w =>
    match e.type with
    | .func type =>
      match l.resolve m Definition.type with
      | .error _ => []
      | .ok ds =>
        let (items, w) := Definition.toItems ds w
        let (a, w) := w.newFunc type (.command m items e.name)
        match l.define ⟨module, e.name⟩ (.item (.func a) (.func type)) w.shared with
        | .ok (l, shared) =>
          (⟨module, e.name⟩, .item (.func a) (.func type))
            :: commandInsertions module m rest l { w with shared }
        | .error _ => []
    | .global _ | .table _ | .memory _ =>
      if ModuleRole.isLeftOut e then commandInsertions module m rest l w else []

/-- The insertions that the exports of a reactor make, once it is ready. -/
def reactorInsertions (limit : Nat) (module : String) (m : CompiledModule) (l : Linker)
    (w : World) : List (LinkName × Definition) :=
  match l.instantiate limit m w with
  | some (.ok addr, w) =>
    match w.runInitialize limit addr with
    | some (.ok (), w) => l.taken (exportDefinitions module addr w)
    | _ => []
  | _ => []

end Linker

/-- The insertions that an operation makes, in order. -/
def LinkerCall.insertions (l : Linker) (w : World) : LinkerCall → List (LinkName × Definition)
  | allowShadowing _ => []
  | define n item =>
    match w.currentType? item with
    | some type => l.taken [(n, .item item type)]
    | none => []
  | defineFunc n type ops => l.taken [(n, .host type ops (w.shared.newClosure ops).1)]
  | defineInstance module addr => l.taken (Linker.exportDefinitions module addr w)
  | defineWasi => l.taken Linker.wasiDefinitions
  | defineModule limit module m =>
    match ModuleRole.of m.signature.exports with
    | .error _ => []
    | .ok .reactor => l.reactorInsertions limit module m w
    | .ok .command => Linker.commandInsertions module m m.signature.exports l w

/-- Whether shadowing is allowed after an operation. -/
def LinkerCall.shadowing (l : Linker) : LinkerCall → Bool
  | allowShadowing allow => allow
  | _ => l.allowsShadowing

namespace Linker

variable {l l' : Linker} {w w' : World} {n : LinkName} {d : Definition}

theorem define_linker {s : Shared} {p : Linker × Shared} (h : l.define n d s = .ok p) :
    l.takes n ∧ p.1 = l.insert n d := by
  cases ht : l.takes n with
  | true =>
      obtain ⟨s₁, hd⟩ := define_of_takes (s := s) ht d
      rw [hd] at h
      cases h
      exact ⟨rfl, rfl⟩
  | false =>
      rw [define_of_not_takes ht] at h
      cases h

theorem define_refused {s : Shared} {e : String} (h : l.define n d s = .error e) :
    l.takes n = false ∧ e = definedTwice n := by
  cases ht : l.takes n with
  | true =>
      obtain ⟨s₁, hd⟩ := define_of_takes (s := s) ht d
      rw [hd] at h
      cases h
  | false =>
      rw [define_of_not_takes ht] at h
      cases h
      exact ⟨rfl, rfl⟩

/-- One definition, taken or refused. -/
theorem settle_define (l : Linker) (w : World) (s : Shared) (n : LinkName) (d : Definition) :
    (LinkerCall.settle l w ((l.define n d s).mapError .link)).2.1 =
      l.insertAll (l.taken [(n, d)]) := by
  cases h : l.define n d s with
  | ok p =>
      obtain ⟨l', s'⟩ := p
      obtain ⟨ht, hl⟩ := define_linker h
      rw [taken, if_pos ht]
      exact hl
  | error e =>
      obtain ⟨ht, -⟩ := define_refused h
      rw [taken, ht]
      rfl

theorem takesAll_commandInsertions (module : String) (m : CompiledModule) (es : List ExportType)
    (l : Linker) (w : World) : TakesAll (commandInsertions module m es l w) l := by
  induction es generalizing l w with
  | nil => trivial
  | cons e es ih =>
      unfold commandInsertions
      split
      · split
        · trivial
        · dsimp only
          split
          · rename_i hd
            obtain ⟨ht, hl⟩ := define_linker hd
            dsimp only at hl
            subst hl
            exact ⟨ht, ih _ _⟩
          · trivial
      all_goals
        split
        · exact ih l w
        · trivial

theorem defineCommand_linker (module : String) (m : CompiledModule) (es : List ExportType)
    (l : Linker) (w : World) :
    (defineCommand module m es l w).2.1 = l.insertAll (commandInsertions module m es l w) := by
  induction es generalizing l w with
  | nil => rfl
  | cons e es ih =>
      simp only [defineCommand, commandInsertions]
      cases e.type with
      | func type =>
          cases l.resolve m Definition.type with
          | error reason => rfl
          | ok ds =>
              dsimp only
              generalize hd : l.define _ _ _ = answer
              cases answer with
              | ok p =>
                  obtain ⟨-, hl⟩ := define_linker hd
                  dsimp only
                  rw [ih, hl]
                  rfl
              | error reason => rfl
      | global | table | memory =>
          dsimp only
          split
          · exact ih l w
          · rfl

theorem defineInstance_linker (module : String) (addr : InstanceAddr) (l : Linker) (w : World) :
    (l.defineInstance module addr w).2.1 =
      l.insertAll (l.taken (exportDefinitions module addr w)) :=
  defineAll_linker _ l w.shared

theorem defineWasi_linker (l : Linker) (s : Shared) :
    (l.defineWasi s).2.1 = l.insertAll (l.taken wasiDefinitions) :=
  defineAll_linker wasiDefinitions l s

/-- A reactor fails with its instance or its `_initialize` and leaves the linker as it was, or its
exports are defined. -/
theorem defineReactor_cases {limit : Nat} {module : String} {m : CompiledModule}
    {r : Except Failure Unit} (h : l.defineReactor limit module m w = some (r, l', w')) :
    (∃ f, l.instantiate limit m w = some (.error f, w') ∧ r = .error f ∧ l' = l) ∨
    (∃ addr w₁ f, l.instantiate limit m w = some (.ok addr, w₁) ∧
      w₁.runInitialize limit addr = some (.error f, w') ∧ r = .error f ∧ l' = l) ∨
    ∃ addr w₁ w₂, l.instantiate limit m w = some (.ok addr, w₁) ∧
      w₁.runInitialize limit addr = some (.ok (), w₂) ∧
      r = (l.defineInstance module addr w₂).1.mapError .error ∧
      (l.defineInstance module addr w₂).2 = (l', w') := by
  simp only [defineReactor, Option.bind_eq_bind, Option.bind_eq_some_iff] at h
  obtain ⟨⟨r₁, w₁⟩, hi, h⟩ := h
  cases r₁ with
  | error f =>
      cases h
      exact .inl ⟨f, hi, rfl, rfl⟩
  | ok addr =>
      simp only [Option.bind_eq_some_iff] at h
      obtain ⟨⟨r₂, w₂⟩, hr, h⟩ := h
      cases r₂ with
      | error f =>
          cases h
          exact .inr (.inl ⟨addr, w₁, f, hi, hr, rfl, rfl⟩)
      | ok u =>
          cases h
          exact .inr (.inr ⟨addr, w₁, w₂, hi, hr, rfl, rfl⟩)

theorem defineReactor_linker {limit : Nat} {module : String} {m : CompiledModule}
    {r : Except Failure Unit} (h : l.defineReactor limit module m w = some (r, l', w')) :
    l' = l.insertAll (l.reactorInsertions limit module m w) := by
  unfold reactorInsertions
  rcases defineReactor_cases h with ⟨f, hi, -, rfl⟩ | ⟨addr, w₁, f, hi, hr, -, rfl⟩ |
    ⟨addr, w₁, w₂, hi, hr, -, hd⟩
  · rw [hi]
    rfl
  · simp only [hi, hr]
    rfl
  · simp only [hi, hr]
    rw [← defineInstance_linker module addr l w₂, hd]

end Linker

namespace LinkerCall

variable {c : LinkerCall} {l l' : Linker} {w w' : World} {r : Except Failure Unit}

/-- An operation makes its insertions and no other change, whether it succeeds or fails. -/
theorem run_linker (h : c.run l w = some (r, l', w')) :
    l' = { l.insertAll (c.insertions l w) with allowsShadowing := c.shadowing l } := by
  -- all but the first case insert and keep the mode, which insertions leave alone
  have hkeeps (ds : List (LinkName × Definition)) (hl : l' = l.insertAll ds) :
      l' = { l.insertAll ds with allowsShadowing := l.allowsShadowing } := by
    rw [hl, ← Linker.allowsShadowing_insertAll ds l]
  cases c with
  | allowShadowing allow =>
      cases h
      rfl
  | define n item =>
      refine hkeeps _ ?_
      simp only [run, Linker.defineItem, Option.some.injEq] at h
      simp only [insertions]
      cases hi : w.currentType? item with
      | some type =>
          simp only [hi] at h
          rw [← Linker.settle_define l w, h]
      | none =>
          simp only [hi] at h
          cases h
          rfl
  | defineFunc n type ops =>
      refine hkeeps _ ?_
      simp only [run, Linker.defineFunc, Option.some.injEq] at h
      rw [insertions, ← Linker.settle_define l w, h]
  | defineInstance module addr =>
      cases h
      exact hkeeps _ (Linker.defineInstance_linker module addr l w)
  | defineWasi =>
      cases h
      exact hkeeps _ (Linker.defineWasi_linker l w.shared)
  | defineModule limit module m =>
      refine hkeeps _ ?_
      simp only [run, Linker.defineModule] at h
      simp only [insertions]
      cases hr : ModuleRole.of m.signature.exports with
      | error reason =>
          simp only [hr] at h
          cases h
          rfl
      | ok role =>
          simp only [hr] at h
          cases role with
          | reactor => exact Linker.defineReactor_linker h
          | command =>
              cases h
              exact Linker.defineCommand_linker module m _ l w

/-- The linker takes each of the insertions when its turn comes. -/
theorem takesAll_insertions (c : LinkerCall) (l : Linker) (w : World) :
    Linker.TakesAll (c.insertions l w) l := by
  cases c with
  | allowShadowing allow => trivial
  | define n item =>
      simp only [insertions]
      split
      · exact Linker.takesAll_taken _ l
      · trivial
  | defineFunc | defineInstance | defineWasi => exact Linker.takesAll_taken _ l
  | defineModule limit module m =>
      simp only [insertions]
      split
      · trivial
      · unfold Linker.reactorInsertions
        split
        · split
          · exact Linker.takesAll_taken _ l
          · trivial
        · trivial
      · exact Linker.takesAll_commandInsertions module m _ l w

/-! ## What a name stands for after an operation -/

theorem run_find? (h : c.run l w = some (r, l', w')) (n : LinkName) :
    l'.find? n = (Linker.latest? n (c.insertions l w)).or (l.find? n) := by
  rw [run_linker h]
  exact Linker.find?_insertAll _ l n

theorem run_isSome_find? (h : c.run l w = some (r, l', w')) {n : LinkName}
    (hn : (l.find? n).isSome) : (l'.find? n).isSome := by
  rw [run_find? h, Option.isSome_or, hn, Bool.or_true]

theorem run_find?_of_unshadowed (h : c.run l w = some (r, l', w')) {n : LinkName}
    (hs : l.allowsShadowing = false) (hn : (l.find? n).isSome) : l'.find? n = l.find? n := by
  rw [run_find? h, (takesAll_insertions c l w).latest?_eq_none hs hn, Option.none_or]

theorem run_define_ok {n : LinkName} {item : Item}
    (h : (define n item).run l w = some (.ok (), l', w')) :
    ∃ type, w.currentType? item = some type ∧ l' = l.insert n (.item item type) := by
  simp only [run, Linker.defineItem, Option.some.injEq] at h
  split at h
  · rename_i type htype
    refine ⟨type, htype, ?_⟩
    generalize hd : l.define _ _ _ = answer at h
    cases answer with
    | ok p =>
        cases h
        exact (Linker.define_linker hd).2
    | error e => cases h
  · cases h

end LinkerCall

namespace Linker

variable {l l' : Linker} {n k : LinkName}

theorem get?_insert_item (l : Linker) (n : LinkName) (item : Item) (type : ItemType) (w : World) :
    (l.insert n (.item item type)).get? n w =
      (if item.isSharedMemory then none else some item, w) := by
  simp only [get?, find?_insert_self]
  rfl

theorem get?_congr (h : l'.find? n = l.find? n) (w : World) : l'.get? n w = l.get? n w := by
  simp only [get?, h]

/-- What cannot be defined is refused, and so is a name that is taken. -/
theorem defineItem_refused {item : Item} {w : World}
    (h : l.takes n = false ∨ item.instance?.isSome ∨ item.module?.isSome) :
    ∃ e, l.defineItem n item w = .error (.link e) := by
  unfold defineItem
  cases ht : w.currentType? item with
  | none => exact ⟨_, rfl⟩
  | some type =>
      rcases h with h | h | h
      · exact ⟨definedTwice n, by simp only [define_of_not_takes h]; rfl⟩
      · cases item <;> cases h
        cases ht
      · cases item <;> cases h
        cases ht

/-! ## Sequences of operations -/

/-- A sequence of operations on a linker, each in some world, and the insertions that they made. -/
inductive History (l₀ : Linker) : List (LinkName × Definition) → Linker → Prop
  | start : History l₀ [] l₀
  | call {ins : List (LinkName × Definition)} {l l' : Linker} {c : LinkerCall} {w w' : World}
      {r : Except Failure Unit} (before : History l₀ ins l) (done : c.run l w = some (r, l', w')) :
      History l₀ (ins ++ c.insertions l w) l'

theorem History.find? {l₀ : Linker} {ins : List (LinkName × Definition)} (h : History l₀ ins l)
    (n : LinkName) : l.find? n = (latest? n ins).or (l₀.find? n) := by
  induction h with
  | start => rfl
  | call _ done ih => rw [LinkerCall.run_find? done, ih, latest?_append, Option.or_assoc]

/-- After any operations, succeeding or failing, a name stands for what the latest insertion under
it says. No operation takes a name away, and without shadowing none changes what a name stands for.
An item that was defined is what the linker gives under that name, shared memories aside, and all
other names give what they gave. A definition that is refused changes nothing. -/
theorem registry_law {l₀ l : Linker} {ins : List (LinkName × Definition)} (h : History l₀ ins l)
    (n : LinkName) :
    l.find? n = (latest? n ins).or (l₀.find? n) ∧
    (∀ (c : LinkerCall) w r l' w', c.run l w = some (r, l', w') →
      ((l.find? n).isSome → (l'.find? n).isSome) ∧
      (l.allowsShadowing = false → (l.find? n).isSome → l'.find? n = l.find? n)) ∧
    (∀ item w l' w', (LinkerCall.define n item).run l w = some (.ok (), l', w') →
      (∀ w, l'.get? n w = (if item.isSharedMemory then none else some item, w)) ∧
      ∀ k, k ≠ n → ∀ w, l'.get? k w = l.get? k w) ∧
    ∀ item w, (l.allowsShadowing = false ∧ (l.find? n).isSome) ∨ item.instance?.isSome ∨
        item.module?.isSome →
      ∃ e, (LinkerCall.define n item).run l w = some (.error (.error (.link e)), l, w) := by
  refine ⟨h.find? n, ?_, ?_, ?_⟩
  · intro c w r l' w' hc
    exact ⟨LinkerCall.run_isSome_find? hc, LinkerCall.run_find?_of_unshadowed hc⟩
  · intro item w l' w' hd
    obtain ⟨type, -, rfl⟩ := LinkerCall.run_define_ok hd
    exact ⟨get?_insert_item l n item type, fun k hk => get?_congr (find?_insert_of_ne hk)⟩
  · intro item w hrefused
    have hcause : l.takes n = false ∨ item.instance?.isSome ∨ item.module?.isSome :=
      hrefused.imp_left fun ⟨hs, hn⟩ => takes_eq_false hs hn
    obtain ⟨e, he⟩ := defineItem_refused (w := w) hcause
    exact ⟨e, by simp only [LinkerCall.run, he, LinkerCall.settle]⟩

/-- A store with two globals. -/
def twoGlobals : World :=
  { store :=
      { engine := .default 0, signal := 0
        globals := #[⟨⟨.i32, false⟩, .i32 1⟩, ⟨⟨.i64, false⟩, .i64 2⟩] }
    shared := { files := ⟨[], #[]⟩ } }

/-- The second definition of a name is refused until shadowing is allowed. -/
theorem registry_law_of_redefinition : ∃ l ins,
    History {} ins l ∧
    ins = [(⟨"", "x"⟩, .item (.global 0) (.global ⟨.i32, false⟩)),
      (⟨"", "x"⟩, .item (.global 1) (.global ⟨.i64, false⟩))] ∧
    l.find? ⟨"", "x"⟩ = some (.item (.global 1) (.global ⟨.i64, false⟩)) ∧
    l.find? ⟨"x", ""⟩ = none := by
  have first : History {} _ _ :=
    .call (c := .define ⟨"", "x"⟩ (.global 0)) (w := twoGlobals) .start rfl
  have refused : History {} _ _ :=
    .call (c := .define ⟨"", "x"⟩ (.global 1)) (w := twoGlobals) first rfl
  have allowed : History {} _ _ := .call (c := .allowShadowing true) (w := twoGlobals) refused rfl
  have second : History {} _ _ :=
    .call (c := .define ⟨"", "x"⟩ (.global 1)) (w := twoGlobals) allowed rfl
  exact ⟨_, _, second, rfl, (registry_law second _).1, (registry_law second _).1⟩

end Linker

end WasmHost

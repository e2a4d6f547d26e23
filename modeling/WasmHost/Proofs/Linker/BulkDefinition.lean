import WasmHost.Proofs.Linker.Registry

/-!
# Definitions in bulk

The exports of an instance, and the functions of the system interface, are defined one behind the
other. The first name that is taken ends the operation; what was defined before it stays.
-/

namespace WasmHost

open Linker

/-- The definitions that an operation offers to the linker in bulk. -/
def LinkerCall.offered (w : World) : LinkerCall → Option (List (LinkName × Definition))
  | defineInstance module addr => some (exportDefinitions module addr w)
  | defineWasi => some wasiDefinitions
  | _ => none

/-- What comes before the complaint of a bulk operation about a name. -/
def LinkerCall.complaint : LinkerCall → String
  | defineWasi => "Failed to define WASI imports: "
  | _ => ""

/-- The definitions are cut where the linker stops taking them: each before the cut was new, and the
one at the cut was there before, be it from one of them. -/
structure Linker.Clash (l : Linker) (ds before : List (LinkName × Definition)) (n : LinkName) :
    Prop where
  cut : ∃ d after, ds = before ++ (n, d) :: after
  new : ∀ e ∈ before, l.find? e.1 = none
  distinct : (before.map (·.1)).Nodup
  taken : (l.find? n).isSome ∨ n ∈ before.map (·.1)

namespace Linker

variable {l : Linker} {s : Shared} {e : String} {ds : List (LinkName × Definition)}

theorem Clash.cons {d : LinkName × Definition} {before : List (LinkName × Definition)}
    {n : LinkName} (hd : l.find? d.1 = none) (h : (l.insert d.1 d.2).Clash ds before n) :
    l.Clash (d :: ds) (d :: before) n where
  cut := by
    obtain ⟨d', after, hds⟩ := h.cut
    exact ⟨d', after, by rw [hds]; rfl⟩
  new := by
    intro e he
    rcases List.mem_cons.mp he with rfl | he
    · exact hd
    · exact (find?_insert_eq_none.mp (h.new e he)).2
  distinct := by
    rw [List.map_cons, List.nodup_cons]
    refine ⟨fun hmem => ?_, h.distinct⟩
    obtain ⟨e, he, heq⟩ := List.mem_map.mp hmem
    exact (find?_insert_eq_none.mp (h.new e he)).1 heq
  taken := by
    rw [List.map_cons, List.mem_cons]
    by_cases hn : n = d.1
    · exact .inr (.inl hn)
    · rcases h.taken with hfound | hmem
      · rw [find?_insert_of_ne hn] at hfound
        exact .inl hfound
      · exact .inr (.inr hmem)

/-- A bulk operation fails at the first name that is taken. -/
theorem defineAll_refused (h : (l.defineAll ds s).1 = .error e) :
    l.allowsShadowing = false ∧ ∃ n, e = definedTwice n ∧ l.Clash ds (l.taken ds) n := by
  induction ds generalizing l s with
  | nil => cases h
  | cons d ds ih =>
      obtain ⟨n, d⟩ := d
      unfold defineAll at h
      cases ht : l.takes n with
      | true =>
          obtain ⟨s', hd⟩ := define_of_takes (s := s) ht d
          rw [hd] at h
          obtain ⟨hs, n', he, hclash⟩ := ih h
          have hfree : l.find? n = none := by
            rw [allowsShadowing_insert] at hs
            simpa [takes, hs] using ht
          rw [taken, if_pos ht]
          exact ⟨hs, n', he, hclash.cons hfree⟩
      | false =>
          rw [define_of_not_takes ht] at h
          cases h
          obtain ⟨hs, hfound⟩ : l.allowsShadowing = false ∧ (l.find? n).isSome := by
            simpa [takes, Option.isSome_iff_ne_none] using ht
          refine ⟨hs, n, rfl, ?_⟩
          rw [taken, ht]
          exact ⟨⟨d, ds, rfl⟩, by simp, by simp, .inl hfound⟩

end Linker

variable {c : LinkerCall} {l l' : Linker} {w w' : World} {ds : List (LinkName × Definition)}

theorem LinkerCall.run_of_offered (bulk : c.offered w = some ds) (l : Linker) :
    c.run l w = some (
      (l.defineAll ds w.shared).1.mapError fun e => .error (.link (c.complaint ++ e)),
      (l.defineAll ds w.shared).2.1, { w with shared := (l.defineAll ds w.shared).2.2 }) := by
  cases c <;> cases bulk
  case defineInstance module addr =>
    simp only [run, Linker.defineInstance, complaint, String.empty_append]
    cases (l.defineAll (exportDefinitions module addr w) w.shared).1 <;> rfl
  case defineWasi =>
    simp only [run, Linker.defineWasi, complaint, ← wasiDefinitions.eq_def]
    cases (l.defineAll wasiDefinitions w.shared).1 <;> rfl

/-- A bulk operation that fails has defined what it offered before the first name that was taken,
and nothing else; whatever was defined before is what it was. -/
theorem refused_bulk_definition_keeps_prefix {f : Failure} (bulk : c.offered w = some ds)
    (refused : c.run l w = some (.error f, l', w')) :
    l.allowsShadowing = false ∧ ∃ n before,
      f = .error (.link (c.complaint ++ definedTwice n)) ∧ l.Clash ds before n ∧
      l' = l.insertAll before ∧
      ∀ k, l'.find? k = (latest? k before).or (l.find? k) ∧
        ((l.find? k).isSome → l'.find? k = l.find? k) := by
  have hold {k : LinkName} := LinkerCall.run_find?_of_unshadowed (n := k) refused
  rw [LinkerCall.run_of_offered bulk] at refused
  cases hr : (l.defineAll ds w.shared).1 with
  | ok u =>
      rw [hr] at refused
      cases refused
  | error e =>
      obtain ⟨hs, n, he, hclash⟩ := defineAll_refused hr
      rw [hr, defineAll_linker] at refused
      cases refused
      refine ⟨hs, n, l.taken ds, by rw [he], hclash, rfl, fun k => ⟨find?_insertAll _ l k, hold hs⟩⟩

/-- A store with an instance that exports its function under two names. -/
def twoExports : World :=
  { store :=
      { engine := .default 0, signal := 0, funcs := #[⟨⟨[], []⟩, .idle⟩]
        instances := #[{
          module := .make {} [] {} [], funcs := #[0], globals := #[], tables := #[],
          memories := #[], exports := [("a", .func 0), ("b", .func 0)], droppedElems := #[],
          droppedDatas := #[] }] }
    shared := { files := ⟨[], #[]⟩ } }

/-- What the function of that store is defined as. -/
def anyFunc : Definition := .item (.func 0) (.func ⟨[], []⟩)

theorem refused_instance_keeps_prefix :
    (LinkerCall.defineInstance "x" 0).run (({} : Linker).insert ⟨"x", "b"⟩ anyFunc) twoExports =
      some (.error (.error (.link "import of `x::b` defined twice")),
        (({} : Linker).insert ⟨"x", "b"⟩ anyFunc).insert ⟨"x", "a"⟩ anyFunc, twoExports) ∧
    ∃ n before, (({} : Linker).insert ⟨"x", "b"⟩ anyFunc).Clash
        [(⟨"x", "a"⟩, anyFunc), (⟨"x", "b"⟩, anyFunc)] before n ∧
      (({} : Linker).insert ⟨"x", "b"⟩ anyFunc).insert ⟨"x", "a"⟩ anyFunc =
        (({} : Linker).insert ⟨"x", "b"⟩ anyFunc).insertAll before := by
  have refused : (LinkerCall.defineInstance "x" 0).run (({} : Linker).insert ⟨"x", "b"⟩ anyFunc)
      twoExports = some (.error (.error (.link "import of `x::b` defined twice")),
        (({} : Linker).insert ⟨"x", "b"⟩ anyFunc).insert ⟨"x", "a"⟩ anyFunc, twoExports) := rfl
  obtain ⟨-, n, before, -, clash, kept, -⟩ := refused_bulk_definition_keeps_prefix rfl refused
  exact ⟨refused, n, before, clash, kept⟩

/-- The definitions that were made before the clash are not taken back: one export of an instance,
and the functions of the system interface up to the one whose name is taken. -/
theorem refused_bulk_definition_changes_registry :
    (∃ l l' w w' module addr f, l.allowsShadowing = false ∧
      (LinkerCall.defineInstance module addr).run l w = some (.error f, l', w') ∧
      l.find? ⟨module, "a"⟩ = none ∧ (l'.find? ⟨module, "a"⟩).isSome) ∧
    ∃ l l' w w' f, l.allowsShadowing = false ∧
      LinkerCall.defineWasi.run l w = some (.error f, l', w') ∧
      l.find? ⟨Wasi.moduleName, "args_get"⟩ = none ∧
      (l'.find? ⟨Wasi.moduleName, "args_get"⟩).isSome := by
  constructor
  · exact ⟨({} : Linker).insert ⟨"x", "b"⟩ anyFunc, _, twoExports, _, "x", 0, _, rfl, rfl, rfl, rfl⟩
  · exact ⟨({} : Linker).insert ⟨Wasi.moduleName, "environ_get"⟩ anyFunc, _, twoExports, _, _,
      rfl, rfl, rfl, rfl⟩

end WasmHost

import WasmHost.Proofs.Wasm.Constants

/-!
# Modules are read back

What a module shows to others, its imports and exports and all that their types are told by, stands in
the sections that come first, and in the section for names. Whatever binary a module is written to, if
that can be read at all, the module that is read shows the same.
-/

namespace WasmHost.Wasm

open Reader

/-- The part of a module that its imports, its exports and its name depend on. -/
def Module.face (m : Module) : Module :=
  { types := m.types, imports := m.imports, funcs := m.funcs, tables := m.tables
    memories := m.memories, globals := m.globals, exports := m.exports
    names := { module := m.names.module } }

variable {α : Type} {bytes more rest : Bytes} {place fuel : Nat} {F G H : Module → Prop}

/-! ## Sections one after the other -/

theorem run_within {r : Reader α} {a : α} {j : Input}
    (h : (within bytes.length r).run ⟨place, bytes ++ rest⟩ = some (a, j)) :
    ∃ k, r.run ⟨place, bytes⟩ = some (a, k) ∧ k.bytes = [] ∧ j = ⟨place + bytes.length, rest⟩ := by
  obtain ⟨i, i', hi, h⟩ := run_bind_eq_some.mp h
  cases hi
  obtain ⟨taken, i', htake, h⟩ := run_bind_eq_some.mp h
  obtain ⟨rfl, rfl⟩ := Finds.take bytes _ _ _ _ htake
  split at h
  · rename_i a' k hrun
    split at h
    · rename_i hempty
      cases h
      exact ⟨k, hrun, List.isEmpty_iff.mp hempty, rfl⟩
    · cases h
  · cases h

/-- Some sections lead from modules of one kind to modules of another, whatever sections come behind
them. -/
def Leads (bytes : Bytes) (F G : Module → Prop) : Prop :=
  ∀ fuel p place rest r, F p.module → (bytes ++ rest).length < fuel →
    (sections fuel p).run ⟨place, bytes ++ rest⟩ = some r →
    ∃ fuel' q place', G q.module ∧ rest.length < fuel' ∧
      (sections fuel' q).run ⟨place', rest⟩ = some r

namespace Leads

theorem nil (h : ∀ m, F m → G m) : Leads [] F G :=
  fun fuel p place _ _ hp hfuel hr => ⟨fuel, p, place, h _ hp, hfuel, hr⟩

theorem append (h : Leads bytes F G) (h' : Leads more G H) : Leads (bytes ++ more) F H := by
  intro fuel p place rest r hp hfuel hr
  rw [List.append_assoc] at hfuel hr
  obtain ⟨fuel', q, place', hq, hfuel', hr'⟩ := h fuel p place _ r hp hfuel hr
  exact h' fuel' q place' rest r hq hfuel' hr'

/-- What leaves modules as they are can be left out. -/
theorem skip (h : Leads bytes F F) (h' : Leads more F G) : Leads (bytes ++ more) F G := h.append h'

/-- One section, whose contents are read by themselves. -/
theorem sectionOf {id : UInt8}
    (h : bytes.length < twoTo 32 → ∀ p q place i, F p.module →
      (sectionBody p id).run ⟨place, bytes⟩ = some (q, i) → i.bytes = [] → G q.module) :
    Leads (Encode.sectionOf id bytes) F G := by
  intro fuel p place rest r hp hfuel hr
  have hbytes : Encode.sectionOf id bytes ++ rest =
      id :: (Leb.unsigned bytes.length ++ (bytes ++ rest)) := by
    simp [Encode.sectionOf, Encode.sized]
  rw [hbytes] at hfuel hr
  cases fuel with
  | zero => cases hfuel
  | succ fuel =>
      obtain ⟨q, i, hread, hrest⟩ : ∃ q i, (readSection p).run
          ⟨place, id :: (Leb.unsigned bytes.length ++ (bytes ++ rest))⟩ = some (q, i) ∧
          (sections fuel q).run i = some r := by
        obtain ⟨r₁, r₂⟩ := r
        obtain ⟨done, i, hdone, hr⟩ := run_bind_eq_some.mp hr
        cases hdone
        obtain ⟨q, i, hread, hrest⟩ := run_bind_eq_some.mp hr
        exact ⟨q, i, hread, hrest⟩
      have hbody {p' : Progress} (hmodule : p'.module = p.module) (hsize : bytes.length < twoTo 32)
          {place' : Nat} (hwithin : (within bytes.length (sectionBody p' id)).run
            ⟨place', bytes ++ rest⟩ = some (q, i)) : ∃ place, G q.module ∧ i = ⟨place, rest⟩ := by
        obtain ⟨k, hrun, hend, rfl⟩ := run_within hwithin
        exact ⟨_, h hsize p' q place' k (hmodule ▸ hp) hrun hend, rfl⟩
      have hq : ∃ place, G q.module ∧ i = ⟨place, rest⟩ := by
        obtain ⟨id', i', hid, hread⟩ := run_bind_eq_some.mp hread
        cases hid
        obtain ⟨size, i', hlength, hread⟩ := run_bind_eq_some.mp hread
        rw [run_u32] at hlength
        split at hlength
        · rename_i hsize
          cases hlength
          split at hread
          · exact hbody rfl hsize hread
          · split at hread
            · split at hread
              · exact hbody (by rfl) hsize hread
              · cases hread
            · cases hread
        · cases hlength
      obtain ⟨place', hG, rfl⟩ := hq
      refine ⟨fuel, q, place', hG, ?_, hrest⟩
      simp only [List.length_cons, List.length_append] at hfuel
      omega

/-- A list of things that are read back, in a section of its own, becomes a part of the module. -/
theorem list {id : UInt8} {item : Reader α} {write : α → Bytes} {xs : List α} {o : Module}
    (put : List α → Module → Module) (finds : ∀ a, item.Finds (write a) (· = a))
    (reads : ∀ p, sectionBody p id = do
      return { p with module := put (← Reader.vector item) p.module })
    (face : ∀ m, (put xs m).face = put xs m.face) (same : put [] o = o) :
    Leads (Encode.entries id write xs) (·.face = o) (·.face = put xs o) := by
  unfold Encode.entries
  split
  · rename_i hxs
    rw [List.isEmpty_iff.mp hxs, same]
    exact .nil fun _ h => h
  · refine .sectionOf fun _ p q place i hp hr _ => ?_
    rw [reads] at hr
    obtain ⟨as, i', has, hr⟩ := run_bind_eq_some.mp hr
    cases hr
    have hfinds := Finds.list finds xs place []
    rw [List.append_nil] at hfinds
    obtain ⟨rfl, -⟩ := hfinds _ _ has
    exact (face _).trans (congrArg (put _) hp)

end Leads

/-! ## Names -/

/-- Parts of a section for names, none of which names the module. -/
inductive AreParts : Bytes → Prop
  | nil : AreParts []
  | cons {id : UInt8} (named : id ≠ 0) (part : Bytes) {rest : Bytes} (tail : AreParts rest) :
      AreParts (Encode.sectionOf id part ++ rest)

theorem AreParts.append (h : AreParts bytes) (h' : AreParts more) : AreParts (bytes ++ more) := by
  induction h with
  | nil => exact h'
  | cons named part _ ih =>
      rw [List.append_assoc]
      exact .cons named part ih

theorem AreParts.entries {id : UInt8} (named : id ≠ 0) (write : α → Bytes) (xs : List α) :
    AreParts (Encode.entries id write xs) := by
  unfold Encode.entries
  split
  · exact .nil
  · rw [← List.append_nil (Encode.sectionOf _ _)]
    exact .cons named _ .nil

theorem run_name {s : String} (h : (Encode.name s).length < twoTo 32) :
    name.run ⟨place, Encode.name s⟩ = some (s, ⟨place + (Encode.name s).length, []⟩) := by
  have hlength : (Encode.name s).length =
      (Leb.unsigned (Text.encodeUtf8 s).length).length + (Text.encodeUtf8 s).length := by
    rw [Encode.name, Encode.sized, List.length_append]
  have hsize : (Text.encodeUtf8 s).length < twoTo 32 := by omega
  have htake := run_take (Text.encodeUtf8 s).length
    ⟨place + (Leb.unsigned (Text.encodeUtf8 s).length).length, Text.encodeUtf8 s⟩
  rw [if_pos (Nat.le_refl _), List.take_length, List.drop_length, Nat.add_assoc, ← hlength] at htake
  refine run_bind_eq_some.mpr ⟨_, _, (run_u32 _ _ _).trans (if_pos hsize), ?_⟩
  refine run_bind_eq_some.mpr ⟨_, _, htake, run_lift_eq_some.mpr ⟨?_, rfl⟩⟩
  rw [Text.decodeUtf8_encodeUtf8]
  rfl

/-- A part of a section for names is read if it is not too large. -/
theorem nameParts_sectionOf (n : Names) (id : UInt8) : ∃ start stop,
    nameParts (fuel + 1) n ⟨place, Encode.sectionOf id bytes ++ rest⟩ =
      if bytes.length < twoTo 32 then
        if (namePart n id ⟨start, bytes⟩).2 then
          nameParts fuel (namePart n id ⟨start, bytes⟩).1 ⟨stop, rest⟩
        else (namePart n id ⟨start, bytes⟩).1
      else n := by
  let start := place + 1 + (Leb.unsigned bytes.length).length
  refine ⟨start, start + bytes.length, ?_⟩
  have hrun : (do
      let id ← byte
      let size ← u32
      let place := (← get).place
      return (id, Input.mk place (← take size)) : Reader (UInt8 × Input)).run
        ⟨place, Encode.sectionOf id bytes ++ rest⟩ =
      if bytes.length < twoTo 32 then
        some ((id, ⟨start, bytes⟩), ⟨start + bytes.length, rest⟩)
      else none := by
    have hbytes : Encode.sectionOf id bytes ++ rest =
        id :: (Leb.unsigned bytes.length ++ (bytes ++ rest)) := by
      simp [Encode.sectionOf, Encode.sized]
    have hbyte (bytes : Bytes) : byte.run ⟨place, id :: bytes⟩ = some (id, ⟨place + 1, bytes⟩) := rfl
    simp only [hbytes, StateT.run_bind, hbyte, run_u32, Option.bind_eq_bind, Option.bind_some]
    split
    · simp [StateT.run_get, run_take, start]
    · rfl
  rw [nameParts]
  by_cases hsize : bytes.length < twoTo 32
  · simp only [hrun, hsize, if_true]
  · simp only [hrun, hsize, if_false]

theorem module_namePart {id : UInt8} (h : id ≠ 0) (n : Names) (i : Input) :
    (namePart n id i).1.module = n.module := by
  unfold namePart
  split
  · exact absurd rfl h
  · split <;> rfl
  · rfl

/-- Parts that do not name the module leave its name. -/
theorem module_nameParts (h : AreParts bytes) (n : Names) :
    (nameParts fuel n ⟨place, bytes⟩).module = n.module := by
  induction h generalizing fuel n place with
  | nil => cases fuel <;> rfl
  | @cons id named part rest tail ih =>
      cases fuel with
      | zero => rfl
      | succ fuel =>
          obtain ⟨start, stop, heq⟩ := @nameParts_sectionOf part rest place fuel n id
          rw [heq]
          split
          · split
            · exact (ih _).trans (module_namePart named n _)
            · exact module_namePart named n _
          · rfl

/-- The part that names the module is read first. -/
theorem module_nameParts_name {s : String} (h : AreParts bytes)
    (hsize : (Encode.name s).length < twoTo 32) (n : Names) :
    (nameParts (fuel + 1) n ⟨place, Encode.sectionOf 0 (Encode.name s) ++ bytes⟩).module = some s := by
  obtain ⟨start, stop, heq⟩ := @nameParts_sectionOf (Encode.name s) bytes place fuel n 0
  have hpart : namePart n 0 ⟨start, Encode.name s⟩ = ({ n with module := some s }, true) := by
    simp [namePart, run_name hsize]
  rw [heq, if_pos hsize, hpart, if_pos rfl]
  exact module_nameParts h _

/-- The part of a section for names that names the module. -/
def Names.modulePart (n : Names) : Bytes :=
  (n.module.map fun s => Encode.sectionOf 0 (Encode.name s)).getD []

/-- The parts behind it. -/
def Names.itemParts (n : Names) : Bytes :=
  let flat (id : UInt8) (ns : NameMap) : Bytes :=
    Encode.entries id (fun (i, n) => Leb.unsigned i ++ Encode.name n) ns
  let nested (id : UInt8) (ns : List (Nat × NameMap)) : Bytes :=
    Encode.entries id (fun (i, inner) => Leb.unsigned i ++ Encode.nameMap inner) ns
  flat 1 n.funcs ++ (nested 2 n.locals ++ (nested 3 n.labels ++ (flat 4 n.types ++
    (flat 5 n.tables ++ (flat 6 n.memories ++ (flat 7 n.globals ++ (flat 8 n.elems ++
      flat 9 n.datas)))))))

theorem areParts_itemParts (n : Names) : AreParts n.itemParts := by
  unfold Names.itemParts
  repeat' first
    | apply AreParts.entries
    | apply (AreParts.entries _ _ _).append
  all_goals decide

theorem nameSection_eq (n : Names) : Encode.nameSection n =
    if (n.modulePart ++ n.itemParts).isEmpty then []
    else Encode.sectionOf 0 (Encode.name "name" ++ (n.modulePart ++ n.itemParts)) := by
  simp only [Encode.nameSection, List.append_assoc]
  unfold Names.modulePart
  cases n.module <;> rfl

/-- The section for names leads to the name of the module. -/
theorem Leads.names {n : Names} (unnamed : ∀ m, F m → m.names.module = none)
    (step : ∀ m names, F m → names.module = n.module → G { m with names }) :
    Leads (Encode.nameSection n) F G := by
  rw [nameSection_eq]
  split
  · rename_i hempty
    have hnone : n.module = none := by
      cases hn : n.module with
      | none => rfl
      | some s => simp [Names.modulePart, hn, Encode.sectionOf] at hempty
    exact .nil fun m hm => step m m.names hm ((unnamed m hm).trans hnone.symm)
  · refine .sectionOf fun hsize p q place i hp hr _ => ?_
    obtain ⟨title, j, htitle, hr⟩ := run_bind_eq_some.mp hr
    obtain ⟨rfl, rfl⟩ := Finds.name "name" _ _ _ _ htitle
    cases hr
    refine step _ _ hp ?_
    have hparts := areParts_itemParts n
    cases hn : n.module with
    | none =>
        have hhead : n.modulePart = [] := by rw [Names.modulePart, hn]; rfl
        rw [hhead, List.nil_append]
        exact (module_nameParts hparts _).trans (unnamed _ hp)
    | some s =>
        have hhead : n.modulePart = Encode.sectionOf 0 (Encode.name s) := by
          rw [Names.modulePart, hn]
          rfl
        rw [hhead]
        refine module_nameParts_name hparts ?_ _
        rw [hhead] at hsize
        simp only [Encode.sectionOf, Encode.sized, List.length_append, List.length_cons] at hsize
        omega

/-! ## Whole modules -/

/-- The globals of a module have these types, as far as their first values are constant. -/
def HaveTypes (globals : List Global) (types : List GlobalType) : Prop :=
  (∀ g ∈ globals, ∀ o ∈ g.init, IsConstant o) → globals.map (·.type) = types

theorem Leads.globals {gs : List Global} (hgs : ∀ g ∈ gs, Ends g.init ∧ g.init ≠ [])
    (step : ∀ m globals, F m → HaveTypes globals (gs.map (·.type)) → G { m with globals })
    (empty : ∀ m, F m → m.globals = []) :
    Leads (Encode.entries 6 Encode.globalEntry gs) F G := by
  unfold Encode.entries
  split
  · rename_i hnil
    refine .nil fun m hm => ?_
    have hgs : gs = [] := List.isEmpty_iff.mp hnil
    refine step m m.globals hm fun _ => ?_
    rw [empty m hm, hgs]
  · refine .sectionOf fun _ p q place i hp hr hend => ?_
    obtain ⟨found, j, hfound, hr⟩ := run_bind_eq_some.mp hr
    cases hr
    refine step _ _ hp fun hc => ?_
    obtain ⟨count, k, hcount, htimes⟩ := run_bind_eq_some.mp hfound
    obtain ⟨rfl, rfl⟩ := Finds.u32 gs.length _ _ _ _ hcount
    have hnil : Ends [] := fun o ho => by cases ho
    exact (types_of_globals hnil hgs rfl htimes hend hc).2 rfl rfl

/-- A module shows what another one has, but for the first values of the globals. -/
def Module.Matches (m m' : Module) : Prop :=
  ∃ globals, m'.face = { m.face with globals } ∧ HaveTypes globals (m.globals.map (·.type))

theorem Module.Valid.isConstant {m : Module} {f : Features} (h : m.Valid f) :
    ∀ g ∈ m.globals, ∀ o ∈ g.init, IsConstant o := by
  intro g hg o ho
  have hconstant := (h.globals g hg).2
  simp only [checkConstant, Bool.and_eq_true, List.all_eq_true] at hconstant
  exact ⟨_, _, hconstant.1 o ho⟩

theorem Module.itemType?_withGlobals (m : Module) {globals : List Global}
    (h : globals.map (·.type) = m.globals.map (·.type)) (kind : ItemKind) (index : Nat) :
    ({ m with globals } : Module).itemType? kind index = m.itemType? kind index := by
  have hglobals : ({ m with globals } : Module).globalTypes = m.globalTypes := by
    simp only [globalTypes, h]
  unfold itemType?
  rw [hglobals]
  rfl

/-- Of the globals only the types show. -/
theorem Module.signature_withGlobals (m : Module) {globals : List Global}
    (h : globals.map (·.type) = m.globals.map (·.type)) :
    ({ m with globals } : Module).signature = m.signature := by
  simp only [signature, m.itemType?_withGlobals h]
  rfl

/-- A valid module shows the imports, the exports and the name of the module that it was read of. -/
theorem Module.Matches.eq {m m' : Module} {f : Features} (h : m.Matches m') (valid : m'.Valid f) :
    m'.types = m.types ∧ m'.signature = m.signature ∧ m'.names.module = m.names.module := by
  obtain ⟨globals, hface, htypes⟩ := h
  have hglobals : m'.globals = globals := congrArg (·.globals) hface
  subst hglobals
  refine ⟨congrArg (·.types) hface, ?_, congrArg (·.names.module) hface⟩
  calc m'.signature = m'.face.signature := rfl
    _ = ({ m.face with globals := m'.globals } : Module).signature := by rw [hface]
    _ = m.face.signature := m.face.signature_withGlobals (htypes valid.isConstant)
    _ = m.signature := rfl

end WasmHost.Wasm

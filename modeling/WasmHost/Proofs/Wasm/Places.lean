import WasmHost.Proofs.Wasm.Compiled
import WasmHost.Proofs.Wasm.Reading

/-!
# Where things stand in a binary

A binary is a sequence of sections behind its first eight bytes. One of them holds the bodies of the
functions, one behind the other, and a body holds groups of locals and then its instructions. What
reading a module finds out about the places of bodies and instructions is so, and the names that it
finds are those of the sections for names.
-/

namespace WasmHost.Wasm

open Reader

/-- The part of a binary from one place to another. -/
structure Span where
  start : Nat
  stop : Nat

/-- The contents of a section of a kind. -/
structure Section extends Span where
  id : UInt8

/-- The sections of a binary from a place on. -/
inductive Sections (binary : Bytes) : Nat → List Section → Prop
  | nil : Sections binary binary.length []
  | cons {place behind start size : Nat} {id : UInt8} {rest : List Section}
      (head : byte.Reads binary place id behind) (length : u32.Reads binary behind size start)
      (fits : start + size ≤ binary.length) (tail : Sections binary (start + size) rest) :
      Sections binary place ({ id, start, stop := start + size } :: rest)

/-- Bodies from a place on to the end. -/
inductive Bodies (bytes : Bytes) : Nat → List Span → Prop
  | nil : Bodies bytes bytes.length []
  | cons {place start size : Nat} {rest : List Span} (length : u32.Reads bytes place size start)
      (fits : start + size ≤ bytes.length) (tail : Bodies bytes (start + size) rest) :
      Bodies bytes place (⟨start, start + size⟩ :: rest)

/-- Instructions from a place on to the end, each with its place. -/
inductive Instructions (bytes : Bytes) : Nat → List (Nat × Op) → Prop
  | nil : Instructions bytes bytes.length []
  | cons {place next : Nat} {o : Op} {rest : List (Nat × Op)} (head : op.Reads bytes place o next)
      (tail : Instructions bytes next rest) : Instructions bytes place ((place, o) :: rest)

/-- The bodies of the functions of a binary, in order. -/
def BodiesOf (binary : Bytes) (bodies : List Span) : Prop :=
  ∃ ss s first, Sections binary 8 ss ∧ ss.filter (·.id = 10) = [s] ∧
    u32.Reads (binary.take s.stop) s.start bodies.length first ∧
    Bodies (binary.take s.stop) first bodies

/-- The groups of locals of a body and its instructions, with their places. -/
def Span.Holds (binary : Bytes) (body : Span) (groups : List (Nat × Nat × ValType))
    (ops : List (Nat × Op)) : Prop :=
  ∃ first, (vector localGroup).Reads (binary.take body.stop) body.start groups first ∧
    Instructions (binary.take body.stop) first ops

/-- Adds the names of a section for names. -/
def Section.addNames (binary : Bytes) (n : Names) (s : Section) : Names :=
  match name.run (.seek (binary.take s.stop) s.start) with
  | some (title, i) =>
    if s.id = 0 ∧ title = "name" then nameParts (i.bytes.length + 1) n i else n
  | none => n

namespace Reader

variable {α β : Type} {r : Reader α} {k : α → Reader β} {bytes : Bytes} {place next n : Nat} {a : α}
  {b : β}

/-! ## What was read by the parts of a reader -/

namespace Reads

theorem of_pure (h : (pure a : Reader α).Reads bytes place a' next) : a' = a ∧ next = place := by
  obtain ⟨h, -, -⟩ := h
  injection h with h
  injection h with ha hi
  exact ⟨ha.symm, (congrArg Input.place hi).symm⟩

theorem of_get {i : Input} (h : (get : Reader Input).Reads bytes place i next) :
    i = .seek bytes place ∧ next = place := by
  obtain ⟨h, -, -⟩ := h
  injection h with h
  injection h with ha hi
  exact ⟨ha.symm, (congrArg Input.place hi).symm⟩

theorem of_bind (h : (r >>= k).Reads bytes place b next) (hr : Advances r)
    (hk : ∀ a, Advances (k a)) :
    ∃ a mid, r.Reads bytes place a mid ∧ (k a).Reads bytes mid b next := by
  obtain ⟨h, hle, hnext⟩ := h
  rw [StateT.run_bind] at h
  obtain ⟨⟨a, j⟩, ha, h⟩ := Option.bind_eq_some_iff.mp h
  obtain ⟨mid, rfl, hreads⟩ := hr.reads (Nat.le_trans hle hnext) ha
  obtain ⟨next', hi, hreads'⟩ := (hk a).reads hreads.2.2 h
  obtain rfl : next = next' := congrArg Input.place hi
  exact ⟨a, mid, hreads, hreads'⟩

theorem of_byte {b : UInt8} (h : byte.Reads bytes place b next) : next = place + 1 := by
  obtain ⟨h, -, -⟩ := h
  simp only [Reader.byte, StateT.run_bind, StateT.run_get, pure_bind, Input.seek] at h
  split at h
  · injection h with h
    injection h with ha hi
    exact (congrArg Input.place hi).symm
  · cases h

end Reads

/-- What is read within some bytes uses them up. -/
theorem within_inv {i : Input} (hplace : place ≤ bytes.length)
    (h : (within n r).run (.seek bytes place) = some (a, i)) :
    place + n ≤ bytes.length ∧ i = .seek bytes (place + n) ∧
      ∃ rest, r.run (.seek (bytes.take (place + n)) place) = some (a, rest) ∧ rest.bytes = [] := by
  simp only [within, StateT.run_bind, StateT.run_get, pure_bind, run_take] at h
  split at h
  · rename_i hle
    have hseek : (⟨place, (Input.seek bytes place).bytes.take n⟩ : Input) =
        .seek (bytes.take (place + n)) place := by
      simp only [Input.seek, List.drop_take, Nat.add_sub_cancel_left]
    have hlength : n ≤ bytes.length - place := by simpa [Input.seek] using hle
    rw [Option.bind_eq_bind, Option.bind_some] at h
    dsimp only at h
    split at h
    · rename_i a' rest hr
      split at h
      · rename_i hend
        cases h
        refine ⟨by omega, ?_, rest, ?_, List.isEmpty_iff.mp hend⟩
        · simp only [Input.seek, List.drop_drop]
        · rw [← hseek]
          exact hr
      · cases h
    · cases h
  · cases h

/-- The same for a reader that advances. -/
theorem Reads.of_within (hr : Advances r) (h : (within n r).Reads bytes place a next) :
    next = place + n ∧ place + n ≤ bytes.length ∧ r.Reads (bytes.take next) place a next := by
  obtain ⟨h, hle, hnext⟩ := h
  obtain ⟨hn, hi, rest, hrun, hend⟩ := within_inv (Nat.le_trans hle hnext) h
  obtain rfl : next = place + n := congrArg Input.place hi
  have hlength : (bytes.take (place + n)).length = place + n := by simp [hn]
  obtain ⟨stop, rfl, hreads⟩ := hr.reads (by omega) hrun
  have hstop : (bytes.take (place + n)).length ≤ stop := List.drop_eq_nil_iff.mp hend
  obtain rfl : stop = place + n := Nat.le_antisymm (hlength ▸ hreads.2.2) (hlength ▸ hstop)
  exact ⟨rfl, hn, hreads⟩

/-! ## Bodies -/

theorem advances_atEnd : Advances atEnd := .bind .get fun _ => .pure _

theorem advances_opsWithin (fuel : Nat) : Advances (opsWithin fuel) := by
  induction fuel with
  | zero => exact .pure _
  | succ fuel ih =>
      exact .bind advances_atEnd fun _ => .ite (.pure _)
        (.bind .get fun _ => .bind advances_op fun _ => .bind ih fun _ => .pure _)

theorem Reads.of_atEnd {done : Bool} (h : atEnd.Reads bytes place done next) :
    next = place ∧ (done → place = bytes.length) := by
  obtain ⟨i, mid, hget, hpure⟩ := h.of_bind .get fun _ => .pure _
  obtain ⟨rfl, rfl⟩ := hget.of_get
  obtain ⟨rfl, rfl⟩ := hpure.of_pure
  refine ⟨rfl, fun hend => Nat.le_antisymm h.2.2 ?_⟩
  exact List.drop_eq_nil_iff.mp (List.isEmpty_iff.mp hend)

theorem instructions_of_reads {ops : List (Nat × Op)} {fuel : Nat}
    (h : (opsWithin fuel).Reads bytes place ops next) (hend : next = bytes.length) :
    Instructions bytes place ops := by
  subst hend
  induction fuel generalizing place ops with
  | zero =>
      obtain ⟨rfl, rfl⟩ := Reads.of_pure h
      exact .nil
  | succ fuel ih =>
      obtain ⟨done, mid, hend, hrest⟩ := h.of_bind advances_atEnd fun _ => .ite (.pure _)
        (.bind .get fun _ => .bind advances_op fun _ => .bind (advances_opsWithin fuel)
          fun _ => .pure _)
      obtain ⟨rfl, hdone⟩ := hend.of_atEnd
      split at hrest
      · obtain ⟨rfl, -⟩ := hrest.of_pure
        obtain rfl := hdone ‹_›
        exact .nil
      · obtain ⟨i, mid, hget, hrest⟩ := hrest.of_bind .get fun _ =>
          .bind advances_op fun _ => .bind (advances_opsWithin fuel) fun _ => .pure _
        obtain ⟨rfl, rfl⟩ := hget.of_get
        obtain ⟨o, mid, hop, hrest⟩ := hrest.of_bind advances_op fun _ =>
          .bind (advances_opsWithin fuel) fun _ => .pure _
        obtain ⟨ops', mid', hops, hpure⟩ := hrest.of_bind (advances_opsWithin fuel) fun _ => .pure _
        obtain ⟨rfl, rfl⟩ := hpure.of_pure
        exact .cons hop (ih hops)

theorem advances_codeEntry : Advances codeEntry :=
  .bind .u32 fun size => .bind .get fun _ => .within _ size

/-- A body and its layout are what stands at the place of the body. -/
def Laid (binary : Bytes) (body : Span) (entry : Code × Layout) : Prop :=
  ∃ groups ops, body.Holds binary groups ops ∧
    entry.1 = ⟨groups.map (·.2), ops.map (·.2)⟩ ∧
    entry.2 = { start := body.start
                lastLocals := (groups.getLast?.map (·.1)).getD body.start
                places := (ops.map (·.1)).toArray }

theorem Reads.of_codeEntry {entry : Code × Layout} (h : codeEntry.Reads bytes place entry next) :
    ∃ size start, u32.Reads bytes place size start ∧ start + size ≤ bytes.length ∧
      next = start + size ∧ Laid bytes ⟨start, start + size⟩ entry := by
  obtain ⟨size, mid, hsize, h⟩ := h.of_bind .u32 fun size => .bind .get fun _ => .within _ size
  obtain ⟨i, start, hget, h⟩ := h.of_bind .get fun _ => .within _ size
  obtain ⟨rfl, rfl⟩ := hget.of_get
  have hgroups : Advances (vector localGroup) := .vector advances_localGroup
  obtain ⟨rfl, hfits, h⟩ := h.of_within (.bind hgroups fun _ => .bind .get fun _ =>
    .bind (advances_opsWithin _) fun _ => .pure _)
  have hlength : (bytes.take (start + size)).length = start + size := by simp [hfits]
  obtain ⟨groups, mid, hread, h⟩ := h.of_bind hgroups fun _ => .bind .get fun _ =>
    .bind (advances_opsWithin _) fun _ => .pure _
  obtain ⟨i, first, hget, h⟩ := h.of_bind .get fun _ => .bind (advances_opsWithin _) fun _ => .pure _
  obtain ⟨rfl, rfl⟩ := hget.of_get
  obtain ⟨ops, mid, hops, hpure⟩ := h.of_bind (advances_opsWithin _) fun _ => .pure _
  obtain ⟨rfl, rfl⟩ := hpure.of_pure
  refine ⟨size, start, hsize, hfits, rfl, groups, ops, ⟨first, hread, ?_⟩, rfl, rfl⟩
  exact instructions_of_reads hops hlength.symm

/-- What stands at the place of a body lies within the bytes up to its end. -/
theorem Laid.of_take {entry : Code × Layout} {body : Span} {stop : Nat} (hle : body.stop ≤ stop)
    (h : Laid (bytes.take stop) body entry) : Laid bytes body entry := by
  unfold Laid Span.Holds at h ⊢
  rwa [List.take_take, Nat.min_eq_left hle] at h

theorem bodies_of_times {entries : List (Code × Layout)} {count : Nat}
    (h : (times codeEntry count).Reads bytes place entries next) (hend : next = bytes.length) :
    ∃ bodies, Bodies bytes place bodies ∧ bodies.length = count ∧
      List.Forall₂ (fun body entry => body.stop ≤ bytes.length ∧ Laid bytes body entry) bodies
        entries := by
  subst hend
  induction count generalizing place entries with
  | zero =>
      obtain ⟨rfl, rfl⟩ := Reads.of_pure h
      exact ⟨[], .nil, rfl, .nil⟩
  | succ count ih =>
      have htimes := advances_codeEntry.times count
      obtain ⟨entry, mid, hentry, h⟩ := h.of_bind advances_codeEntry fun _ =>
        .bind htimes fun _ => .pure _
      obtain ⟨rest, mid', hrest, hpure⟩ := h.of_bind htimes fun _ => .pure _
      obtain ⟨rfl, rfl⟩ := hpure.of_pure
      obtain ⟨size, start, hsize, hfits, rfl, hlaid⟩ := hentry.of_codeEntry
      obtain ⟨bodies, hbodies, hcount, hall⟩ := ih hrest
      exact ⟨_ :: bodies, .cons hsize hfits hbodies, congrArg Nat.succ hcount,
        .cons ⟨hfits, hlaid⟩ hall⟩

end Reader

/-! ## Behind the start of a body -/

variable {bytes : Bytes} {place next : Nat}

theorem Instructions.le {ops : List (Nat × Op)} (h : Instructions bytes place ops) :
    ∀ o ∈ ops, place ≤ o.1 := by
  induction h with
  | nil => exact fun o ho => absurd ho List.not_mem_nil
  | cons head _ ih =>
      intro o ho
      rcases List.mem_cons.mp ho with rfl | ho
      · exact Nat.le_refl _
      · exact Nat.le_trans head.2.1 (ih o ho)

theorem place_of_localGroup {group : Nat × Nat × ValType}
    (h : localGroup.Reads bytes place group next) : group.1 = place := by
  obtain ⟨i, mid, hget, h⟩ := h.of_bind .get fun _ =>
    .bind .u32 fun _ => .bind advances_valType fun _ => .pure _
  obtain ⟨rfl, rfl⟩ := hget.of_get
  obtain ⟨count, mid, -, h⟩ := h.of_bind .u32 fun _ =>
    .bind advances_valType fun _ => .pure _
  obtain ⟨type, mid, -, hpure⟩ := h.of_bind advances_valType fun _ => .pure _
  obtain ⟨rfl, -⟩ := hpure.of_pure
  rfl

theorem le_of_groups {groups : List (Nat × Nat × ValType)} {n : Nat}
    (h : (times localGroup n).Reads bytes place groups next) :
    ∀ g ∈ groups, place ≤ g.1 := by
  induction n generalizing place groups next with
  | zero =>
      obtain ⟨rfl, -⟩ := Reads.of_pure h
      exact fun g hg => absurd hg List.not_mem_nil
  | succ n ih =>
      have htimes := advances_localGroup.times n
      obtain ⟨group, mid, hgroup, h⟩ := h.of_bind advances_localGroup fun _ =>
        .bind htimes fun _ => .pure _
      obtain ⟨rest, mid', hrest, hpure⟩ := h.of_bind htimes fun _ => .pure _
      obtain ⟨rfl, -⟩ := hpure.of_pure
      intro g hg
      rcases List.mem_cons.mp hg with rfl | hg
      · exact Nat.le_of_eq (place_of_localGroup hgroup).symm
      · exact Nat.le_trans hgroup.2.1 (ih hrest g hg)

/-- What stands in a body stands behind its start. -/
theorem Span.Holds.le {body : Span} {groups : List (Nat × Nat × ValType)} {ops : List (Nat × Op)}
    (h : body.Holds bytes groups ops) :
    (∀ g ∈ groups, body.start ≤ g.1) ∧ ∀ o ∈ ops, body.start ≤ o.1 := by
  obtain ⟨first, hgroups, hops⟩ := h
  obtain ⟨count, mid, hcount, htimes⟩ := Reads.of_bind hgroups .u32 fun n =>
    advances_localGroup.times n
  exact ⟨fun g hg => Nat.le_trans hcount.2.1 (le_of_groups htimes g hg),
    fun o ho => Nat.le_trans hgroups.2.1 (hops.le o ho)⟩

/-! ## Sections -/

/-- The bodies of a section, and the codes and layouts that were read off them. -/
def Section.HasBodies (binary : Bytes) (s : Section) (p : Progress) : Prop :=
  ∃ first bodies entries, u32.Reads (binary.take s.stop) s.start bodies.length first ∧
    Bodies (binary.take s.stop) first bodies ∧ List.Forall₂ (Laid binary) bodies entries ∧
    p.module.codes = entries.map (·.1) ∧ p.layouts = entries.map (·.2)

/-- The bodies that are known are the same. -/
def Progress.SameBodies (p q : Progress) : Prop :=
  q.module.codes = p.module.codes ∧ q.layouts = p.layouts

/-- What a section adds to what is known of a module. -/
structure Takes (binary : Bytes) (s : Section) (p q : Progress) : Prop where
  names : q.module.names = s.addNames binary p.module.names
  others : s.id ≠ 10 → p.SameBodies q
  bodies : s.id = 10 → s.HasBodies binary q
  rank : q.rank = p.rank

variable {binary : Bytes} {s : Section} {ss : List Section} {p p' q : Progress} {fuel : Nat}

theorem addNames_of_ne (h : s.id ≠ 0) (n : Names) : s.addNames binary n = n := by
  simp only [Section.addNames, h, false_and, if_false]
  split <;> rfl

/-- A section of another kind leaves names and bodies alone. -/
theorem gives_sectionBody (p : Progress) {id : UInt8} (hnames : id ≠ 0) (hbodies : id ≠ 10) :
    Gives (fun q => q.module.names = p.module.names ∧ p.SameBodies q ∧ q.rank = p.rank)
      (sectionBody p id) := by
  unfold sectionBody
  dsimp only
  split
  · exact absurd rfl hnames
  all_goals try first | exact .fail | exact .after fun _ => .pure ⟨rfl, ⟨rfl, rfl⟩, rfl⟩
  exact absurd rfl hbodies

theorem takes_names {stop start : Nat} {rest : Input}
    (h : (sectionBody p 0).run (.seek (binary.take stop) start) = some (q, rest)) :
    Takes binary ⟨⟨start, stop⟩, 0⟩ p q := by
  obtain ⟨⟨title, i⟩, htitle, h⟩ := Option.bind_eq_some_iff.mp h
  have htitle : name.run (.seek (binary.take stop) start) = some (title, i) := htitle
  have hkind : (0 : UInt8) ≠ 10 := by decide
  have hadd (n : Names) : Section.addNames binary n ⟨⟨start, stop⟩, 0⟩ =
      if title = "name" then nameParts (i.bytes.length + 1) n i else n := by
    simp [Section.addNames, htitle]
  by_cases hname : title = "name"
  · simp only [hname, if_true] at h hadd
    cases h
    exact ⟨(hadd _).symm, fun _ => ⟨rfl, rfl⟩, fun h => absurd h hkind, rfl⟩
  · simp only [hname, if_false] at h hadd
    cases h
    exact ⟨(hadd _).symm, fun _ => ⟨rfl, rfl⟩, fun h => absurd h hkind, rfl⟩

theorem takes_bodies {stop start : Nat} {rest : Input} (hstart : start ≤ stop)
    (hstop : stop ≤ binary.length)
    (h : (sectionBody p 10).run (.seek (binary.take stop) start) = some (q, rest))
    (hend : rest.bytes = []) : Takes binary ⟨⟨start, stop⟩, 10⟩ p q := by
  have hlength : (binary.take stop).length = stop := by simp [hstop]
  have hvector : Advances (vector codeEntry) := .vector advances_codeEntry
  have hbody : Advances (sectionBody p 10) := .bind hvector fun _ => .pure _
  obtain ⟨next, rfl, hreads⟩ := hbody.reads (by omega) h
  have hlast : next = (binary.take stop).length :=
    Nat.le_antisymm hreads.2.2 (List.drop_eq_nil_iff.mp hend)
  obtain ⟨entries, mid, hentries, hpure⟩ := Reads.of_bind hreads hvector fun _ => .pure _
  obtain ⟨rfl, rfl⟩ := hpure.of_pure
  obtain ⟨count, first, hcount, htimes⟩ :=
    Reads.of_bind hentries .u32 fun n => advances_codeEntry.times n
  obtain ⟨bodies, hbodies, rfl, hall⟩ := bodies_of_times htimes hlast
  have hkind : (10 : UInt8) ≠ 0 := by decide
  refine ⟨(addNames_of_ne hkind _).symm, fun h => absurd rfl h, fun _ => ?_, rfl⟩
  refine ⟨first, bodies, entries, hcount, hbodies, hall.imp fun body entry h => ?_, rfl, rfl⟩
  exact h.2.of_take (hlength ▸ h.1)

theorem takes_of_within {id : UInt8} {place size : Nat} {i : Input} (hplace : place ≤ binary.length)
    (h : (within size (sectionBody p id)).run (.seek binary place) = some (q, i)) :
    Takes binary ⟨⟨place, place + size⟩, id⟩ p q := by
  obtain ⟨hfits, -, rest, hrun, hend⟩ := within_inv hplace h
  by_cases hnames : id = 0
  · subst hnames
    exact takes_names hrun
  · by_cases hbodies : id = 10
    · subst hbodies
      exact takes_bodies (Nat.le_add_right _ _) hfits hrun hend
    · obtain ⟨names, same, rank⟩ := gives_sectionBody p hnames hbodies _ _ _ hrun
      exact ⟨names.trans (addNames_of_ne hnames _).symm, fun _ => same,
        fun h => absurd h hbodies, rank⟩

/-- What a section brings that keeps to the order of the format. -/
def TakesInOrder (binary : Bytes) (s : Section) (p q : Progress) : Prop :=
  ∃ rank, Takes binary s { p with rank } q ∧ p.rank ≤ rank ∧
    (s.id = 10 → p.rank ≤ 10 ∧ rank = 11)

theorem advances_readSection (p : Progress) : Advances (readSection p) := by
  refine .bind .byte fun id => .bind .u32 fun size => .ite (.within _ size) ?_
  split
  · exact .ite (.within _ size) .fail
  · exact .fail

theorem section_of_reads {place next : Nat} (h : (readSection p).Reads binary place q next) :
    ∃ behind start size id, byte.Reads binary place id behind ∧ u32.Reads binary behind size start ∧
      start + size ≤ binary.length ∧ next = start + size ∧
      TakesInOrder binary ⟨⟨start, start + size⟩, id⟩ p q := by
  obtain ⟨id, behind, hid, h⟩ := h.of_bind .byte fun id => .bind .u32 fun size =>
    .ite (.within _ size) (by
      split
      · exact .ite (.within _ size) .fail
      · exact .fail)
  obtain ⟨size, start, hsize, h⟩ := h.of_bind .u32 fun size => .ite (.within _ size) (by
      split
      · exact .ite (.within _ size) .fail
      · exact .fail)
  split at h
  · rename_i hnames
    obtain ⟨hfits, hi, -⟩ := within_inv hsize.2.2 h.1
    refine ⟨behind, start, size, id, hid, hsize, hfits, congrArg Input.place hi, p.rank,
      takes_of_within hsize.2.2 h.1, Nat.le_refl _, fun h10 => ?_⟩
    cases hnames.symm.trans h10
  · split at h
    · rename_i rank hrank
      split at h
      · rename_i hle
        obtain ⟨hfits, hi, -⟩ := within_inv hsize.2.2 h.1
        refine ⟨behind, start, size, id, hid, hsize, hfits, congrArg Input.place hi, rank + 1,
          takes_of_within hsize.2.2 h.1, Nat.le_succ_of_le hle, fun h10 => ?_⟩
        have hid : id = 10 := h10
        subst hid
        cases hrank
        exact ⟨hle, rfl⟩
      · cases h.1
    · cases h.1

/-- What sections bring one after the other. -/
inductive Brings (binary : Bytes) : Progress → List Section → Progress → Prop
  | nil (p : Progress) : Brings binary p [] p
  | cons {p q p' : Progress} {s : Section} {ss : List Section} (head : TakesInOrder binary s p q)
      (tail : Brings binary q ss p') : Brings binary p (s :: ss) p'

theorem advances_sections (fuel : Nat) (p : Progress) : Advances (sections fuel p) := by
  induction fuel generalizing p with
  | zero => exact .pure p
  | succ fuel ih =>
      exact .bind advances_atEnd fun _ => .ite (.pure p)
        (.bind (advances_readSection p) fun q => ih q)

theorem sections_of_reads {place next : Nat} (hfuel : binary.length - place < fuel)
    (h : (sections fuel p).Reads binary place p' next) :
    ∃ ss, Sections binary place ss ∧ Brings binary p ss p' := by
  induction fuel generalizing p place with
  | zero => cases hfuel
  | succ fuel ih =>
      obtain ⟨done, mid, hdone, hrest⟩ := h.of_bind advances_atEnd fun _ => .ite (.pure p)
        (.bind (advances_readSection p) fun q => advances_sections fuel q)
      obtain ⟨rfl, hend⟩ := hdone.of_atEnd
      split at hrest
      · obtain rfl := hend ‹_›
        obtain ⟨rfl, -⟩ := hrest.of_pure
        exact ⟨[], .nil, .nil _⟩
      · obtain ⟨q, mid, hread, h⟩ := hrest.of_bind (advances_readSection p) fun q =>
          advances_sections fuel q
        obtain ⟨behind, start, size, id, hid, hsize, hfits, rfl, htakes⟩ := section_of_reads hread
        have hbehind := hid.of_byte
        have hstart := hsize.2.1
        obtain ⟨ss, hsections, hbrings⟩ := ih (by omega) h
        exact ⟨_ :: ss, .cons hid hsize hfits hsections, .cons htakes hbrings⟩

theorem Brings.names (h : Brings binary p ss p') :
    p'.module.names = ss.foldl (Section.addNames binary) p.module.names := by
  induction h with
  | nil => rfl
  | cons head _ ih =>
      obtain ⟨rank, takes, -⟩ := head
      rw [ih, takes.names]
      rfl

/-- Behind the section of bodies there is no other one. -/
theorem Brings.past (h : Brings binary p ss p') (hrank : 11 ≤ p.rank) :
    ss.filter (·.id = 10) = [] ∧ p.SameBodies p' := by
  induction h with
  | nil => exact ⟨rfl, rfl, rfl⟩
  | @cons p q p' s ss head _ ih =>
      obtain ⟨rank, takes, hle, hbodies⟩ := head
      have hid : s.id ≠ 10 := fun h => absurd (hbodies h).1 (by omega)
      have hrank' : q.rank = rank := takes.rank
      obtain ⟨hnone, hsame⟩ := ih (by omega)
      have hsame' := takes.others hid
      refine ⟨by simp [hid, hnone], hsame.1.trans hsame'.1, hsame.2.trans hsame'.2⟩

/-- The bodies of a module come from the one section of bodies, if there is one. -/
theorem Brings.bodies (h : Brings binary p ss p') :
    (ss.filter (·.id = 10) = [] ∧ p.SameBodies p') ∨
      ∃ s, ss.filter (·.id = 10) = [s] ∧ s.HasBodies binary p' := by
  induction h with
  | nil => exact .inl ⟨rfl, rfl, rfl⟩
  | @cons p q p' s ss head tail ih =>
      obtain ⟨rank, takes, hle, hbodies⟩ := head
      by_cases hid : s.id = 10
      · have hrank : q.rank = 11 := takes.rank.trans (hbodies hid).2
        obtain ⟨hnone, hcodes, hlayouts⟩ := tail.past (Nat.le_of_eq hrank.symm)
        obtain ⟨first, bodies, entries, hcount, hbodies, hall, hc, hl⟩ := takes.bodies hid
        exact .inr ⟨s, by simp [hid, hnone], first, bodies, entries, hcount, hbodies, hall,
          hcodes.trans hc, hlayouts.trans hl⟩
      · have hsame := takes.others hid
        rcases ih with ⟨hnone, hsame'⟩ | ⟨s', hone, hs'⟩
        · exact .inl ⟨by simp [hid, hnone], hsame'.1.trans hsame.1, hsame'.2.trans hsame.2⟩
        · exact .inr ⟨s', by simp [hid, hone], hs'⟩

/-- What a binary was read as is what stands in it: the names are those of its sections for names,
and each body and its layout is what stands at the place of the body. -/
theorem Module.places_of_decode {m : Module} {layouts : List Layout}
    (h : Module.decode binary = some (m, layouts)) :
    ∃ ss, Sections binary 8 ss ∧ m.names = ss.foldl (Section.addNames binary) {} ∧
      ((m.codes = [] ∧ layouts = []) ∨ ∃ bodies entries, BodiesOf binary bodies ∧
        List.Forall₂ (Laid binary) bodies entries ∧ m.codes = entries.map (·.1) ∧
        layouts = entries.map (·.2)) := by
  unfold Module.decode at h
  split at h
  · rename_i hmagic
    simp only [Option.bind_eq_bind, Option.bind_eq_some_iff] at h
    obtain ⟨⟨p, i⟩, hp, h⟩ := h
    have hlength : 8 ≤ binary.length := by
      have hfirst := congrArg List.length hmagic
      simp only [magic, version, List.length_append, List.length_cons, List.length_nil,
        List.length_take] at hfirst
      omega
    obtain ⟨next, -, hreads⟩ := (advances_sections (binary.length + 1) {}).reads hlength hp
    obtain ⟨ss, hsections, hbrings⟩ := sections_of_reads (by omega) hreads
    dsimp only at h
    split at h
    · cases h
      refine ⟨ss, hsections, hbrings.names, ?_⟩
      rcases hbrings.bodies with ⟨-, hcodes, hlayouts⟩ | ⟨s, hone, first, bodies, entries, hcount,
        hbodies, hall, hcodes, hlayouts⟩
      · exact .inl ⟨hcodes, hlayouts⟩
      · exact .inr ⟨bodies, entries, ⟨ss, s, first, hsections, hone, hcount, hbodies⟩, hall,
          hcodes, hlayouts⟩
    · cases h
  · cases h

end WasmHost.Wasm

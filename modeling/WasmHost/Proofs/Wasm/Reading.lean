import WasmHost.Wasm.Decode

/-!
# Reading moves on

`Reader.Reads` says that a reader reads a thing in some bytes from one place to another. A reader
that advances, if it succeeds at all, has read from where it began up to a place further on: that is
so of every reader of the format.
-/

namespace WasmHost.Wasm

/-- The input from a place in some bytes on. -/
def Input.seek (bytes : Bytes) (place : Nat) : Input := ⟨place, bytes.drop place⟩

theorem Leb.suffix_of_groups {last : Nat → Nat → Bool} {width n bits : Nat} {bytes rest : Bytes}
    (h : groups last width bytes = some (n, bits, rest)) : rest <:+ bytes := by
  induction bytes generalizing width n bits rest with
  | nil => cases h
  | cons b bytes ih =>
      simp only [groups] at h
      split at h
      · split at h
        · cases h
          exact List.suffix_cons b bytes
        · cases h
      · split at h
        · cases h
          exact List.suffix_cons b bytes
        · simp only [Option.bind_eq_bind, Option.bind_eq_some_iff] at h
          obtain ⟨⟨high, bits', rest'⟩, hgroups, h⟩ := h
          cases h
          exact (ih hgroups).trans (List.suffix_cons b bytes)

namespace Reader

variable {α β : Type} {r : Reader α} {k : α → Reader β} {bytes : Bytes} {place next : Nat} {a : α}
  {b : β}

theorem run_leb (read : Bytes → Option (α × Bytes)) (i : Input) : (leb read).run i =
    (read i.bytes).map fun p => (p.1, ⟨i.place + (i.bytes.length - p.2.length), p.2⟩) := by
  simp only [leb, StateT.run_bind, StateT.run_get, pure_bind]
  cases read i.bytes <;> rfl

theorem run_take (n : Nat) (i : Input) : (take n).run i =
    if n ≤ i.bytes.length then some (i.bytes.take n, ⟨i.place + n, i.bytes.drop n⟩) else none := by
  have hlength : (i.bytes.take n).length = n ↔ n ≤ i.bytes.length := by
    rw [List.length_take]
    omega
  simp only [take, StateT.run_bind, StateT.run_get, pure_bind, hlength]
  split <;> rfl

/-- A reader reads a thing from one place to another. -/
def Reads (r : Reader α) (bytes : Bytes) (place : Nat) (a : α) (next : Nat) : Prop :=
  r.run (.seek bytes place) = some (a, .seek bytes next) ∧ place ≤ next ∧ next ≤ bytes.length

/-- Wherever a reader succeeds, it has read up to some place. -/
def Advances (r : Reader α) : Prop :=
  ∀ bytes place a i, place ≤ bytes.length → r.run (.seek bytes place) = some (a, i) →
    ∃ next, i = .seek bytes next ∧ r.Reads bytes place a next

/-- A reader moves on a number of bytes at most as many as there are. -/
theorem Advances.of_moved
    (h : ∀ i a i', r.run i = some (a, i') →
      ∃ n, n ≤ i.bytes.length ∧ i' = ⟨i.place + n, i.bytes.drop n⟩) : Advances r := by
  intro bytes place a i hplace hr
  obtain ⟨n, hn, rfl⟩ := h _ a i hr
  have hseek : (⟨place + n, (bytes.drop place).drop n⟩ : Input) = .seek bytes (place + n) := by
    rw [Input.seek, List.drop_drop]
  have hlength : n ≤ bytes.length - place := by simpa [Input.seek] using hn
  exact ⟨place + n, hseek, hr.trans (congrArg (fun i => some (a, i)) hseek), by omega, by omega⟩

/-- What a reader advances to is told by what it was begun with. -/
theorem Advances.reads (h : Advances r) {i : Input} (hplace : place ≤ bytes.length)
    (hr : r.run (.seek bytes place) = some (a, i)) :
    ∃ next, i = .seek bytes next ∧ r.Reads bytes place a next := h bytes place a i hplace hr

namespace Advances

theorem pure (a : α) : Advances (pure a : Reader α) :=
  .of_moved fun i a' i' h => by
    cases h
    exact ⟨0, Nat.zero_le _, rfl⟩

theorem fail : Advances (fail : Reader α) := fun _ _ _ _ _ h => by cases h

theorem lift (o : Option α) : Advances (StateT.lift o : Reader α) :=
  .of_moved fun i a i' h => by
    obtain ⟨a', -, h⟩ := Option.bind_eq_some_iff.mp h
    cases h
    exact ⟨0, Nat.zero_le _, rfl⟩

theorem get : Advances (get : Reader Input) :=
  .of_moved fun i a i' h => by
    cases h
    exact ⟨0, Nat.zero_le _, rfl⟩

theorem bind (hr : Advances r) (hk : ∀ a, Advances (k a)) : Advances (r >>= k) := by
  intro bytes place b i hplace h
  have hall := h
  rw [StateT.run_bind] at h
  obtain ⟨⟨a, j⟩, ha, h⟩ := Option.bind_eq_some_iff.mp h
  obtain ⟨mid, rfl, -, hle, hmid⟩ := hr.reads hplace ha
  obtain ⟨next, rfl, -, hle', hnext⟩ := (hk a).reads hmid h
  exact ⟨next, rfl, hall, Nat.le_trans hle hle', hnext⟩

theorem byte : Advances byte := by
  refine .of_moved fun i b i' h => ?_
  obtain ⟨place, bytes⟩ := i
  cases bytes with
  | nil => cases h
  | cons c bytes =>
      cases h
      exact ⟨1, by simp, rfl⟩

theorem peek : Advances peek := by
  refine .bind .get fun i => ?_
  split
  · exact .pure _
  · exact .fail

theorem leb {read : Bytes → Option (α × Bytes)}
    (h : ∀ bytes a rest, read bytes = some (a, rest) → rest <:+ bytes) : Advances (leb read) := by
  refine .of_moved fun i a i' hr => ?_
  rw [run_leb] at hr
  obtain ⟨⟨a', rest⟩, hread, heq⟩ := Option.map_eq_some_iff.mp hr
  cases heq
  refine ⟨i.bytes.length - rest.length, Nat.sub_le _ _, ?_⟩
  rw [← List.suffix_iff_eq_drop.mp (h _ _ _ hread)]

theorem u32 : Advances u32 := by
  refine .leb fun bytes n rest h => ?_
  obtain ⟨⟨n', bits, rest'⟩, hgroups, h⟩ := Option.bind_eq_some_iff.mp h
  cases h
  exact Leb.suffix_of_groups hgroups

theorem signed (width : Nat) : Advances (Reader.leb (Leb.readSigned width)) := by
  refine .leb fun bytes n rest h => ?_
  obtain ⟨⟨n', bits, rest'⟩, hgroups, h⟩ := Option.bind_eq_some_iff.mp h
  cases h
  exact Leb.suffix_of_groups hgroups

theorem take (n : Nat) : Advances (take n) := by
  refine .of_moved fun i a i' h => ?_
  rw [run_take] at h
  split at h
  · rename_i hle
    cases h
    exact ⟨n, hle, rfl⟩
  · cases h

theorem ite {p : Prop} [Decidable p] {r' : Reader α} (h : Advances r) (h' : Advances r') :
    Advances (if p then r else r') := by
  split
  · exact h
  · exact h'

theorem times (h : Advances r) (n : Nat) : Advances (times r n) := by
  induction n with
  | zero => exact .pure _
  | succ n ih => exact .bind h fun a => .bind ih fun as => .pure _

theorem vector (h : Advances r) : Advances (vector r) := .bind .u32 fun n => h.times n

theorem within (r : Reader α) (n : Nat) : Advances (within n r) := by
  refine .bind .get fun i => .bind (.take n) fun bytes => ?_
  split
  · exact .ite (.pure _) .fail
  · exact .fail

end Advances

/-! ## The readers of the format -/

theorem advances_valTypeOf? (b : UInt8) : Advances (valTypeOf? b : Reader ValType) := .lift _

theorem advances_valType : Advances valType :=
  .bind .byte fun b => .ite
    (.bind .byte fun b => .bind (advances_valTypeOf? b) fun _ => .ite (.pure _) .fail)
    (advances_valTypeOf? b)

theorem advances_blockType : Advances blockType := by
  refine .bind .peek fun b => .ite (.bind .byte fun _ => .pure _)
    (.ite (.bind advances_valType fun _ => .pure _) (.bind (.signed 33) fun n => .ite (.pure _) .fail))

theorem advances_memArg : Advances memArg := by
  refine .bind .u32 fun align => .ite (.bind .u32 fun _ => .pure _)
    (.ite (.bind .u32 fun _ => .bind .u32 fun _ => .pure _) .fail)

theorem advances_nullType : Advances nullType :=
  .bind .byte fun b => .bind (advances_valTypeOf? b) fun _ => .ite (.pure _) .fail

theorem advances_littleEndian (n : Nat) : Advances (littleEndian n) := .bind (.take n) fun _ => .pure _

theorem advances_extended : Advances extended := by
  refine .bind .u32 fun code => ?_
  split
  · exact .pure _
  · split
    all_goals first
      | exact .bind .u32 fun _ => .pure _
      | exact .bind .u32 fun _ => .bind .u32 fun _ => .pure _
      | exact .fail

theorem advances_tabled (code : Nat) : Advances (tabled code) := by
  unfold tabled
  refine .ite .fail ?_
  split
  · exact .bind advances_memArg fun _ => .pure _
  · split
    · exact .bind advances_memArg fun _ => .pure _
    · refine .ite .fail ?_
      split
      · exact .pure _
      · exact .fail

theorem advances_op : Advances op := by
  refine .bind .byte fun code => ?_
  split
  all_goals first
    | exact .pure _
    | exact .bind .u32 fun _ => .pure _
    | exact .bind advances_blockType fun _ => .pure _
    | exact .bind .u32 fun _ => .bind .u32 fun _ => .pure _
    | exact .bind (.vector .u32) fun _ => .bind .u32 fun _ => .pure _
    | exact .bind (.vector advances_valType) fun _ => .pure _
    | exact .bind (.signed _) fun _ => .pure _
    | exact .bind (advances_littleEndian _) fun _ => .pure _
    | exact .bind advances_nullType fun _ => .pure _
    | exact advances_extended
    | exact .bind .u32 fun _ => .ite (.bind advances_memArg fun _ => .pure _) .fail
    | exact advances_tabled _

theorem advances_localGroup : Advances localGroup :=
  .bind .get fun _ => .bind .u32 fun _ => .bind advances_valType fun _ => .pure _

end Reader

end WasmHost.Wasm

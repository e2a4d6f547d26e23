import WasmHost.Proofs.Machine.Control
import WasmHost.Proofs.Machine.Outlines
import WasmHost.Proofs.Wasm.Depth

/-!
# Where branches lead

A branch to an open block goes behind the end of the block, which lies ahead, or to the head of the
loop that the block is. Every instruction keeps it so. With that code goes back to an earlier place
only at the head of a loop, and only by an instruction that takes fuel.
-/

namespace WasmHost

namespace FuncCode

/-- A branch out of a block leads to a place: the block is one of `depth` blocks and the place at
hand is within it. -/
inductive Aims (code : FuncCode) (pc depth : Nat) : Nat → Prop
  /-- Behind the end of the block. -/
  | ahead {last : Nat} (le : pc ≤ last) (stays : code.Stays (depth + 1) pc last)
      (out : code.depth (last + 1) = depth) : Aims code pc depth (last + 1)
  /-- To the head of the loop. -/
  | loop {head : Nat} {t : Wasm.BlockType} (known : code.ops[head]? = some (.loop t))
      (lt : head < pc) (out : code.depth head = depth)
      (stays : code.Stays (depth + 1) (head + 1) pc) : Aims code pc depth head

variable {code : FuncCode} {pc pc' depth depth' next next' : Nat}

theorem Stays.trans {between : Nat} (h : code.Stays depth pc between)
    (h' : code.Stays depth (between + 1) pc') : code.Stays depth pc pc' := by
  intro q hq hq'
  rcases Nat.lt_or_ge between q with hlt | hle
  · exact h' q hlt hq'
  · exact h q hq hle

/-- Within a block its end stays ahead, and its head behind. -/
theorem Aims.forward (h : code.Aims pc depth next) (le : pc ≤ pc')
    (stays : code.Stays (depth + 1) pc pc') : code.Aims pc' depth next := by
  cases h with
  | @ahead last _ hstays out =>
      have hle : pc' ≤ last := by
        by_contra hlt
        have hdeep := stays (last + 1) (by omega) (by omega)
        have hout : Wasm.depthAt code.ops.toList (last + 1) = depth := out
        omega
      exact .ahead hle (fun q hq hq' => hstays q (Nat.le_trans le hq) hq') out
  | loop known lt out hstays =>
      refine .loop known (Nat.lt_of_lt_of_le lt le) out fun q hq hq' => ?_
      rcases Nat.lt_or_ge pc q with hlt | hge
      · exact stays q (Nat.le_of_lt hlt) hq'
      · exact hstays q hq hge

/-- A branch out of a block stays within the blocks around it. -/
theorem Aims.jump (h : code.Aims pc depth next) (h' : code.Aims pc depth' next')
    (lt : depth' < depth) : code.Aims next depth' next' := by
  cases h with
  | @ahead last le stays out =>
      refine h'.forward (Nat.le_succ_of_le le) fun q hq hq' => ?_
      rcases Nat.eq_or_lt_of_le hq' with rfl | hlt
      · have hout : Wasm.depthAt code.ops.toList (last + 1) = depth := out
        omega
      · have hdeep := stays q hq (Nat.le_of_lt_succ hlt)
        omega
  | loop known lt' out stays =>
      have hout : Wasm.depthAt code.ops.toList next = depth := out
      cases h' with
      | @ahead last le hstays out' =>
          refine .ahead (by omega) (fun q hq hq' => ?_) out'
          rcases Nat.lt_or_ge pc q with hlt | hge
          · exact hstays q (Nat.le_of_lt hlt) hq'
          · rcases Nat.eq_or_lt_of_le hq with rfl | hlt
            · omega
            · have hdeep := stays q hlt hge
              omega
      | loop known' lt'' out' hstays =>
          have hout' : Wasm.depthAt code.ops.toList next' = depth' := out'
          refine .loop known' ?_ out' fun q hq hq' => hstays q hq (by omega)
          -- an outer loop begins before an inner one
          by_contra hle
          rcases Nat.eq_or_lt_of_le (Nat.le_of_not_lt hle) with rfl | hlt
          · omega
          · have hdeep := stays next' hlt (Nat.le_of_lt lt'')
            omega

/-- A branch goes ahead, or to the head of a loop. -/
theorem Aims.progress (h : code.Aims pc depth next) :
    pc < next ∨ ∃ t, code.ops[next]? = some (.loop t) := by
  cases h with
  | ahead le => exact .inl (Nat.lt_succ_of_le le)
  | loop known => exact .inr ⟨_, known⟩

/-! ## Partners -/

variable {c : Wasm.Context} {op : Wasm.Op}

namespace Typed

theorem depth_partner (h : code.Typed c) (hop : code.ops[pc]? = some op) (hp : op.HasPartner) :
    code.depth (code.partners.getD pc 0) = code.depth (pc + 1) := by
  obtain ⟨inner, outer, hat, ⟨b, -, hclosed⟩, -⟩ := h.partners pc op hop hp
  rw [depth_of_at hat, depth_of_at hclosed]
  rfl

/-- The end of a block lies ahead, within the block, and behind it the block is left. -/
theorem aims_done {f : CodeFrame} (h : f.code.Typed c) (enclosed : f.code.Enclosed)
    (hop : f.code.ops[pc]? = some op) (hp : op.HasPartner) (opens : op ≠ .orElse) :
    f.code.Aims (pc + 1) (f.code.depth pc) (f.donePlace pc + 1) := by
  have hdeeper : f.code.depth (pc + 1) = f.code.depth pc + 1 := by
    rw [depth_succ hop]
    cases op <;> first | rfl | exact absurd rfl opens | exact hp.elim
  obtain ⟨inner, outer, hat, -⟩ := h.partners pc op hop hp
  obtain ⟨b, -, hdone, hend⟩ := h.at_donePlace hop hp hat
  have hlast : f.code.depth (f.donePlace pc + 1) = f.code.depth pc := by
    rw [depth_succ hend, depth_of_at hdone]
    have hlength := depth_of_at hat
    simp only [List.length_cons] at hlength
    simp only [Wasm.Op.depthAfter, List.length_cons]
    omega
  obtain ⟨hlt, hstays⟩ := enclosed pc op hop hp
  rw [hdeeper] at hstays
  have hpartner := h.depth_partner hop hp
  clear hend hdone
  unfold CodeFrame.donePlace at hlast ⊢
  dsimp only at hlast ⊢
  generalize f.code.partners.getD pc 0 = p at hlt hstays hpartner hlast ⊢
  split at hlast <;> rename_i hbranch
  · rw [if_pos hbranch]
    have helse := getElem?_of_getD hbranch (by simp)
    obtain ⟨hlt', hstays'⟩ := enclosed p .orElse helse trivial
    have hsame : f.code.depth (p + 1) = f.code.depth pc + 1 :=
      (depth_succ helse).trans (hpartner.trans hdeeper)
    rw [hsame] at hstays'
    exact .ahead (by omega) (hstays.trans hstays') hlast
  · rw [if_neg hbranch]
    exact .ahead hlt hstays hlast

end Typed

end FuncCode

/-! ## Frames -/

namespace CodeFrame

open FuncCode

variable {f : CodeFrame} {w : World} {op : Wasm.Op} {pc : Nat} {ts : List Nat}

/-- Every branch that a frame can take at a place leads somewhere. The outermost block is left out,
as a branch to it ends the function. -/
def AimsAt (f : CodeFrame) (pc : Nat) (ts : List Nat) : Prop :=
  ∀ n ns, n :: ns <:+ ts → ns ≠ [] → f.code.Aims pc ns.length n

/-- The targets of a frame are those of the blocks that its code has open. -/
structure Aimed (f : CodeFrame) : Prop where
  enclosed : f.code.Enclosed
  aims : f.AimsAt f.pc f.targets

namespace AimsAt

theorem mono {ts' : List Nat} (h : f.AimsAt pc ts) (hs : ts' <:+ ts) : f.AimsAt pc ts' :=
  fun n ns hn hne => h n ns (hn.trans hs) hne

theorem forward {pc' : Nat} (h : f.AimsAt pc ts) (le : pc ≤ pc')
    (stays : f.code.Stays ts.length pc pc') : f.AimsAt pc' ts := by
  intro n ns hn hne
  exact (h n ns hn hne).forward le (Wasm.StaysIn.mono stays hn.length_le)

theorem push {next : Nat} (h : f.AimsAt pc ts) (hn : f.code.Aims pc ts.length next) :
    f.AimsAt pc (next :: ts) := by
  intro n ns hs hne
  rcases List.suffix_cons_iff.mp hs with heq | hs
  · cases heq
    exact hn
  · exact h n ns hs hne

/-- Only the innermost block is new; the others are as they were at an earlier place. -/
theorem opened {pc' next : Nat} (h : f.AimsAt pc ts) (le : pc ≤ pc')
    (stays : f.code.Stays ts.length pc pc') (hn : f.code.Aims pc' ts.length next) :
    f.AimsAt pc' (next :: ts) := (h.forward le stays).push hn

end AimsAt

theorem Typed.depth (h : f.Typed w) : f.code.depth f.pc = f.targets.length := by
  obtain ⟨i, c, o, os, b, bs, -, hat, hblocks, nested, -⟩ := h
  rw [depth_of_at hat, length_targets, hblocks]
  clear hat hblocks
  induction nested with
  | body => rfl
  | inner _ _ _ _ ih =>
      rw [List.length_cons, ih, List.length_cons]
      rfl

/-- What an instruction makes of a frame keeps its targets, and it goes on ahead or, for fuel, to
the head of a loop. -/
theorem Moves.aims (h : f.Moves op pc ts) (aimed : f.Aimed) (typed : f.Typed w)
    (hop : f.code.ops[f.pc]? = some op) :
    f.AimsAt pc ts ∧ (f.pc < pc ∨ op.cost = 1 ∧ ∃ t, f.code.ops[pc]? = some (.loop t)) := by
  have hdepth := typed.depth
  have hsucc := depth_succ hop
  obtain ⟨i, c, -, -, -, -, belongs, -⟩ := typed
  have htyped := belongs.code
  have hdone := htyped.aims_done (f := f) aimed.enclosed hop
  rw [hdepth] at hdone hsucc
  have here : f.targets.length ≤ f.code.depth f.pc := Nat.le_of_eq hdepth.symm
  have hpartner := aimed.enclosed f.pc op hop
  have hsame := htyped.depth_partner hop
  -- a block that is opened has the others around it
  have hopened {next : Nat} (hdeeper : f.code.depth (f.pc + 1) = f.targets.length + 1)
      (hn : f.code.Aims (f.pc + 1) f.targets.length next) :
      f.AimsAt (f.pc + 1) (next :: f.targets) :=
    aimed.aims.opened (Nat.le_succ _) (.next here (by
      have hle : f.targets.length ≤ f.code.depth (f.pc + 1) := by omega
      exact hle)) hn
  cases h with
  | straight flat inner =>
      rw [Wasm.Op.depthAfter_of_flat flat inner] at hsucc
      exact ⟨aimed.aims.forward (Nat.le_succ _) (.next here (Nat.le_of_eq hsucc.symm)),
        .inl (Nat.lt_succ_self _)⟩
  | block => exact ⟨hopened hsucc (hdone trivial (by simp)), .inl (Nat.lt_succ_self _)⟩
  | loop =>
      refine ⟨hopened hsucc (.loop hop (Nat.lt_succ_self _) hdepth ?_), .inl (Nat.lt_succ_self _)⟩
      exact .self (Nat.le_of_eq hsucc.symm)
  | ifThen => exact ⟨hopened hsucc (hdone trivial (by simp)), .inl (Nat.lt_succ_self _)⟩
  | otherwise branch =>
      obtain ⟨hlt, hstays⟩ := hpartner trivial
      have helse := getElem?_of_getD branch (by simp)
      have hstays : f.code.Stays (f.targets.length + 1) (f.pc + 1)
          (f.code.partners.getD f.pc 0 + 1) := by
        rw [hsucc] at hstays
        refine Stays.trans hstays (.self (Nat.le_of_eq ?_))
        exact ((depth_succ helse).trans ((hsame trivial).trans hsucc)).symm
      exact ⟨(hopened hsucc (hdone trivial (by simp))).forward (by omega) hstays, .inl (by omega)⟩
  | skip ends =>
      obtain ⟨hlt, hstays⟩ := hpartner trivial
      rw [hsucc] at hstays
      exact ⟨(hopened hsucc (hdone trivial (by simp))).forward hlt hstays, .inl hlt⟩
  | orElse =>
      obtain ⟨hlt, hstays⟩ := hpartner trivial
      rw [hsucc] at hstays
      exact ⟨aimed.aims.forward (Nat.le_of_lt hlt) (hstays.before here), .inl hlt⟩
  | @done n ts targets left =>
      rw [targets] at hsucc here
      have hts : ts.length = f.code.depth (f.pc + 1) := by
        rw [hsucc]
        rfl
      exact ⟨(aimed.aims.mono (targets ▸ List.suffix_cons n ts)).forward (Nat.le_succ _)
        (.next (Nat.le_of_succ_le here) (Nat.le_of_eq hts)), .inl (Nat.lt_succ_self _)⟩
  | @jump _ label n cost target left =>
      have hlt := (List.getElem?_eq_some_iff.mp target).1
      have hcons : pc :: f.targets.drop (label + 1) <:+ f.targets := by
        have hdrop := List.drop_eq_getElem_cons hlt
        rw [List.getElem?_eq_getElem hlt] at target
        rw [Option.some.inj target] at hdrop
        exact hdrop ▸ List.drop_suffix label f.targets
      have haim := aimed.aims _ _ hcons left
      refine ⟨fun n' ns' hs hne => ?_, haim.progress.imp id fun hloop => ⟨cost, hloop⟩⟩
      refine haim.jump (aimed.aims n' ns' (hs.trans (List.drop_suffix _ _)) hne) ?_
      exact Nat.lt_of_succ_le hs.length_le

end CodeFrame

end WasmHost

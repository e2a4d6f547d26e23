import WasmHost.Proofs.Wasm.Compiled
import WasmHost.Proofs.Wasm.Partners

/-!
# How deep code is nested

The depth of a place is the number of blocks that are open there. From an instruction that opens a
block on, and up to the end of the block, code is nowhere less deep than within the block; so what
jumps to its partner leaves no other block. Nor does it go back: code comes to an earlier place only
at the head of a loop that it is in.
-/

namespace WasmHost

namespace Wasm

/-- The number of open blocks behind an instruction. -/
def Op.depthAfter (depth : Nat) : Op → Nat
  | .block _ | .loop _ | .ifThen _ => depth + 1
  | .done => depth - 1
  | _ => depth

/-- The number of blocks that are open at a place of the body of a function. -/
def depthAt (ops : List Op) (pc : Nat) : Nat := (ops.take pc).foldl Op.depthAfter 1

/-- From one place to another, both included, code is nowhere less deep than `depth`. -/
def StaysIn (ops : List Op) (depth pc pc' : Nat) : Prop :=
  ∀ q, pc ≤ q → q ≤ pc' → depth ≤ depthAt ops q

variable {c : Context} {start blocks blocks' : List OpenBlock} {ops : List Op} {op : Op}
  {depth pc pc' : Nat}

theorem Op.depthAfter_of_flat (h : ¬op.HasPartner) (hd : op ≠ .done) :
    op.depthAfter depth = depth := by
  cases op <;> first | rfl | exact absurd trivial h | exact absurd rfl hd

theorem Reshapes.length {blocks blocks' : List OpenBlock} (h : Reshapes op blocks blocks') :
    blocks'.length = op.depthAfter blocks.length := by
  cases h with
  | opens partner other =>
      cases op <;> first | rfl | exact partner.elim | exact absurd rfl other
  | plain hflat hd => exact (Op.depthAfter_of_flat hflat hd).symm
  | _ => rfl

theorem depthAt_succ (hop : ops[pc]? = some op) :
    depthAt ops (pc + 1) = op.depthAfter (depthAt ops pc) := by
  obtain ⟨hlt, rfl⟩ := List.getElem?_eq_some_iff.mp hop
  rw [depthAt, List.take_succ_eq_append_getElem hlt, List.foldl_append]
  rfl

theorem length_of_foldlM (h : ops.foldlM c.checkOp blocks = some blocks') :
    blocks'.length = ops.foldl Op.depthAfter blocks.length := by
  induction ops generalizing blocks with
  | nil =>
      cases h
      rfl
  | cons op ops ih =>
      rw [List.foldlM_cons] at h
      obtain ⟨between, hcheck, h⟩ := Option.bind_eq_some_iff.mp h
      rw [ih h, (Context.reshapes_checkOp hcheck).length, List.foldl_cons]

/-- The depth of a place is the number of blocks that typing knows there. -/
theorem BlocksAt.length {b : OpenBlock} (h : BlocksAt c [b] ops pc blocks) :
    blocks.length = depthAt ops pc := length_of_foldlM h

namespace StaysIn

theorem self (h : depth ≤ depthAt ops pc) : StaysIn ops depth pc pc := by
  intro q hle hge
  obtain rfl := Nat.le_antisymm hle hge
  exact h

theorem before (h : StaysIn ops depth (pc + 1) pc') (here : depth ≤ depthAt ops pc) :
    StaysIn ops depth pc pc' := by
  intro q hle hge
  rcases Nat.eq_or_lt_of_le hle with rfl | hlt
  · exact here
  · exact h q hlt hge

theorem mono {depth' : Nat} (h : StaysIn ops depth pc pc') (hle : depth' ≤ depth) :
    StaysIn ops depth' pc pc' := fun q hq hq' => Nat.le_trans hle (h q hq hq')

/-- A straight step. -/
theorem next (h : depth ≤ depthAt ops pc) (h' : depth ≤ depthAt ops (pc + 1)) :
    StaysIn ops depth pc (pc + 1) := (self h').before h

end StaysIn

/-- The depth behind an instruction that is well typed. -/
theorem depthAt_checkOp (hop : ops[pc]? = some op) (hcheck : c.checkOp blocks op = some blocks')
    (h : depthAt ops pc = blocks.length) : depthAt ops (pc + 1) = blocks'.length := by
  rw [depthAt_succ hop, h, (Context.reshapes_checkOp hcheck).length]

/-! ## Partners -/

/-- Code from a place on gives partners within them to the blocks that are open, and to those that
its own instructions open. -/
structure Within (ops : List Op) (openings : List Nat) (i : Nat) (final : Array Nat) : Prop where
  opened : ∀ k o : Nat, openings[k]? = some o →
    i ≤ final.getD o 0 ∧ StaysIn ops (depthAt ops i - k) i (final.getD o 0)
  ahead : ∀ (j : Nat) (op : Op), i ≤ j → ops[j]? = some op → op.HasPartner →
    j < final.getD j 0 ∧ StaysIn ops (depthAt ops (j + 1)) (j + 1) (final.getD j 0)

theorem Within.cons {openings openings' : List Nat} {i : Nat} {final : Array Nat}
    (h : Within ops openings' (i + 1) final) (hop : ops[i]? = some op)
    (opened : ∀ k o : Nat, openings[k]? = some o →
      final.getD o 0 = i ∧ k = 0 ∨ ∃ k' : Nat, openings'[k']? = some o ∧
        depthAt ops i - k ≤ depthAt ops (i + 1) - k')
    (new : op.HasPartner → openings'[0]? = some i) : Within ops openings i final := by
  refine ⟨fun k o ho => ?_, fun j op' hj hop' hpartner => ?_⟩
  · rcases opened k o ho with ⟨hfinal, rfl⟩ | ⟨k', ho', hdepth⟩
    · rw [hfinal]
      exact ⟨Nat.le_refl i, .self (Nat.sub_le _ _)⟩
    · obtain ⟨hle, hstays⟩ := h.opened k' o ho'
      exact ⟨Nat.le_of_succ_le hle, (hstays.mono hdepth).before (Nat.sub_le _ _)⟩
  · rcases Nat.eq_or_lt_of_le hj with rfl | hlt
    · obtain rfl := Option.some.inj (hop.symm.trans hop')
      exact h.opened 0 i (new hpartner)
    · exact h.ahead j op' hlt hop' hpartner

/-- Each partner is within the block. -/
theorem Scans.within {openings : List Nat} {i : Nat} {final : Array Nat}
    (h : Scans c ops final openings i blocks) (hdepth : depthAt ops i = blocks.length) :
    Within ops openings i final := by
  induction h with
  | @ends i b hop hlast =>
      refine ⟨fun k o ho => (by cases ho), fun j op' hj hop' hpartner => ?_⟩
      have hlt := (List.getElem?_eq_some_iff.mp hop').1
      obtain rfl : i = j := by omega
      obtain rfl := Option.some.inj (hop.symm.trans hop')
      exact hpartner.elim
  | @opens openings i op inner b b' outer hop hpartner _ hcheck _ ih =>
      have hdepth' := depthAt_checkOp hop hcheck hdepth
      simp only [List.length_cons] at hdepth hdepth'
      exact (ih hdepth').cons hop (fun k o ho => .inr ⟨k + 1, ho, by omega⟩) fun _ => rfl
  | @turns openings i o b inner outer hop _ hfound hcheck _ ih =>
      have hdepth' := depthAt_checkOp hop hcheck hdepth
      simp only [List.length_cons] at hdepth hdepth'
      refine (ih hdepth').cons hop (fun k o' ho => ?_) fun _ => rfl
      cases k with
      | zero =>
          cases ho
          exact .inl ⟨hfound, rfl⟩
      | succ k => exact .inr ⟨k + 1, ho, by omega⟩
  | @closes openings i o b d d' outer hop _ hfound hcheck _ ih =>
      have hdepth' := depthAt_checkOp hop hcheck hdepth
      simp only [List.length_cons] at hdepth hdepth'
      refine (ih hdepth').cons hop (fun k o' ho => ?_) fun hpartner => hpartner.elim
      cases k with
      | zero =>
          cases ho
          exact .inl ⟨hfound, rfl⟩
      | succ k => exact .inr ⟨k, ho, by omega⟩
  | @plain openings i op b b' outer hop hflat _ _ hcheck _ ih =>
      have hdepth' := depthAt_checkOp hop hcheck hdepth
      simp only [List.length_cons] at hdepth hdepth'
      exact (ih hdepth').cons hop (fun k o ho => .inr ⟨k, ho, by omega⟩)
        fun hpartner => absurd hpartner hflat

end Wasm

namespace FuncCode

/-- The depth of a place of the code. -/
def depth (code : FuncCode) (pc : Nat) : Nat := Wasm.depthAt code.ops.toList pc

/-- From one place to another, both included, the code is nowhere less deep than `depth`. -/
def Stays (code : FuncCode) (depth pc pc' : Nat) : Prop :=
  Wasm.StaysIn code.ops.toList depth pc pc'

/-- Each instruction that has a partner lies before it, and between the two the code leaves no block
that is open behind the instruction. -/
def Enclosed (code : FuncCode) : Prop :=
  ∀ pc op, code.ops[pc]? = some op → op.HasPartner →
    pc < code.partners.getD pc 0 ∧
      code.Stays (code.depth (pc + 1)) (pc + 1) (code.partners.getD pc 0)

/-- No partner lies before its instruction. -/
def Forward (c : FuncCode) : Prop :=
  ∀ pc op, c.ops[pc]? = some op → op.HasPartner → pc ≤ c.partners.getD pc 0

variable {code : FuncCode} {pc : Nat} {op : Wasm.Op}

theorem Enclosed.forward (h : code.Enclosed) : code.Forward :=
  fun pc op hop hpartner => Nat.le_of_lt (h pc op hop hpartner).1

theorem depth_succ (hop : code.ops[pc]? = some op) :
    code.depth (pc + 1) = op.depthAfter (code.depth pc) :=
  Wasm.depthAt_succ (by simpa using hop)

theorem enclosed_make {c : Wasm.Context} {type : FuncType} {code : Wasm.Code}
    (h : c.checkBody type code.body) (index : Nat) (type' : FuncType) (layout : Wasm.Layout) :
    (FuncCode.make index type' code layout).Enclosed := by
  intro pc op hop hpartner
  exact (Wasm.Context.scans_of_checkBody h).within rfl |>.ahead pc op (Nat.zero_le pc)
    (by simpa [make] using hop) hpartner

end FuncCode

namespace CompiledModule

variable {m : CompiledModule} {o : EngineOptions} {bytes : Wasm.Bytes}

theorem enclosed_ofBinary (h : ofBinary o bytes = .ok m) : ∀ code ∈ m.codes, code.Enclosed := by
  intro code hcode
  obtain ⟨k, hk⟩ := Array.mem_iff_getElem?.mp hcode
  obtain ⟨type, body, layout, -, -, rfl, checked⟩ := made_of_ofBinary h hk
  exact FuncCode.enclosed_make checked _ _ _

/-- No code of a compiled module jumps back to a partner. -/
theorem forward_ofBinary (h : ofBinary o bytes = .ok m) : ∀ code ∈ m.codes, code.Forward :=
  fun code hcode => (enclosed_ofBinary h code hcode).forward

end CompiledModule

end WasmHost

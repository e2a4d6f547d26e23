import WasmHost.Proofs.Machine.Outcomes
import WasmHost.Proofs.Wasm.Depth
import WasmHost.Proofs.World.Slots

/-!
# What running code can still use

A frame of code can use its operands, and a local that is read at a place it can still come to: one
from the place at hand on, or from the head of a loop that it is in. `CodeFrame.Safe` says that the
boxes of all these are among those that code has seen; every instruction keeps it so.
-/

namespace WasmHost

open Val World

variable {h₀ : RefHeap} {O : Multiset RefId} {H : Multiset BoxId} {S S' : Set BoxId} {w : World}

/-- Code from a place on reads a local. -/
def FuncCode.ReadsFrom (c : FuncCode) (place i : Nat) : Prop :=
  ∃ pc, place ≤ pc ∧ c.ops[pc]? = some (.localGet i)

namespace CodeFrame

/-- The operands of all open blocks. -/
def operands (f : CodeFrame) : List StoreVal := f.blocks.flatMap (·.stack)

/-- What a frame that never comes to a place before `first` can use is in `S`. -/
structure Safe (S : Set BoxId) (first : Nat) (f : CodeFrame) : Prop where
  operands : ∀ b ∈ foreigns f.operands, b ∈ S
  locals : ∀ (i : Nat) (v : StoreVal), f.locals[i]? = some v → f.code.ReadsFrom first i →
    ∀ b ∈ foreigns [v], b ∈ S
  pc : first ≤ f.pc
  blocks : ∀ b ∈ f.blocks, first ≤ b.next
  forward : f.code.Forward

namespace Safe

variable {first : Nat} {f : CodeFrame}

theorem mono (h : f.Safe S first) (hS : S ⊆ S') : f.Safe S' first :=
  ⟨fun b hb => hS (h.operands b hb), fun i v hv hr b hb => hS (h.locals i v hv hr b hb), h.pc,
    h.blocks, h.forward⟩

/-- What a frame can use has nothing to do with its fuel. -/
theorem refuel (h : f.Safe S first) (entered : Bool) (owed burned : Nat) :
    ({ f with entered, owed, burned } : CodeFrame).Safe S first :=
  ⟨h.operands, h.locals, h.pc, h.blocks, h.forward⟩

/-- The same code with other operands. -/
theorem withBlocks {blocks : List RunBlock} (h : f.Safe S first)
    (hstack : ∀ b ∈ foreigns (blocks.flatMap (·.stack)), b ∈ S)
    (hnext : ∀ b ∈ blocks, first ≤ b.next) : ({ f with blocks } : CodeFrame).Safe S first :=
  ⟨hstack, h.locals, h.pc, hnext, h.forward⟩

theorem jump {pc : Nat} (h : f.Safe S first) (hpc : first ≤ pc) :
    ({ f with pc } : CodeFrame).Safe S first :=
  ⟨h.operands, h.locals, hpc, h.blocks, h.forward⟩

theorem advance (h : f.Safe S first) : f.advance.Safe S first := h.jump (Nat.le_succ_of_le h.pc)

theorem mem_block (h : f.Safe S first) {b : RunBlock} (hb : b ∈ f.blocks) {id : BoxId}
    (hid : id ∈ foreigns b.stack) : id ∈ S :=
  h.operands id (foreigns_mono (fun _ hv => List.mem_flatMap.mpr ⟨b, hb, hv⟩) hid)

/-- The innermost block with other operands. -/
theorem withTop {b : RunBlock} {bs : List RunBlock} (h : f.Safe S first) (hf : f.blocks = b :: bs)
    {stack : List StoreVal} (hstack : ∀ id ∈ foreigns stack, id ∈ S) :
    ({ f with blocks := { b with stack } :: bs } : CodeFrame).Safe S first := by
  refine h.withBlocks (fun id hid => ?_) fun b' hb' => ?_
  · rw [List.flatMap_cons, foreigns_append, Multiset.mem_add] at hid
    refine hid.elim (hstack id) fun hid => h.operands id ?_
    rw [CodeFrame.operands, hf, List.flatMap_cons, foreigns_append, Multiset.mem_add]
    exact .inr hid
  · rcases List.mem_cons.mp hb' with rfl | hb'
    · exact h.blocks b (hf ▸ List.mem_cons_self)
    · exact h.blocks b' (hf ▸ List.mem_cons_of_mem b hb')

theorem push {v : StoreVal} (h : f.Safe S first) (hv : ∀ b ∈ foreigns [v], b ∈ S) :
    (f.push v).Safe S first := by
  unfold CodeFrame.push
  split
  · rename_i b bs hf
    refine h.withTop hf fun id hid => ?_
    rw [foreigns_cons, Multiset.mem_add] at hid
    exact hid.elim (hv id) (h.mem_block (hf ▸ List.mem_cons_self))
  · exact h

/-- A value that is no foreign reference. -/
theorem pushPlain {v : StoreVal} (h : f.Safe S first) (hv : v.foreign? = none) :
    (f.push v).Safe S first :=
  h.push fun b hb => by
    rw [foreigns_of_none hv] at hb
    cases hb

theorem pushAll {vs : List StoreVal} (h : f.Safe S first) (hvs : ∀ b ∈ foreigns vs, b ∈ S) :
    (f.pushAll vs).Safe S first := by
  unfold CodeFrame.pushAll
  induction vs generalizing f with
  | nil => exact h
  | cons v vs ih =>
      rw [foreigns_cons] at hvs
      exact ih (h.push fun b hb => hvs b (Multiset.mem_add.mpr (.inl hb)))
        fun b hb => hvs b (Multiset.mem_add.mpr (.inr hb))

theorem popped (h : f.Safe S first) : ∀ b ∈ foreigns [f.pop.1], b ∈ S := by
  intro id hid
  unfold CodeFrame.pop at hid
  split at hid
  · rename_i b bs hf
    refine h.mem_block (hf ▸ List.mem_cons_self : b ∈ f.blocks) ?_
    cases hs : b.stack with
    | nil =>
        rw [hs] at hid
        cases hid
    | cons v vs =>
        rw [hs] at hid
        rw [foreigns_cons, Multiset.mem_add]
        exact .inl hid
  · cases hid

theorem pop (h : f.Safe S first) : f.pop.2.Safe S first := by
  unfold CodeFrame.pop
  split
  · rename_i b bs hf
    exact h.withTop hf fun id hid => h.mem_block (hf ▸ List.mem_cons_self)
      (foreigns_mono (List.tail_subset b.stack) hid)
  · exact h

theorem popBits (h : f.Safe S first) : f.popBits.2.Safe S first := h.pop

theorem popMany (h : f.Safe S first) (n : Nat) :
    (∀ b ∈ foreigns (f.popMany n).1, b ∈ S) ∧ (f.popMany n).2.Safe S first := by
  induction n generalizing f with
  | zero => exact ⟨by simp [CodeFrame.popMany], h⟩
  | succ n ih =>
      obtain ⟨hvs, hf⟩ := ih h.pop
      refine ⟨fun b hb => ?_, hf⟩
      simp only [CodeFrame.popMany, foreigns_append, Multiset.mem_add] at hb
      exact hb.elim (hvs b) (h.popped b)

theorem openBlock {next : Nat} (h : f.Safe S first) (hnext : first ≤ next) (arity params : Nat) :
    (f.openBlock next arity params).Safe S first := by
  obtain ⟨hvs, hf⟩ := h.popMany params
  refine hf.withBlocks (fun b hb => ?_) fun b hb => ?_
  · rw [List.flatMap_cons, foreigns_append, Multiset.mem_add] at hb
    refine hb.elim (fun hb => hvs b (foreigns_mono (fun _ => List.mem_reverse.mp) hb)) ?_
    exact hf.operands b
  · rcases List.mem_cons.mp hb with rfl | hb
    · exact hnext
    · exact hf.blocks b hb

theorem setLocal {v : StoreVal} (h : f.Safe S first) (hv : ∀ b ∈ foreigns [v], b ∈ S) (i : Nat) :
    ({ f with locals := f.locals.setIfInBounds i v } : CodeFrame).Safe S first := by
  refine ⟨h.operands, fun j u hu hr b hb => ?_, h.pc, h.blocks, h.forward⟩
  dsimp only at hu hr
  rw [Array.getElem?_setIfInBounds] at hu
  split at hu
  · split at hu <;> cases hu
    exact hv b hb
  · exact h.locals j u hu hr b hb

theorem readLocal {i : Nat} (h : f.Safe S first) (hop : f.code.ops[f.pc]? = some (.localGet i)) :
    ∀ b ∈ foreigns [f.locals.getD i default], b ∈ S := by
  cases hv : f.locals[i]? with
  | none =>
      rw [Array.getD_eq_getD_getElem?, hv]
      intro b hb
      cases hb
  | some v =>
      rw [Array.getD_eq_getD_getElem?, hv]
      exact h.locals i v hv ⟨f.pc, h.pc, hop⟩

theorem le_partner {op : Wasm.Op} (h : f.Safe S first) (hop : f.code.ops[f.pc]? = some op)
    (hpartner : op.HasPartner) : first ≤ f.code.partners.getD f.pc 0 :=
  Nat.le_trans h.pc (h.forward f.pc op hop hpartner)

theorem le_donePlace {op : Wasm.Op} (h : f.Safe S first) (hop : f.code.ops[f.pc]? = some op)
    (hpartner : op.HasPartner) : first ≤ f.donePlace f.pc := by
  have hle := h.le_partner hop hpartner
  simp only [donePlace]
  split
  · rename_i helse
    exact Nat.le_trans hle (h.forward _ .orElse (getElem?_of_getD helse (by simp)) trivial)
  · exact hle

end Safe

end CodeFrame

/-! ## Instructions -/

/-- After an instruction everything is counted, and what code can still use is among what it has
seen. -/
inductive Outcome.Keeps (h₀ : RefHeap) (O : Multiset RefId) (H : Multiset BoxId) (S : Set BoxId)
    (first : Nat) : Outcome → Prop
  | next {S' : Set BoxId} {f : CodeFrame} {w : World} (grows : S ⊆ S')
      (world : w.Sound h₀ O H S') (frame : f.Safe S' first) : Keeps h₀ O H S first (.next f w)
  | trap {S' : Set BoxId} {c : TrapCode} {f : CodeFrame} {w : World} (grows : S ⊆ S')
      (world : w.Sound h₀ O H S') (frame : f.Safe S' first) : Keeps h₀ O H S first (.trap c f w)
  | call {S' : Set BoxId} {func : FuncAddr} {args : List StoreVal} {f : CodeFrame} {w : World}
      (grows : S ⊆ S') (world : w.Sound h₀ O H S') (frame : f.Safe S' first)
      (args_seen : ∀ b ∈ foreigns args, b ∈ S') : Keeps h₀ O H S first (.call func args f w)
  | exit {S' : Set BoxId} {vals : List StoreVal} {w : World} (grows : S ⊆ S')
      (world : w.Sound h₀ O H S') (vals_seen : ∀ b ∈ foreigns vals, b ∈ S') :
      Keeps h₀ O H S first (.exit vals w)

open Outcome (Keeps)

variable {first : Nat} {f g : CodeFrame}

theorem keeps_next {v : World} (hw : v.Sound h₀ O H S) (hf : g.Safe S first) :
    (Outcome.next g v).Keeps h₀ O H S first := .next subset_rfl hw hf

theorem keeps_trap {v : World} {c : TrapCode} (hw : v.Sound h₀ O H S) (hf : g.Safe S first) :
    (Outcome.trap c g v).Keeps h₀ O H S first := .trap subset_rfl hw hf

theorem keeps_proceed {v : World} (hw : v.Sound h₀ O H S) (hf : g.Safe S first) :
    (proceed g v).Keeps h₀ O H S first := keeps_next hw hf.advance

theorem sound_mapFuel (hw : w.Sound h₀ O H S) (f : Fuel → Fuel) :
    (w.mapFuel f).Sound h₀ O H S := hw.of_le rfl rfl le_rfl

theorem sound_mapMemory (hw : w.Sound h₀ O H S) (addr : Nat) (f : Memory → Memory) :
    (w.mapMemory addr f).Sound h₀ O H S := hw.of_le rfl rfl le_rfl

theorem sound_dropSegment (hw : w.Sound h₀ O H S) (owner : InstanceAddr) (f : Instance → Instance) :
    (dropSegment owner f w).Sound h₀ O H S := hw.of_le rfl rfl le_rfl

theorem refs_setPending (s : Shared) (id : SignalId) (b : Bool) :
    (s.setPending id b).refs = s.refs := by
  unfold Shared.setPending
  split
  · rfl
  · cases b <;> rfl

theorem sound_meetDeadline (hw : w.Sound h₀ O H S) : w.meetDeadline.2.Sound h₀ O H S := by
  unfold meetDeadline
  split
  · exact hw.of_le (refs_setPending _ _ _) rfl le_rfl
  · exact hw.of_le rfl rfl le_rfl

section Instructions

variable (hw : w.Sound h₀ O H S) (hf : f.Safe S first)
include hw hf

theorem keeps_check : (f.check w).Keeps h₀ O H S first := by
  unfold CodeFrame.check
  split
  · exact keeps_trap (sound_mapFuel hw _) (hf.refuel _ _ _)
  · split
    · have hmet := sound_meetDeadline hw
      split <;> rename_i h <;> rw [h] at hmet
      · exact keeps_trap hmet hf
      · exact keeps_next hmet hf
    · exact keeps_next hw hf

omit hf in
theorem keeps_leave {vals : List StoreVal} (hvals : ∀ b ∈ foreigns vals, b ∈ S) :
    (f.leave vals w).Keeps h₀ O H S first := .exit subset_rfl (sound_mapFuel hw _) hvals

theorem keeps_branch (label : Nat) : (f.branch label w).Keeps h₀ O H S first := by
  unfold CodeFrame.branch
  split
  · rename_i top inner target htop htarget
    have hvals : ∀ b ∈ foreigns (top.stack.take target.arity), b ∈ S := fun b hb =>
      hf.mem_block (htop ▸ List.mem_cons_self) (foreigns_mono (List.take_subset _ _) hb)
    dsimp only
    split
    · rename_i outer rest hdrop
      have hsub : outer :: rest ⊆ f.blocks := hdrop ▸ List.drop_subset _ _
      refine keeps_next hw ((hf.jump (hf.blocks target (List.mem_of_getElem? htarget))).withBlocks
        (fun b hb => ?_) fun b hb => ?_)
      · rw [List.flatMap_cons, foreigns_append, foreigns_append, Multiset.mem_add,
          Multiset.mem_add] at hb
        rcases hb with (hb | hb) | hb
        · exact hvals b hb
        · exact hf.mem_block (hsub List.mem_cons_self) hb
        · refine hf.operands b (foreigns_mono (fun v hv => ?_) hb)
          obtain ⟨b', hb', hv⟩ := List.mem_flatMap.mp hv
          exact List.mem_flatMap.mpr ⟨b', hsub (List.mem_cons_of_mem _ hb'), hv⟩
      · rcases List.mem_cons.mp hb with rfl | hb
        · exact hf.blocks outer (hsub List.mem_cons_self)
        · exact hf.blocks b (hsub (List.mem_cons_of_mem _ hb))
    · exact keeps_leave hw fun b hb => hvals b (foreigns_mono (fun _ => List.mem_reverse.mp) hb)
  · exact keeps_leave hw (by simp)

theorem keeps_execLoad (op : Wasm.LoadOp) (arg : Wasm.MemArg) :
    (execLoad op arg f w).Keeps h₀ O H S first := by
  simp only [execLoad]
  split
  · exact keeps_proceed hw (hf.popBits.pushPlain (foreign?_ofBits _ _))
  · exact keeps_trap hw hf

theorem keeps_execStore (op : Wasm.StoreOp) (arg : Wasm.MemArg) :
    (execStore op arg f w).Keeps h₀ O H S first := by
  simp only [execStore]
  split
  · exact keeps_proceed (sound_mapMemory hw _ _) hf.pop.popBits
  · exact keeps_trap hw hf

theorem keeps_execMemory (op : Wasm.Op) : (execMemory op f w).Keeps h₀ O H S first := by
  have houtcome := memory_outcome op f w
  generalize execMemory op f w = o at houtcome ⊢
  cases houtcome with
  | wrote => exact keeps_proceed (sound_mapMemory hw _ _) hf.popBits.pop.popBits
  | grown _ grown =>
      simp only [growPages] at grown
      split at grown <;> cases grown
      exact keeps_proceed (sound_mapMemory hw _ _) (hf.popBits.pushPlain rfl)
  | full => exact keeps_proceed hw (hf.popBits.pushPlain rfl)
  | sized => exact keeps_proceed hw (hf.pushPlain rfl)
  | dropped => exact keeps_proceed (sound_dropSegment hw _ _) hf
  | outOfBounds => exact keeps_trap hw hf
  | other => exact keeps_proceed hw hf

omit hw hf in
/-- What a segment has are references to functions and what globals hold. -/
theorem globalSlots_of_segment {e d n : Nat} : ∀ b ∈ foreigns (((((f.ownerOf w).map fun i =>
    if i.droppedElems.getD e true then []
    else (i.module.module.elems[e]?.map fun e => w.elemValues i e.items).getD []).getD []).drop
      d).take n), b ∈ w.store.globalSlots := by
  intro b hb
  replace hb := foreigns_mono (fun _ hv => List.mem_of_mem_drop (List.mem_of_mem_take hv)) hb
  cases hi : f.ownerOf w with
  | none =>
      rw [hi] at hb
      cases hb
  | some i =>
      rw [hi, Option.map_some, Option.getD_some] at hb
      split at hb
      · cases hb
      · cases he : i.module.module.elems[e]? with
        | none =>
            rw [he] at hb
            cases hb
        | some e =>
            rw [he, Option.map_some, Option.getD_some] at hb
            exact foreigns_elemValues w i e.items b hb

theorem keeps_execTable (op : Wasm.Op) : (execTable op f w).Keeps h₀ O H S first := by
  have hpop3 := hf.popBits.pop.popBits
  have hseen {v : StoreVal} (hv : ∀ b ∈ foreigns [v], b ∈ S) :
      ∀ b ∈ foreigns [v], w.Kept H S b := fun b hb => .inr (hv b hb)
  have houtcome := table_outcome op f w
  generalize execTable op f w = o at houtcome ⊢
  cases houtcome with
  | got known =>
      have hexposed := hw.exposeVal (kept_of_elem known)
      refine .next Set.subset_union_left hexposed (CodeFrame.Safe.advance ?_)
      exact (hf.popBits.mono Set.subset_union_left).push fun b hb => .inr hb
  | set => exact keeps_proceed (hw.putElem _ _ (hseen hf.popped)) hf.pop.popBits
  | sized => exact keeps_proceed hw (hf.pushPlain rfl)
  | grown =>
      exact keeps_proceed (hw.growElems _ _ (hseen hf.popBits.popped))
        (hf.popBits.pop.pushPlain rfl)
  | filled =>
      refine keeps_proceed (hw.putElems _ _ fun b hb => .inr ?_) hpop3
      obtain ⟨v, hv, hb⟩ := mem_foreigns.mp hb
      rw [List.eq_of_mem_replicate hv] at hb
      exact hf.popBits.popped b (mem_foreigns.mpr ⟨_, List.mem_singleton_self _, hb⟩)
  | copied => exact keeps_proceed (hw.copyElems _ _ _ _ _) hpop3
  | initialized =>
      refine keeps_proceed (hw.putElems _ _ fun b hb => .inl (Multiset.mem_add.mpr (.inl ?_))) hpop3
      exact globalSlots_of_segment b hb
  | dropped => exact keeps_proceed (sound_dropSegment hw _ _) hf
  | outOfBounds => exact keeps_trap hw hf
  | other => exact keeps_proceed hw hf

theorem keeps_execCallIndirect (type table : Nat) :
    (execCallIndirect type table f w).Keeps h₀ O H S first := by
  unfold execCallIndirect
  dsimp only
  split
  · exact keeps_trap hw hf
  · split
    · obtain ⟨hargs, hframe⟩ := hf.popBits.popMany (f.blockType w (.index type)).params.length
      exact .call subset_rfl hw hframe hargs
    · exact keeps_trap hw hf
  · exact keeps_trap hw hf

theorem keeps_loop (t : Wasm.BlockType) : (exec (.loop t) f w).Keeps h₀ O H S first := by
  have hchecked := keeps_check hw hf
  simp only [exec]
  split
  · rename_i h
    rw [h] at hchecked
    cases hchecked with
    | next grows world frame => exact .next grows world (frame.openBlock frame.pc _ _).advance
  · exact hchecked

theorem keeps_ifThen {t : Wasm.BlockType} (hop : f.code.ops[f.pc]? = some (.ifThen t)) :
    (exec (.ifThen t) f w).Keeps h₀ O H S first := by
  have hnext := Nat.le_succ_of_le (hf.le_donePlace hop trivial)
  have hpartner := hf.le_partner hop trivial
  have hopened (type : FuncType) := hf.popBits.openBlock hnext type.results.length
    type.params.length
  simp only [exec]
  split
  · exact keeps_proceed hw (hopened _)
  · split
    · exact keeps_next hw ((hopened _).jump (Nat.le_succ_of_le hpartner))
    · exact keeps_next hw ((hopened _).jump hpartner)

theorem keeps_done : (exec .done f w).Keeps h₀ O H S first := by
  simp only [exec]
  split
  · exact keeps_leave hw (by simp)
  · rename_i b hb
    exact keeps_leave hw fun id hid => hf.mem_block (hb ▸ List.mem_cons_self)
      (foreigns_mono (fun _ => List.mem_reverse.mp) hid)
  · rename_i b outer rest hb
    refine keeps_proceed hw (hf.withBlocks (fun id hid => hf.operands id ?_) fun b' hb' => ?_)
    · simpa [CodeFrame.operands, hb, foreigns_append] using hid
    · rcases List.mem_cons.mp hb' with rfl | hb'
      · exact hf.blocks outer (by simp [hb])
      · exact hf.blocks b' (by simp [hb, hb'])

theorem keeps_numeric (op : Wasm.NumOp) : (exec (.numeric op) f w).Keeps h₀ O H S first := by
  simp only [exec]
  split
  · exact keeps_proceed hw hf
  · rename_i b rest hb
    split
    · rename_i happly
      exact keeps_proceed hw (hf.withTop hb fun id hid =>
        hf.mem_block (hb ▸ List.mem_cons_self) (foreigns_apply happly hid))
    · exact keeps_trap hw hf

theorem keeps_exec {op : Wasm.Op} (hop : op = .unreachable ∨ f.code.ops[f.pc]? = some op) :
    (exec op f w).Keeps h₀ O H S first := by
  have hproceed {g : CodeFrame} (hg : g.Safe S first) : (proceed g w).Keeps h₀ O H S first :=
    keeps_proceed hw hg
  have hat (hne : op ≠ .unreachable) : f.code.ops[f.pc]? = some op := hop.resolve_left hne
  cases op with
  | unreachable => exact keeps_trap hw hf
  | block t => exact hproceed (hf.openBlock (Nat.le_succ_of_le
      (hf.le_donePlace (hat (by simp)) trivial)) _ _)
  | loop t => exact keeps_loop hw hf t
  | ifThen t => exact keeps_ifThen hw hf (hat (by simp))
  | orElse => exact keeps_next hw (hf.jump (hf.le_partner (hat (by simp)) trivial))
  | done => exact keeps_done hw hf
  | br l => exact keeps_branch hw hf l
  | brIf l =>
      simp only [exec]
      split
      · exact keeps_branch hw hf.popBits l
      · exact hproceed hf.popBits
  | brTable ls l => exact keeps_branch hw hf.popBits _
  | ret => exact keeps_branch hw hf _
  | call i =>
      obtain ⟨hargs, hframe⟩ := hf.popMany ((w.store.funcs[f.address w (·.funcs) i]?.map
        (·.type.params.length)).getD 0)
      exact .call subset_rfl hw hframe hargs
  | callIndirect type table => exact keeps_execCallIndirect hw hf type table
  | nop => exact hproceed hf
  | drop => exact hproceed hf.pop
  | select | selectTyped =>
      have hpick {p : Prop} [Decidable p] {u v : StoreVal} (hu : ∀ b ∈ foreigns [u], b ∈ S)
          (hv : ∀ b ∈ foreigns [v], b ∈ S) : ∀ b ∈ foreigns [if p then u else v], b ∈ S := by
        split <;> assumption
      exact hproceed (hf.popBits.pop.pop.push
        (hpick hf.popBits.pop.popped hf.popBits.popped))
  | localGet i => exact hproceed (hf.push (hf.readLocal (hat (by simp))))
  | localSet i => exact hproceed (hf.pop.setLocal hf.popped i)
  | localTee i => exact hproceed ((hf.pop.setLocal hf.popped i).push hf.popped)
  | globalGet i =>
      have hexposed := hw.exposeVal (v := w.globalValue (f.address w (·.globals) i)) kept_of_global
      refine .next Set.subset_union_left hexposed (CodeFrame.Safe.advance ?_)
      exact (hf.mono Set.subset_union_left).push fun b hb => .inr hb
  | globalSet i =>
      exact keeps_proceed (hw.putGlobal _ fun b hb => .inr (hf.popped b hb)) hf.pop
  | refNull t => exact hproceed (hf.pushPlain (foreign?_default t))
  | refIsNull => exact hproceed (hf.pop.pushPlain rfl)
  | refFunc | i32Const | i64Const | f32Const | f64Const => exact hproceed (hf.pushPlain rfl)
  | load op arg => exact keeps_execLoad hw hf op arg
  | atomicLoad arg => exact keeps_execLoad hw hf _ arg
  | store op arg => exact keeps_execStore hw hf op arg
  | numeric op => exact keeps_numeric hw hf op
  | memorySize | memoryGrow | memoryFill | memoryCopy | memoryInit | dataDrop =>
      simp only [exec]
      exact keeps_execMemory hw hf _
  | tableGet | tableSet | tableSize | tableGrow | tableFill | tableCopy | tableInit | elemDrop =>
      simp only [exec]
      exact keeps_execTable hw hf _

theorem keeps_frameStep : (f.step w).Keeps h₀ O H S first := by
  unfold CodeFrame.step
  split
  · have hchecked := keeps_check hw (hf.refuel f.entered 0 (f.burned + f.owed))
    split
    · rename_i h
      have hchecked : (f.reckon.check w).Keeps h₀ O H S first := hchecked
      rw [h] at hchecked
      cases hchecked with
      | next grows world frame => exact .next grows world (frame.refuel _ _ _)
    · exact hchecked
  · dsimp only
    have hop : f.code.ops.getD f.pc .unreachable = .unreachable ∨
        f.code.ops[f.pc]? = some (f.code.ops.getD f.pc .unreachable) := by
      by_cases h : f.code.ops.getD f.pc .unreachable = .unreachable
      · exact .inl h
      · exact .inr (getElem?_of_getD rfl h)
    generalize f.code.ops.getD f.pc .unreachable = op at hop ⊢
    have hexec {v : World} (hv : v.Sound h₀ O H S) (owed burned : Nat) :
        (exec op { f with owed, burned } v).Keeps h₀ O H S first :=
      keeps_exec hv (hf.refuel f.entered owed burned) hop
    have hsaved := sound_mapFuel hw
    split <;> split
    · exact hexec (hsaved _) _ _
    · exact hexec (hsaved _) _ _
    · exact hexec hw _ _
    · exact hexec hw _ _

end Instructions

end WasmHost

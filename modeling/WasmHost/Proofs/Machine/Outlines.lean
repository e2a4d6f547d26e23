import WasmHost.Proofs.Machine.Operands
import WasmHost.Proofs.Machine.Outcomes
import WasmHost.Proofs.Wasm.Depth

/-!
# Where an instruction leads

The outline of a frame is the frame without its values. Most instructions leave it as it is and go
on to the next place; the others open, close or leave blocks. `Outcome.Follows` says for every
instruction what becomes of the frame, apart from the values.
-/

namespace WasmHost

namespace CodeFrame

/-- The frame without values: where it is and which blocks are open. -/
def outline (f : CodeFrame) : CodeFrame :=
  { f with locals := #[], blocks := f.blocks.map fun b => { b with stack := [] } }

/-- Where branches to the open blocks go on. -/
def targets (f : CodeFrame) : List Nat := f.blocks.map (·.next)

variable (f : CodeFrame)

@[simp] theorem targets_outline : f.outline.targets = f.targets := by
  simp [targets, outline, Function.comp_def]

@[simp] theorem length_targets : f.targets.length = f.blocks.length := List.length_map _

@[simp] theorem outline_push (v : StoreVal) : (f.push v).outline = f.outline := by
  unfold push
  cases h : f.blocks <;> simp [outline, h]

@[simp] theorem outline_pop : f.pop.2.outline = f.outline := by
  unfold pop
  cases h : f.blocks <;> simp [outline, h]

@[simp] theorem outline_popBits : f.popBits.2.outline = f.outline := outline_pop f

@[simp] theorem outline_popMany (n : Nat) : (f.popMany n).2.outline = f.outline := by
  induction n generalizing f with
  | zero => rfl
  | succ n ih => exact (ih f.pop.2).trans (outline_pop f)

@[simp] theorem outline_pop3 : (pop3 f).2.2.2.outline = f.outline := by simp [pop3]

@[simp] theorem outline_withLocals (locals : Array StoreVal) :
    ({ f with locals } : CodeFrame).outline = f.outline := rfl

@[simp] theorem outline_pushAll (vs : List StoreVal) : (f.pushAll vs).outline = f.outline := by
  unfold pushAll
  induction vs generalizing f with
  | nil => rfl
  | cons v vs ih => exact (ih (f.push v)).trans (outline_push f v)

/-- Frames that run the same code in the same instance. -/
structure Kin (f g : CodeFrame) : Prop where
  owner : g.owner = f.owner
  code : g.code = f.code
  entered : g.entered = f.entered

variable {f} {g : CodeFrame}

theorem Kin.refl (f : CodeFrame) : f.Kin f := ⟨rfl, rfl, rfl⟩

theorem Kin.of_outline (h : g.outline = f.outline) : f.Kin g :=
  ⟨(congrArg CodeFrame.owner h :), (congrArg CodeFrame.code h :),
    (congrArg CodeFrame.entered h :)⟩

theorem targets_of_outline (h : g.outline = f.outline) : g.targets = f.targets := by
  rw [← targets_outline, h, targets_outline]

/-- What an instruction makes of the place of a frame and of its targets. -/
inductive Moves (f : CodeFrame) : Wasm.Op → Nat → List Nat → Prop
  | straight {op : Wasm.Op} (flat : ¬op.HasPartner) (inner : op ≠ .done) :
      Moves f op (f.pc + 1) f.targets
  | block {t : Wasm.BlockType} : Moves f (.block t) (f.pc + 1) ((f.donePlace f.pc + 1) :: f.targets)
  | loop {t : Wasm.BlockType} : Moves f (.loop t) (f.pc + 1) (f.pc :: f.targets)
  | ifThen {t : Wasm.BlockType} :
      Moves f (.ifThen t) (f.pc + 1) ((f.donePlace f.pc + 1) :: f.targets)
  | otherwise {t : Wasm.BlockType}
      (branch : f.code.ops.getD (f.code.partners.getD f.pc 0) .nop = .orElse) :
      Moves f (.ifThen t) (f.code.partners.getD f.pc 0 + 1) ((f.donePlace f.pc + 1) :: f.targets)
  | skip {t : Wasm.BlockType}
      (ends : f.code.ops.getD (f.code.partners.getD f.pc 0) .nop ≠ .orElse) :
      Moves f (.ifThen t) (f.code.partners.getD f.pc 0) ((f.donePlace f.pc + 1) :: f.targets)
  | orElse : Moves f .orElse (f.code.partners.getD f.pc 0) f.targets
  | done {n : Nat} {ns : List Nat} (targets : f.targets = n :: ns) (left : ns ≠ []) :
      Moves f .done (f.pc + 1) ns
  | jump {op : Wasm.Op} {label n : Nat} (cost : op.cost = 1) (target : f.targets[label]? = some n)
      (left : f.targets.drop (label + 1) ≠ []) : Moves f op n (f.targets.drop (label + 1))

/-- Fuel has no part in where an instruction leads. -/
theorem Moves.refuel {op : Wasm.Op} {pc : Nat} {ts : List Nat} (h : f.Moves op pc ts)
    (owed burned : Nat) : Moves { f with owed, burned } op pc ts := by
  cases h with
  | straight flat inner => exact .straight flat inner
  | block => exact .block
  | loop => exact .loop
  | ifThen => exact .ifThen
  | otherwise branch => exact .otherwise branch
  | skip ends => exact .skip ends
  | orElse => exact .orElse
  | done targets left => exact .done targets left
  | jump cost target left => exact .jump cost target left

end CodeFrame

/-- The instruction calls a function. -/
def Wasm.Op.IsCall : Wasm.Op → Prop
  | .call _ | .callIndirect .. => True
  | _ => False

/-- What becomes of the frame that an instruction belongs to, apart from its values. -/
inductive Outcome.Follows (op : Wasm.Op) (f : CodeFrame) : Outcome → Prop
  | next {g : CodeFrame} {w : World} (kin : f.Kin g) (owed : g.owed = f.owed)
      (burned : g.burned = f.burned) (moves : f.Moves op g.pc g.targets) : Follows op f (.next g w)
  | trap {c : TrapCode} {g : CodeFrame} {w : World} (kin : f.Kin g) (pc : g.pc = f.pc)
      (targets : g.targets = f.targets) : Follows op f (.trap c g w)
  | call {func : FuncAddr} {args : List StoreVal} {g : CodeFrame} {w : World} (calls : op.IsCall)
      (same : g.outline = f.outline) : Follows op f (.call func args g w)
  | exit {vals : List StoreVal} {w : World} : Follows op f (.exit vals w)

namespace Outcome.Follows

variable {op : Wasm.Op} {f g : CodeFrame} {w : World}

/-- An instruction that changes nothing but values. -/
theorem proceed (flat : ¬op.HasPartner) (inner : op ≠ .done) (same : g.outline = f.outline) :
    (proceed g w).Follows op f := by
  obtain ⟨owner, code, entered⟩ := CodeFrame.Kin.of_outline same
  have hpc : g.pc = f.pc := (congrArg CodeFrame.pc same :)
  have htargets : g.advance.targets = f.targets := (CodeFrame.targets_of_outline same :)
  have hnext : g.advance.pc = f.pc + 1 := congrArg (· + 1) hpc
  refine .next ⟨owner, code, entered⟩ (congrArg CodeFrame.owed same :)
    (congrArg CodeFrame.burned same :) ?_
  rw [htargets, hnext]
  exact .straight flat inner

theorem raise (c : TrapCode) : (Outcome.trap c f w).Follows op f :=
  .trap (.refl f) rfl rfl

/-- An instruction that goes on under a condition, and traps otherwise. -/
theorem guard {p : Prop} [Decidable p] {c : TrapCode} (flat : ¬op.HasPartner) (inner : op ≠ .done)
    (same : g.outline = f.outline) {w' : World} :
    (if p then WasmHost.proceed g w' else .trap c f w).Follows op f := by
  split
  · exact proceed flat inner same
  · exact raise c

end Outcome.Follows

open Outcome (Follows)

section Instructions

variable (f : CodeFrame) (w : World) {op : Wasm.Op}

theorem follows_leave (g : CodeFrame) (vals : List StoreVal) : (g.leave vals w).Follows op f :=
  .exit

/-- A branch by a frame that may have taken operands for it. -/
theorem follows_branch {g : CodeFrame} (same : g.outline = f.outline) (label : Nat)
    (cost : op.cost = 1 ∨ f.blocks.length ≤ label + 1) : (g.branch label w).Follows op f := by
  have htargets := CodeFrame.targets_of_outline same
  have hlength := congrArg List.length htargets
  rw [CodeFrame.length_targets, CodeFrame.length_targets] at hlength
  have hdrop : (g.blocks.drop (label + 1)).map (·.next) = f.targets.drop (label + 1) := by
    rw [← htargets, CodeFrame.targets, List.map_drop]
  unfold CodeFrame.branch
  split
  · rename_i top inner target htop htarget
    dsimp only
    split
    · rename_i outer rest hrest
      rw [hrest] at hdrop
      have hcost : op.cost = 1 := by
        refine cost.resolve_right fun hle => ?_
        rw [List.drop_of_length_le (by rwa [hlength])] at hrest
        cases hrest
      have hleft : f.targets.drop (label + 1) ≠ [] := by simp [← hdrop]
      obtain ⟨owner, code, entered⟩ := CodeFrame.Kin.of_outline same
      refine .next ⟨owner, code, entered⟩ (congrArg CodeFrame.owed same :)
        (congrArg CodeFrame.burned same :) ?_
      have hnext : f.targets[label]? = some target.next := by
        rw [← htargets, CodeFrame.targets, List.getElem?_map, htarget, Option.map_some]
      have hmoves := CodeFrame.Moves.jump hcost hnext hleft
      rw [← hdrop] at hmoves
      exact hmoves
    · exact follows_leave f w g _
  · exact follows_leave f w g _

theorem follows_execLoad (flat : ¬op.HasPartner) (inner : op ≠ .done) (load : Wasm.LoadOp)
    (arg : Wasm.MemArg) : (execLoad load arg f w).Follows op f := by
  simp only [execLoad]
  split
  · exact .proceed flat inner (by simp)
  · exact .raise _

theorem follows_execStore (flat : ¬op.HasPartner) (inner : op ≠ .done) (store : Wasm.StoreOp)
    (arg : Wasm.MemArg) : (execStore store arg f w).Follows op f := by
  simp only [execStore]
  exact .guard flat inner (by simp)

theorem follows_execMemory (flat : ¬op.HasPartner) (inner : op ≠ .done) :
    (execMemory op f w).Follows op f := by
  have houtcome := memory_outcome op f w
  generalize execMemory op f w = o at houtcome ⊢
  cases houtcome with
  | wrote | grown | full | sized => exact .proceed flat inner (by simp)
  | dropped | other => exact .proceed flat inner rfl
  | outOfBounds => exact .raise _

theorem follows_execTable (flat : ¬op.HasPartner) (inner : op ≠ .done) :
    (execTable op f w).Follows op f := by
  have houtcome := table_outcome op f w
  generalize execTable op f w = o at houtcome ⊢
  cases houtcome with
  | got | set | sized | grown | filled | copied | initialized => exact .proceed flat inner (by simp)
  | dropped | other => exact .proceed flat inner rfl
  | outOfBounds => exact .raise _

theorem follows_execCallIndirect (type table : Nat) :
    (execCallIndirect type table f w).Follows (.callIndirect type table) f := by
  unfold execCallIndirect
  dsimp only
  split
  · exact .raise _
  · split
    · exact .call trivial (by simp)
    · exact .raise _
  · exact .raise _

/-- A frame that was checked is the same, unless the check failed. -/
theorem check_frame : (∃ w', f.check w = .next f w') ∨
    ∃ c g w', f.check w = .trap c g w' ∧ f.Kin g ∧ g.pc = f.pc ∧ g.targets = f.targets := by
  unfold CodeFrame.check
  split
  · exact .inr ⟨_, _, _, rfl, ⟨rfl, rfl, rfl⟩, rfl, rfl⟩
  · split
    · split
      · exact .inr ⟨_, _, _, rfl, .refl f, rfl, rfl⟩
      · exact .inl ⟨_, rfl⟩
    · exact .inl ⟨_, rfl⟩

/-- A block that is opened stands on top of the others. -/
theorem outline_openBlock (next arity params : Nat) : (f.openBlock next arity params).outline =
    { f.outline with blocks := ⟨next, arity, []⟩ :: f.outline.blocks } := by
  have hpopped := f.outline_popMany params
  simp only [CodeFrame.openBlock]
  generalize (f.popMany params).2 = g at hpopped
  rw [← hpopped]
  rfl

theorem follows_opened {g : CodeFrame} (same : g.outline = f.outline) {pc next : Nat}
    (arity params : Nat) (moves : f.Moves op pc (next :: f.targets)) :
    (Outcome.next { g.openBlock next arity params with pc } w).Follows op f := by
  have hopened := outline_openBlock g next arity params
  rw [same] at hopened
  have htargets : (g.openBlock next arity params).targets = next :: f.targets := by
    rw [← CodeFrame.targets_outline, hopened, ← f.targets_outline]
    rfl
  refine .next ⟨?_, ?_, ?_⟩ ?_ ?_ (htargets ▸ moves)
  · exact (congrArg CodeFrame.owner hopened :)
  · exact (congrArg CodeFrame.code hopened :)
  · exact (congrArg CodeFrame.entered hopened :)
  · exact (congrArg CodeFrame.owed hopened :)
  · exact (congrArg CodeFrame.burned hopened :)

theorem pc_openBlock (next arity params : Nat) :
    (f.openBlock next arity params).pc = f.pc := by
  have hopened := outline_openBlock f next arity params
  exact (congrArg CodeFrame.pc hopened :)

theorem follows_exec (op : Wasm.Op) : (exec op f w).Follows op f := by
  cases op with
  | unreachable => exact .raise _
  | block t =>
      simp only [exec, proceed, CodeFrame.advance, pc_openBlock]
      exact follows_opened f w rfl _ _ .block
  | loop t =>
      simp only [exec]
      rcases check_frame f w with ⟨w', hcheck⟩ | ⟨c, g, w', hcheck, kin, hpc, htargets⟩
      · simp only [hcheck, proceed, CodeFrame.advance, pc_openBlock]
        exact follows_opened f w' rfl _ _ .loop
      · rw [hcheck]
        exact .trap kin hpc htargets
  | ifThen t =>
      have hpc : f.popBits.2.pc = f.pc := (congrArg CodeFrame.pc f.outline_popBits :)
      simp only [exec]
      split
      · simp only [proceed, CodeFrame.advance, pc_openBlock, hpc]
        exact follows_opened f w f.outline_popBits _ _ .ifThen
      · split <;> rename_i hbranch
        · exact follows_opened f w f.outline_popBits _ _ (.otherwise hbranch)
        · exact follows_opened f w f.outline_popBits _ _ (.skip hbranch)
  | orElse => exact .next ⟨rfl, rfl, rfl⟩ rfl rfl .orElse
  | done =>
      simp only [exec]
      split
      · exact .exit
      · exact .exit
      · rename_i b outer rest hblocks
        refine .next ⟨rfl, rfl, rfl⟩ rfl rfl (.done (n := b.next) ?_ (by simp [CodeFrame.targets,
          CodeFrame.advance]))
        rw [CodeFrame.targets, hblocks]
        rfl
  | br l => exact follows_branch f w rfl l (.inl rfl)
  | brIf l =>
      simp only [exec]
      split
      · exact follows_branch f w f.outline_popBits l (.inl rfl)
      · exact .proceed id (by simp) f.outline_popBits
  | brTable ls l => exact follows_branch f w f.outline_popBits _ (.inl rfl)
  | ret => exact follows_branch f w rfl _ (.inr (by omega))
  | call i => exact .call trivial (f.outline_popMany _)
  | callIndirect type table => exact follows_execCallIndirect f w type table
  | load op arg => exact follows_execLoad f w id (by simp) op arg
  | atomicLoad arg => exact follows_execLoad f w id (by simp) _ arg
  | store op arg => exact follows_execStore f w id (by simp) op arg
  | numeric op =>
      simp only [exec]
      split
      · exact .proceed id (by simp) rfl
      · rename_i b rest hblocks
        split
        · exact .proceed id (by simp) (by simp [CodeFrame.outline, hblocks])
        · exact .raise _
  | memorySize | memoryGrow | memoryFill | memoryCopy | memoryInit | dataDrop =>
      exact follows_execMemory f w id (by simp)
  | tableGet | tableSet | tableSize | tableGrow | tableFill | tableCopy | tableInit | elemDrop =>
      exact follows_execTable f w id (by simp)
  | localSet i => exact .proceed id (by simp) f.outline_pop
  | localTee i =>
      simp only [exec]
      exact .proceed id (by simp) ((CodeFrame.outline_push _ _).trans f.outline_pop)
  | _ =>
      simp only [exec]
      exact .proceed id (by simp) (by simp)

end Instructions

end WasmHost

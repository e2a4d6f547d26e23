import WasmHost.Wasm.Typing

/-!
# What is known at each place of a body

A body that is well typed fixes the open blocks at each of its places. Where code can come to, the
operands of a block are known exactly.
-/

namespace WasmHost

namespace Wasm

/-- The instruction has a partner that it may jump to. -/
def Op.HasPartner : Op → Prop
  | .block _ | .loop _ | .ifThen _ | .orElse => True
  | _ => False

/-! ## Operands that are known -/

namespace OpenBlock

/-- The same block with other operands. -/
def withStack (s : List (Option ValType)) (b : OpenBlock) : OpenBlock := { b with stack := s }

/-- The operands of the block are known, the last one first. -/
structure Exactly (b : OpenBlock) (ts : List ValType) : Prop where
  stack : b.stack = ts.map some
  jumped : b.jumped = false

variable {b b' : OpenBlock} {t : ValType} {ts us : List ValType}

theorem pushAll_eq (ts : List ValType) (b : OpenBlock) :
    b.pushAll ts = b.withStack (ts.reverse.map some ++ b.stack) := by
  unfold pushAll
  induction ts generalizing b with
  | nil => rfl
  | cons t ts ih =>
      rw [List.foldl_cons, ih]
      simp [push, withStack]

/-- The same block, whatever its operands. -/
structure Same (b b' : OpenBlock) : Prop where
  kind : b'.kind = b.kind
  type : b'.type = b.type

theorem Same.refl (b : OpenBlock) : b.Same b := ⟨rfl, rfl⟩

theorem Same.trans {b'' : OpenBlock} (h : b.Same b') (h' : b'.Same b'') : b.Same b'' :=
  ⟨h'.kind.trans h.kind, h'.type.trans h.type⟩

theorem Same.labelTypes (h : b.Same b') : b'.labelTypes = b.labelTypes := by
  simp only [OpenBlock.labelTypes, h.kind, h.type]

theorem same_withStack (b : OpenBlock) (s : List (Option ValType)) : b.Same (b.withStack s) :=
  ⟨rfl, rfl⟩

theorem same_jump (b : OpenBlock) : b.Same b.jump := ⟨rfl, rfl⟩

theorem same_pushAll (ts : List ValType) (b : OpenBlock) : b.Same (b.pushAll ts) := by
  rw [pushAll_eq]
  exact same_withStack b _

theorem same_of_popAny {u : Option ValType} (h : b.popAny = some (u, b')) : b.Same b' := by
  unfold popAny at h
  split at h
  · cases h
    exact ⟨rfl, rfl⟩
  · split at h <;> cases h
    exact .refl b

theorem same_of_pop (h : b.pop t = some b') : b.Same b' := by
  unfold pop at h
  obtain ⟨⟨u, c⟩, hpop, h⟩ := Option.bind_eq_some_iff.mp h
  cases u with
  | none =>
      cases h
      exact same_of_popAny hpop
  | some u =>
      dsimp only at h
      split at h <;> cases h
      exact same_of_popAny hpop

theorem same_of_popAll (h : b.popAll ts = some b') : b.Same b' := by
  unfold popAll at h
  generalize ts.reverse = rs at h
  induction rs generalizing b with
  | nil =>
      cases h
      exact .refl _
  | cons t rs ih =>
      rw [List.foldlM_cons] at h
      obtain ⟨c, hpop, h⟩ := Option.bind_eq_some_iff.mp h
      exact (same_of_pop hpop).trans (ih h)

theorem same_of_apply {params results : List ValType} (h : b.apply params results = some b') :
    b.Same b' := by
  unfold apply at h
  obtain ⟨c, hpop, h⟩ := Option.bind_eq_some_iff.mp h
  cases h
  exact (same_of_popAll hpop).trans (same_pushAll results c)

/-- A block that closes gives its own signature. -/
theorem type_of_close {type : FuncType} (h : b.close = some type) : type = b.type := by
  unfold close at h
  obtain ⟨c, hpop, h⟩ := Option.bind_eq_some_iff.mp h
  split at h <;> cases h
  exact (same_of_popAll hpop).type

namespace Exactly

theorem withStack (h : b.Exactly ts) (us : List ValType) :
    (b.withStack (us.map some)).Exactly us := ⟨rfl, h.jumped⟩

theorem pushAll (h : b.Exactly ts) (us : List ValType) :
    (b.pushAll us).Exactly (us.reverse ++ ts) := by
  rw [pushAll_eq, h.stack, ← List.map_append]
  exact h.withStack _

/-- A block that is opened has its parameters as operands. -/
theorem opened (kind : BlockKind) (type : FuncType) :
    (OpenBlock.pushAll type.params { kind, type }).Exactly type.params.reverse := by
  have hempty : OpenBlock.Exactly { kind, type } [] := ⟨rfl, rfl⟩
  have hpushed := hempty.pushAll type.params
  rwa [List.append_nil] at hpushed

theorem popAny {u : Option ValType} (h : b.Exactly ts) (hpop : b.popAny = some (u, b')) :
    ∃ t rest, ts = t :: rest ∧ u = some t ∧ b' = b.withStack (rest.map some) := by
  unfold OpenBlock.popAny at hpop
  rw [h.stack] at hpop
  cases ts with
  | nil => simp [h.jumped] at hpop
  | cons t rest =>
      cases hpop
      exact ⟨t, rest, rfl, rfl, rfl⟩

theorem pop (h : b.Exactly ts) (hpop : b.pop t = some b') :
    ∃ rest, ts = t :: rest ∧ b' = b.withStack (rest.map some) := by
  unfold OpenBlock.pop at hpop
  obtain ⟨⟨u, c⟩, hany, hpop⟩ := Option.bind_eq_some_iff.mp hpop
  obtain ⟨t', rest, rfl, rfl, rfl⟩ := h.popAny hany
  dsimp only at hpop
  split at hpop <;> cases hpop
  rename_i heq
  exact ⟨rest, by rw [heq], rfl⟩

theorem popAll (h : b.Exactly ts) (hpop : b.popAll us = some b') :
    ∃ rest, ts = us.reverse ++ rest ∧ b' = b.withStack (rest.map some) := by
  unfold OpenBlock.popAll at hpop
  generalize us.reverse = rs at hpop ⊢
  induction rs generalizing b ts with
  | nil =>
      cases hpop
      refine ⟨ts, rfl, ?_⟩
      rw [← h.stack]
      rfl
  | cons t rs ih =>
      rw [List.foldlM_cons] at hpop
      obtain ⟨c, hfirst, hpop⟩ := Option.bind_eq_some_iff.mp hpop
      obtain ⟨rest, rfl, rfl⟩ := h.pop hfirst
      obtain ⟨rest', rfl, rfl⟩ := ih (h.withStack rest) hpop
      exact ⟨rest', rfl, rfl⟩

theorem apply {params results : List ValType} (h : b.Exactly ts)
    (happly : b.apply params results = some b') :
    ∃ rest, ts = params.reverse ++ rest ∧ b'.Exactly (results.reverse ++ rest) := by
  unfold OpenBlock.apply at happly
  obtain ⟨c, hpop, happly⟩ := Option.bind_eq_some_iff.mp happly
  cases happly
  obtain ⟨rest, rfl, rfl⟩ := h.popAll hpop
  exact ⟨rest, rfl, (h.withStack rest).pushAll results⟩

/-- A block that closes holds its results and nothing else. -/
theorem close {type : FuncType} (h : b.Exactly ts) (hclose : b.close = some type) :
    ts = b.type.results.reverse := by
  unfold OpenBlock.close at hclose
  obtain ⟨c, hpop, hclose⟩ := Option.bind_eq_some_iff.mp hclose
  obtain ⟨rest, rfl, rfl⟩ := h.popAll hpop
  split at hclose <;> cases hclose
  rename_i hempty
  obtain rfl : rest = [] := by simpa [OpenBlock.withStack] using hempty
  exact List.append_nil _

/-- Operands that were taken and are put back. -/
theorem pushAll_popAll (h : b.Exactly ts) (hpop : b.popAll us = some b') : b'.pushAll us = b := by
  obtain ⟨rest, rfl, rfl⟩ := h.popAll hpop
  rw [pushAll_eq]
  simp only [OpenBlock.withStack, ← List.map_append, ← h.stack]

end Exactly

end OpenBlock

/-! ## How an instruction changes the open blocks -/

/-- How an instruction changes the open blocks, apart from the operands of the innermost one. -/
inductive Reshapes : Op → List OpenBlock → List OpenBlock → Prop
  | opens {op : Op} {inner b b' : OpenBlock} {outer : List OpenBlock} (partner : op.HasPartner)
      (other : op ≠ .orElse) (same : b.Same b') : Reshapes op (b :: outer) (inner :: b' :: outer)
  | turns {b inner : OpenBlock} {outer : List OpenBlock} (kind : b.kind = .ifThen)
      (turned : inner.kind = .orElse) (type : inner.type = b.type) :
      Reshapes .orElse (b :: outer) (inner :: outer)
  | closes {b o o' : OpenBlock} {outer : List OpenBlock} (same : o.Same o') :
      Reshapes .done (b :: o :: outer) (o' :: outer)
  | ends {b : OpenBlock} : Reshapes .done [b] []
  | plain {op : Op} {b b' : OpenBlock} {outer : List OpenBlock} (flat : ¬op.HasPartner)
      (open_ : op ≠ .done) (same : b.Same b') : Reshapes op (b :: outer) (b' :: outer)

namespace Context

variable {c : Context} {blocks blocks' : List OpenBlock}

theorem openBlock_eq {kind : BlockKind} {type : BlockType} {b : OpenBlock}
    {outer : List OpenBlock} (h : c.openBlock kind type b outer = some blocks') :
    ∃ t b', c.blockType? type = some t ∧ b.popAll t.params = some b' ∧
      blocks' = ({ kind, type := t } : OpenBlock).pushAll t.params :: b' :: outer := by
  unfold openBlock at h
  obtain ⟨t, ht, h⟩ := Option.bind_eq_some_iff.mp h
  obtain ⟨b', hpop, h⟩ := Option.bind_eq_some_iff.mp h
  cases h
  exact ⟨t, b', ht, hpop, rfl⟩

theorem reshapes_openBlock {op : Op} {kind : BlockKind} {type : BlockType} {b b₀ : OpenBlock}
    {outer : List OpenBlock} (h : c.openBlock kind type b outer = some blocks')
    (hp : op.HasPartner) (ho : op ≠ .orElse) (hb : b₀.Same b) :
    Reshapes op (b₀ :: outer) blocks' := by
  obtain ⟨t, b', -, hpop, rfl⟩ := openBlock_eq h
  exact .opens hp ho (hb.trans (OpenBlock.same_of_popAll hpop))

open OpenBlock in
theorem reshapes_checkOp {op : Op} (h : c.checkOp blocks op = some blocks') :
    Reshapes op blocks blocks' := by
  cases blocks with
  | nil => cases h
  | cons b outer =>
      -- all but five instructions leave the blocks as they are
      have hplain {b' : OpenBlock} (hblocks : b' :: outer = blocks') (hb : b.Same b')
          (hp : ¬op.HasPartner) (hd : op ≠ .done) : Reshapes op (b :: outer) blocks' :=
        hblocks ▸ .plain hp hd hb
      cases op <;> simp only [checkOp, Option.bind_eq_bind, Option.bind_eq_some_iff,
        Option.pure_def, Option.some.injEq, Option.ite_none_right_eq_some,
        Option.ite_none_left_eq_some] at h
      case block t => exact reshapes_openBlock h trivial (by simp) (.refl b)
      case loop t => exact reshapes_openBlock h trivial (by simp) (.refl b)
      case ifThen t =>
        obtain ⟨b₁, hpop, h⟩ := h
        exact reshapes_openBlock h trivial (by simp) (same_of_pop hpop)
      case orElse =>
        obtain ⟨hkind, t, hclose, rfl⟩ := h
        have hturned := same_pushAll t.params { kind := .orElse, type := t }
        exact .turns hkind hturned.kind (hturned.type.trans (type_of_close hclose))
      case done =>
        obtain ⟨t, -, -, h⟩ := h
        cases outer <;> cases h
        · exact .ends
        · exact .closes (same_pushAll _ _)
      case unreachable => exact hplain h (same_jump b) id (by simp)
      case br =>
        obtain ⟨_, -, b₁, hpop, h⟩ := h
        exact hplain h ((same_of_popAll hpop).trans (same_jump b₁)) id (by simp)
      case brIf =>
        obtain ⟨_, -, b₁, hpop, b₂, happly, h⟩ := h
        exact hplain h ((same_of_pop hpop).trans (same_of_apply happly)) id (by simp)
      case brTable =>
        obtain ⟨b₁, hpop, _, -, _, -, -, b₂, hpops, h⟩ := h
        exact hplain h (((same_of_pop hpop).trans (same_of_popAll hpops)).trans (same_jump b₂)) id
          (by simp)
      case ret =>
        obtain ⟨_, -, b₁, hpop, h⟩ := h
        exact hplain h ((same_of_popAll hpop).trans (same_jump b₁)) id (by simp)
      case drop =>
        obtain ⟨_, hpop, h⟩ := h
        exact hplain h (same_of_popAny hpop) id (by simp)
      case select =>
        obtain ⟨b₁, hpop, _, hpop₁, _, hpop₂, -, h⟩ := h
        have hpopped := ((same_of_pop hpop).trans (same_of_popAny hpop₁)).trans
          (same_of_popAny hpop₂)
        exact hplain h (hpopped.trans (same_withStack _ _)) id (by simp)
      case selectTyped ts =>
        rcases ts with _ | ⟨t, _ | ⟨u, ts⟩⟩ <;> simp only [Option.ite_none_right_eq_some,
          Option.bind_eq_some_iff, Option.some.injEq, reduceCtorEq] at h
        obtain ⟨-, _, happly, h⟩ := h
        exact hplain h (same_of_apply happly) id (by simp)
      case refIsNull =>
        obtain ⟨_, hpop, -, h⟩ := h
        exact hplain h ((same_of_popAny hpop).trans (same_withStack _ _)) id (by simp)
      all_goals
        obtain ⟨_, -, b₁, happly, h⟩ := h
        exact hplain h (same_of_apply happly) id (by simp)

end Context

/-- The instruction is typed by the operands that it takes and the results that it leaves. -/
def Op.IsPlain : Op → Prop
  | unreachable | block _ | loop _ | ifThen _ | orElse | done | br _ | brIf _ | brTable .. | ret
  | drop | select | selectTyped _ | refIsNull => False
  | _ => True

theorem Context.apply_of_plain {c : Context} {op : Op} {b : OpenBlock}
    {outer blocks' : List OpenBlock} (h : c.checkOp (b :: outer) op = some blocks')
    (hplain : op.IsPlain) : ∃ params results b', c.plainType? op = some (params, results) ∧
      b.apply params results = some b' ∧ blocks' = b' :: outer := by
  have hgeneral (h : ((c.plainType? op).bind fun t => (b.apply t.1 t.2).bind fun b' =>
      some (b' :: outer)) = some blocks') : ∃ params results b',
        c.plainType? op = some (params, results) ∧ b.apply params results = some b' ∧
          blocks' = b' :: outer := by
    simp only [Option.bind_eq_some_iff, Option.some.injEq] at h
    obtain ⟨⟨params, results⟩, htype, b', happly, rfl⟩ := h
    exact ⟨params, results, b', htype, happly, rfl⟩
  cases op <;> first | exact hplain.elim | exact hgeneral h

theorem Context.closes_of_checkBody {c : Context} {type : FuncType} {body : List Op}
    (h : c.checkBody type body) :
    body.foldlM c.checkOp [{ kind := .block, type := ⟨[], type.results⟩ }] = some [] := by
  unfold checkBody at h
  split at h
  · assumption
  · cases h

/-! ## Places -/

theorem of_drop_eq_cons {α : Type} {xs rest : List α} {x : α} {i : Nat}
    (h : xs.drop i = x :: rest) : xs[i]? = some x ∧ xs.drop (i + 1) = rest := by
  refine ⟨?_, by rw [← List.drop_drop, h]; rfl⟩
  have hhead := congrArg List.head? h
  rwa [List.head?_drop, List.head?_cons] at hhead

variable {c : Context} {start blocks blocks' : List OpenBlock} {ops : List Op} {pc : Nat} {op : Op}

/-- The open blocks at a place of a sequence of instructions. -/
def BlocksAt (c : Context) (start : List OpenBlock) (ops : List Op) (pc : Nat)
    (blocks : List OpenBlock) : Prop := (ops.take pc).foldlM c.checkOp start = some blocks

namespace BlocksAt

theorem zero : BlocksAt c start ops 0 start := rfl

theorem unique (h : BlocksAt c start ops pc blocks) (h' : BlocksAt c start ops pc blocks') :
    blocks' = blocks := Option.some.inj (h'.symm.trans h)

theorem next (h : BlocksAt c start ops pc blocks) (hop : ops[pc]? = some op)
    (hcheck : c.checkOp blocks op = some blocks') : BlocksAt c start ops (pc + 1) blocks' := by
  obtain ⟨hlt, rfl⟩ := List.getElem?_eq_some_iff.mp hop
  unfold BlocksAt at h ⊢
  rw [List.take_succ_eq_append_getElem hlt, List.foldlM_append, h]
  simpa using hcheck

/-- What follows a place leads to the end. -/
theorem remaining (h : BlocksAt c start ops pc blocks)
    (closes : ops.foldlM c.checkOp start = some []) :
    (ops.drop pc).foldlM c.checkOp blocks = some [] := by
  unfold BlocksAt at h
  rw [← List.take_append_drop pc ops, List.foldlM_append, h] at closes
  exact closes

/-- Where a block is open, there is an instruction, and it is well typed. -/
theorem step (h : BlocksAt c start ops pc blocks) (closes : ops.foldlM c.checkOp start = some [])
    (hopen : blocks ≠ []) : ∃ op blocks', ops[pc]? = some op ∧ c.checkOp blocks op = some blocks' ∧
      BlocksAt c start ops (pc + 1) blocks' := by
  have hrest := h.remaining closes
  cases hdrop : ops.drop pc with
  | nil =>
      rw [hdrop] at hrest
      cases hrest
      exact absurd rfl hopen
  | cons op rest =>
      rw [hdrop, List.foldlM_cons] at hrest
      obtain ⟨blocks', hcheck, -⟩ := Option.bind_eq_some_iff.mp hrest
      have hop := (of_drop_eq_cons hdrop).1
      exact ⟨op, blocks', hop, hcheck, h.next hop hcheck⟩

end BlocksAt

end Wasm

end WasmHost

import WasmHost.CompiledModule
import WasmHost.Proofs.Wasm.Statics

/-!
# Partners

The scan for partners follows the open blocks that typing knows, place by place: each `done` of a
valid body closes a block, and each `orElse` is in one that `ifThen` opened. `Scans` says so, with a
case for each way to go on. From it follows that the partner of an instruction that opens a block is
the place where that block is closed, under the same outer blocks.
-/

namespace WasmHost

/-! ## Places -/

theorem getElem?_of_getD {α : Type} {xs : Array α} {i : Nat} {x d : α} (h : xs.getD i d = x)
    (hx : x ≠ d) : xs[i]? = some x := by
  rw [Array.getD_eq_getD_getElem?] at h
  cases hi : xs[i]? with
  | none => exact absurd (by rw [← h, hi]; rfl) hx
  | some y => rw [← h, hi]; rfl

theorem getD_set_self {xs : Array Nat} {o i : Nat} (h : o < xs.size) :
    (xs.setIfInBounds o i).getD o 0 = i := by
  simp [Array.getD_eq_getD_getElem?, h]

theorem getD_set_of_ne {xs : Array Nat} {o i j : Nat} (h : o ≠ j) :
    (xs.setIfInBounds o i).getD j 0 = xs.getD j 0 := by
  simp [Array.getD_eq_getD_getElem?, h]

/-- The kinds of the open blocks, innermost first. -/
def Wasm.kinds (blocks : List OpenBlock) : List BlockKind := blocks.map (·.kind)

/-- The open blocks of code before a place are those opened at `openings`, and that of the function
around them. -/
structure OpenedAt (openings : List Nat) (i : Nat) (kinds : List Wasm.BlockKind) : Prop where
  around : ∃ ks, kinds = ks ++ [.block] ∧ ks.length = openings.length
  nodup : openings.Nodup
  before : ∀ o ∈ openings, o < i

namespace OpenedAt

variable {openings outer : List Nat} {i o : Nat} {k k' : Wasm.BlockKind} {ks : List Wasm.BlockKind}

theorem start (k : List Wasm.OpenBlock) (h : Wasm.kinds k = [.block]) :
    OpenedAt [] 0 (Wasm.kinds k) :=
  ⟨⟨[], h, rfl⟩, List.nodup_nil, fun _ ho => absurd ho List.not_mem_nil⟩

theorem fresh (h : OpenedAt openings i ks) : i ∉ openings := fun hi =>
  Nat.lt_irrefl i (h.before i hi)

theorem outermost (h : OpenedAt [] i ks) : ks = [.block] := by
  obtain ⟨inner, hks, hlength⟩ := h.around
  rw [hks, List.eq_nil_of_length_eq_zero hlength, List.nil_append]

theorem next (h : OpenedAt openings i ks) : OpenedAt openings (i + 1) ks :=
  ⟨h.around, h.nodup, fun o ho => Nat.lt_succ_of_lt (h.before o ho)⟩

theorem push (h : OpenedAt openings i ks) : OpenedAt (i :: openings) (i + 1) (k :: ks) := by
  obtain ⟨inner, hks, hlength⟩ := h.around
  refine ⟨⟨k :: inner, by rw [hks, List.cons_append], by simp [hlength]⟩,
    List.nodup_cons.mpr ⟨h.fresh, h.nodup⟩, fun o ho => ?_⟩
  rcases List.mem_cons.mp ho with rfl | ho
  · exact Nat.lt_succ_self o
  · exact h.next.before o ho

theorem pop (h : OpenedAt (o :: outer) i (k :: ks)) : OpenedAt outer i ks := by
  obtain ⟨inner, hks, hlength⟩ := h.around
  cases inner with
  | nil => cases hlength
  | cons k' inner =>
      rw [List.cons_append, List.cons.injEq] at hks
      exact ⟨⟨inner, hks.2, Nat.succ.inj hlength⟩, (List.nodup_cons.mp h.nodup).2,
        fun o ho => h.before o (List.mem_cons_of_mem _ ho)⟩

end OpenedAt

/-! ## The scan -/

section

variable {op : Wasm.Op} {ops : List Wasm.Op} {openings : List Nat} {partners : Array Nat}
  {i j : Nat}

theorem partnersFrom_opens (partner : op.HasPartner) (other : op ≠ .orElse) :
    partnersFrom openings partners i (op :: ops) =
      partnersFrom (i :: openings) partners (i + 1) ops := by
  cases op <;> first | rfl | exact partner.elim | exact absurd rfl other

theorem partnersFrom_plain (flat : ¬op.HasPartner) (inner : op ≠ .done) :
    partnersFrom openings partners i (op :: ops) =
      partnersFrom openings partners (i + 1) ops := by
  cases op <;> first | rfl | exact absurd trivial flat | exact absurd rfl inner

/-- What is behind a place gives no partner to an earlier one, unless a block was opened there that
is still open. -/
theorem partnersFrom_others (before : j < i) (closed : j ∉ openings) :
    (partnersFrom openings partners i ops).getD j 0 = partners.getD j 0 := by
  fun_induction partnersFrom openings partners i ops with
  | case1 => rfl
  | case2 openings partners i rest t ih | case3 openings partners i rest t ih
  | case4 openings partners i rest t ih =>
      exact ih (by omega) (List.not_mem_cons_of_ne_of_not_mem (by omega) closed)
  | case5 partners i rest o outer ih =>
      obtain ⟨hne, hout⟩ := List.ne_and_not_mem_of_not_mem_cons closed
      rw [ih (by omega) (List.not_mem_cons_of_ne_of_not_mem (by omega) hout)]
      exact getD_set_of_ne hne.symm
  | case7 partners i rest o outer ih =>
      obtain ⟨hne, hout⟩ := List.ne_and_not_mem_of_not_mem_cons closed
      rw [ih (by omega) hout]
      exact getD_set_of_ne hne.symm
  | case6 partners i rest ih | case8 partners i rest ih | case9 _ _ _ _ _ _ _ _ _ _ ih =>
      exact ih (by omega) closed

end

namespace Wasm

/-- The scan for partners goes through code that closes all its blocks: at place `i` the blocks that
are open were opened at `openings`, and typing knows them as `blocks`; in the end the partners are
`final`. -/
inductive Scans (c : Context) (ops : List Op) (final : Array Nat) :
    List Nat → Nat → List OpenBlock → Prop
  | ends {i : Nat} {b : OpenBlock} (at_ : ops[i]? = some .done) (last : i + 1 = ops.length) :
      Scans c ops final [] i [b]
  | opens {openings : List Nat} {i : Nat} {op : Op} {inner b b' : OpenBlock}
      {outer : List OpenBlock} (at_ : ops[i]? = some op) (partner : op.HasPartner)
      (same : b.Same b') (check : c.checkOp (b :: outer) op = some (inner :: b' :: outer))
      (behind : Scans c ops final (i :: openings) (i + 1) (inner :: b' :: outer)) :
      Scans c ops final openings i (b :: outer)
  | turns {openings : List Nat} {i o : Nat} {b inner : OpenBlock} {outer : List OpenBlock}
      (at_ : ops[i]? = some .orElse) (kind : b.kind = .ifThen) (found : final.getD o 0 = i)
      (check : c.checkOp (b :: outer) .orElse = some (inner :: outer))
      (behind : Scans c ops final (i :: openings) (i + 1) (inner :: outer)) :
      Scans c ops final (o :: openings) i (b :: outer)
  | closes {openings : List Nat} {i o : Nat} {b d d' : OpenBlock} {outer : List OpenBlock}
      (at_ : ops[i]? = some .done) (same : d.Same d') (found : final.getD o 0 = i)
      (check : c.checkOp (b :: d :: outer) .done = some (d' :: outer))
      (behind : Scans c ops final openings (i + 1) (d' :: outer)) :
      Scans c ops final (o :: openings) i (b :: d :: outer)
  | plain {openings : List Nat} {i : Nat} {op : Op} {b b' : OpenBlock} {outer : List OpenBlock}
      (at_ : ops[i]? = some op) (flat : ¬op.HasPartner) (open_ : op ≠ .done) (same : b.Same b')
      (check : c.checkOp (b :: outer) op = some (b' :: outer))
      (behind : Scans c ops final openings (i + 1) (b' :: outer)) :
      Scans c ops final openings i (b :: outer)

variable {c : Context} {ops rest : List Op} {openings : List Nat} {partners final : Array Nat}
  {start blocks : List OpenBlock} {i : Nat}

theorem scans_partnersFrom (closes : rest.foldlM c.checkOp blocks = some [])
    (hrest : ops.drop i = rest) (hopen : OpenedAt openings i (kinds blocks))
    (hsize : ops.length ≤ partners.size) :
    Scans c ops (partnersFrom openings partners i rest) openings i blocks := by
  induction rest generalizing openings partners i blocks with
  | nil =>
      cases closes
      obtain ⟨inner, hks, -⟩ := hopen.around
      simp [kinds] at hks
  | cons op rest ih =>
      rw [List.foldlM_cons] at closes
      obtain ⟨blocks', hcheck, closes⟩ := Option.bind_eq_some_iff.mp closes
      obtain ⟨hop, hdrop⟩ := of_drop_eq_cons hrest
      have hlt := (List.getElem?_eq_some_iff.mp hop).1
      -- what is set now is not set again
      have hset {o : Nat} {openings' : List Nat} (ho : o < i) (hout : o ∉ openings') :
          (partnersFrom openings' (partners.setIfInBounds o i) (i + 1) rest).getD o 0 = i := by
        rw [partnersFrom_others (Nat.lt_succ_of_lt ho) hout]
        exact getD_set_self (by omega)
      have hset' (o : Nat) : ops.length ≤ (partners.setIfInBounds o i).size := by
        rwa [Array.size_setIfInBounds]
      cases Context.reshapes_checkOp hcheck with
      | @opens _ inner b b' outer hpartner hother hsame =>
          have hopen' : OpenedAt (i :: openings) (i + 1) (kinds (inner :: b' :: outer)) := by
            simp only [kinds, List.map_cons, hsame.kind]
            exact hopen.push
          rw [partnersFrom_opens hpartner hother]
          exact .opens hop hpartner hsame hcheck (ih closes hdrop hopen' hsize)
      | @turns b inner outer hkind =>
          cases openings with
          | nil =>
              have houter := hopen.outermost
              simp [kinds, hkind] at houter
          | cons o openings =>
              have ho := hopen.before o List.mem_cons_self
              have hout : o ∉ i :: openings := by
                rw [List.mem_cons, not_or]
                exact ⟨Nat.ne_of_lt ho, (List.nodup_cons.mp hopen.nodup).1⟩
              exact .turns hop hkind (hset ho hout) hcheck
                (ih closes hdrop hopen.pop.push (hset' o))
      | @closes b d d' outer hsame =>
          cases openings with
          | nil =>
              have houter := hopen.outermost
              simp [kinds] at houter
          | cons o openings =>
              have hopen' : OpenedAt openings (i + 1) (kinds (d' :: outer)) := by
                have hpopped := hopen.pop.next
                simp only [List.map_cons, ← hsame.kind] at hpopped
                exact hpopped
              have ho := hopen.before o List.mem_cons_self
              exact .closes hop hsame (hset ho (List.nodup_cons.mp hopen.nodup).1) hcheck
                (ih closes hdrop hopen' (hset' o))
      | @ends b =>
          -- the block around the others was not opened by an instruction
          obtain ⟨inner, hks, hlength⟩ := hopen.around
          obtain rfl : inner = [] := by simpa [kinds] using congrArg List.length hks
          obtain rfl := List.eq_nil_of_length_eq_zero hlength.symm
          cases rest with
          | nil =>
              have hlen := congrArg List.length hdrop
              rw [List.length_drop, List.length_nil] at hlen
              exact .ends hop (by omega)
          | cons op rest => cases closes
      | @plain _ b b' outer hflat hdone hsame =>
          have hopen' : OpenedAt openings (i + 1) (kinds (b' :: outer)) := by
            simp only [kinds, List.map_cons, hsame.kind]
            exact hopen.next
          rw [partnersFrom_plain hflat hdone]
          exact .plain hop hflat hdone hsame hcheck (ih closes hdrop hopen' hsize)

/-- The scan for partners goes through a body that is well typed. -/
theorem Context.scans_of_checkBody {type : FuncType} {body : List Op} (h : c.checkBody type body) :
    Scans c body (partnersFrom [] (Array.replicate body.length 0) 0 body) [] 0
      [{ kind := .block, type := ⟨[], type.results⟩ }] :=
  scans_partnersFrom (closes_of_checkBody h) rfl (.start _ rfl) (by simp)

/-! ## Where blocks are closed -/

/-- A block is closed at a place, or gives way to another branch there, under the given outer
blocks. -/
structure ClosedAt (c : Context) (start : List OpenBlock) (ops : List Op) (p : Nat)
    (b : OpenBlock) (outer : List OpenBlock) : Prop where
  blocks : ∃ b', b.Same b' ∧ BlocksAt c start ops p (b' :: outer)
  op : ops[p]? = some .done ∨ ops[p]? = some .orElse ∧ b.kind = .ifThen

theorem ClosedAt.same {p : Nat} {b b' : OpenBlock} {outer : List OpenBlock}
    (h : ClosedAt c start ops p b outer) (hb : b'.Same b) : ClosedAt c start ops p b' outer := by
  obtain ⟨⟨b'', hsame, hat⟩, hop⟩ := h
  exact ⟨⟨b'', hb.trans hsame, hat⟩, by rwa [← hb.kind]⟩

/-- Code from a place on closes the blocks that are open, and those that its own instructions open,
at their partners. -/
structure Closing (c : Context) (start : List OpenBlock) (ops : List Op) (openings : List Nat)
    (i : Nat) (blocks : List OpenBlock) (final : Array Nat) : Prop where
  opened : ∀ (k o : Nat) (b : OpenBlock), openings[k]? = some o → blocks[k]? = some b →
    ClosedAt c start ops (final.getD o 0) b (blocks.drop (k + 1))
  ahead : ∀ (j : Nat) (op : Op), i ≤ j → ops[j]? = some op → op.HasPartner →
    ∃ inner outer, BlocksAt c start ops (j + 1) (inner :: outer) ∧
      ClosedAt c start ops (final.getD j 0) inner outer

theorem Closing.cons {blocks' : List OpenBlock} {openings' : List Nat} {op : Op}
    (h : Closing c start ops openings' (i + 1) blocks' final) (hop : ops[i]? = some op)
    (opened : ∀ (k o : Nat) (b : OpenBlock), openings[k]? = some o → blocks[k]? = some b →
      ClosedAt c start ops (final.getD o 0) b (blocks.drop (k + 1)))
    (new : op.HasPartner → ∃ inner outer, BlocksAt c start ops (i + 1) (inner :: outer) ∧
      ClosedAt c start ops (final.getD i 0) inner outer) :
    Closing c start ops openings i blocks final := by
  refine ⟨opened, fun j op' hj hop' hpartner => ?_⟩
  rcases Nat.eq_or_lt_of_le hj with rfl | hlt
  · obtain rfl := Option.some.inj (hop.symm.trans hop')
    exact new hpartner
  · exact h.ahead j op' hlt hop' hpartner

/-- Each block is closed at the partner of what opened it. -/
theorem Scans.closing (h : Scans c ops final openings i blocks)
    (here : BlocksAt c start ops i blocks) : Closing c start ops openings i blocks final := by
  induction h with
  | @ends i b hop hlast =>
      refine ⟨fun k o b₁ ho => (by cases ho), fun j op' hj hop' hpartner => ?_⟩
      have hlt := (List.getElem?_eq_some_iff.mp hop').1
      obtain rfl : i = j := by omega
      obtain rfl := Option.some.inj (hop.symm.trans hop')
      exact hpartner.elim
  | @opens openings i op inner b b' outer hop hpartner hsame hcheck _ ih =>
      have next := here.next hop hcheck
      have hbehind := ih next
      refine hbehind.cons hop (fun k o b₁ ho hb => ?_) fun _ =>
        ⟨inner, b' :: outer, next, hbehind.opened 0 i inner rfl rfl⟩
      cases k with
      | zero =>
          cases hb
          exact (hbehind.opened 1 o b' ho rfl).same hsame
      | succ k => exact hbehind.opened (k + 2) o b₁ ho hb
  | @turns openings i o b inner outer hop hkind hfound hcheck _ ih =>
      have next := here.next hop hcheck
      have hbehind := ih next
      refine hbehind.cons hop (fun k o' b₁ ho hb => ?_) fun _ =>
        ⟨inner, outer, next, hbehind.opened 0 i inner rfl rfl⟩
      cases k with
      | zero =>
          cases ho
          cases hb
          rw [hfound]
          exact ⟨⟨b, .refl b, here⟩, .inr ⟨hop, hkind⟩⟩
      | succ k => exact hbehind.opened (k + 1) o' b₁ ho hb
  | @closes openings i o b d d' outer hop hsame hfound hcheck _ ih =>
      have hbehind := ih (here.next hop hcheck)
      refine hbehind.cons hop (fun k o' b₁ ho hb => ?_) fun hpartner => hpartner.elim
      match k with
      | 0 =>
          cases ho
          cases hb
          rw [hfound]
          exact ⟨⟨b, .refl b, here⟩, .inl hop⟩
      | 1 =>
          cases hb
          exact (hbehind.opened 0 o' d' ho rfl).same hsame
      | k + 2 => exact hbehind.opened (k + 1) o' b₁ ho hb
  | @plain openings i op b b' outer hop hflat _ hsame hcheck _ ih =>
      have hbehind := ih (here.next hop hcheck)
      refine hbehind.cons hop (fun k o b₁ ho hb => ?_) fun hpartner => absurd hpartner hflat
      cases k with
      | zero =>
          cases hb
          exact (hbehind.opened 0 o b' ho rfl).same hsame
      | succ k => exact hbehind.opened (k + 1) o b₁ ho hb

end Wasm

end WasmHost

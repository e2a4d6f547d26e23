import WasmHost.Proofs.Wasm.Compiled
import WasmHost.Proofs.Wasm.ReadBack
import WasmHost.Wasm.Validate

/-!
# Globals are read back

The expression of a global is read up to its first `done`, so one with another `done` in it is read
in the wrong place, and with it what comes behind. But as many expressions are read as were written:
if a list of globals is read to its end and all expressions that were found are constant, each one
ends where it was written to end.
-/

namespace WasmHost.Wasm

namespace Reader

variable {α β : Type} {i : Input} {place : Nat} {rest : Bytes}

theorem run_bind_eq_some {σ : Type} {r : StateT σ Option α} {k : α → StateT σ Option β} {s s' : σ}
    {b : β} :
    (r >>= k).run s = some (b, s') ↔ ∃ a s₁, r.run s = some (a, s₁) ∧ (k a).run s₁ = some (b, s') := by
  rw [StateT.run_bind, Option.bind_eq_bind, Option.bind_eq_some_iff]
  simp only [Prod.exists]

/-! ## Instructions -/

theorem ne_nil_of_op (o : Op) : Encode.op o ≠ [] := by
  cases o <;> simp [Encode.op, Encode.extended]
  rename_i op
  unfold Encode.numOp
  split <;> simp [Encode.extended]

/-- The first bytes of the instructions that may stand in constant expressions. -/
def isConstantCode (b : UInt8) : Bool :=
  [0x0b, 0x23, 0x41, 0x42, 0x43, 0x44, 0xd0, 0xd2].contains b || decide (0x45 ≤ b ∧ b < 0xc5)

/-- An instruction may stand in a constant expression of some module. -/
def IsConstant (o : Op) : Prop := ∃ c n, isConstantOp c n o

/-- A reader gives no such instruction. -/
def Varies (r : Reader Op) : Prop := Gives (fun o => ∀ c n, isConstantOp c n o = false) r

theorem varies_tabled {code : Nat} (h : code < 0x45 ∨ 0xc5 ≤ code) : Varies (tabled code) := by
  unfold tabled
  split
  · exact .fail
  · split
    · exact .after fun _ => .pure fun _ _ => rfl
    · split
      · exact .after fun _ => .pure fun _ _ => rfl
      · split
        · exact .fail
        · rename_i hcode
          split
          · rename_i op hop
            have hlength : NumOp.all.length = 0x80 := rfl
            obtain ⟨hlt, -⟩ := List.getElem?_eq_some_iff.mp hop
            have hfirst : NumOp.firstOpcode = 0x45 := rfl
            omega
          · exact .fail

theorem varies_numeric {op : NumOp} (h : op ∈ NumOp.saturating) (c : Context) (n : Nat) :
    isConstantOp c n (.numeric op) = false := by
  simp only [NumOp.saturating, List.mem_flatMap, List.mem_map] at h
  obtain ⟨_, _, _, _, _, _, rfl⟩ := h
  rfl

theorem varies_extended : Varies extended := by
  refine .after fun code => ?_
  split
  · rename_i op hop
    exact .pure (varies_numeric (List.mem_of_getElem? hop))
  · split
    all_goals first
      | exact .after fun _ => .pure fun _ _ => rfl
      | exact .after fun _ => .after fun _ => .pure fun _ _ => rfl
      | exact .fail

theorem varies_op : ∃ k, op = byte >>= k ∧ ∀ b, isConstantCode b = false → Varies (k b) := by
  refine ⟨_, rfl, fun b hb => ?_⟩
  split
  all_goals first
    | exact .pure fun _ _ => rfl
    | exact .after fun _ => .pure fun _ _ => rfl
    | exact .after fun _ => .after fun _ => .pure fun _ _ => rfl
    | exact varies_extended
    | exact absurd hb (by decide)
    | skip
  · refine .after fun _ => ?_
    split
    · exact .after fun _ => .pure fun _ _ => rfl
    · exact .fail
  · refine varies_tabled ?_
    simp only [isConstantCode, Bool.or_eq_false_iff, decide_eq_false_iff_not, not_and,
      UInt8.le_iff_toNat_le, UInt8.lt_iff_toNat_lt] at hb
    have hrange : 0x45 ≤ b.toNat → ¬ b.toNat < 0xc5 := hb.2
    omega

theorem length_littleEndian (k bits : Nat) : (Encode.littleEndian k bits).length = k := by
  induction k generalizing bits with
  | zero => rfl
  | succ k ih => rw [Encode.littleEndian, List.length_cons, ih]

theorem Finds.signed (width : Nat) (k : Int) :
    Finds (leb (Leb.readSigned width)) (Leb.signed k) (fun _ => True) := by
  intro place rest a i hr
  rw [run_leb] at hr
  obtain ⟨⟨a', rest'⟩, hread, heq⟩ := Option.map_eq_some_iff.mp hr
  cases heq
  obtain ⟨⟨value, bits, rest''⟩, hgroups, heq⟩ := Option.bind_eq_some_iff.mp hread
  cases heq
  have hrest : rest' = rest := (Leb.isNumber_signed k).rest_of_groups hgroups
  subst hrest
  exact ⟨trivial, by rw [List.length_append, Nat.add_sub_cancel]⟩

theorem Finds.littleEndian (k bits : Nat) :
    Finds (littleEndian k) (Encode.littleEndian k bits) (fun _ => True) := by
  have htake := Finds.take (Encode.littleEndian k bits)
  rw [length_littleEndian] at htake
  exact htake.last fun _ _ => .pure trivial

theorem finds_nullType (t : ValType) : Finds nullType [Encode.valType t] (fun _ => True) :=
  .cons (.last (.lift _) fun _ _ => .ite (fun _ => .pure trivial) fun _ => .fail)

theorem finds_tabled {code : Nat} (h : 0x45 ≤ code) :
    Finds (tabled code) [] (fun o => ∃ op, o = .numeric op) := by
  have hload : ¬ code - LoadOp.firstOpcode < LoadOp.all.length := by
    rw [show LoadOp.firstOpcode = 0x28 from rfl, show LoadOp.all.length = 14 from rfl]
    omega
  have hstore : ¬ code - StoreOp.firstOpcode < StoreOp.all.length := by
    rw [show StoreOp.firstOpcode = 0x36 from rfl, show StoreOp.all.length = 9 from rfl]
    omega
  unfold tabled
  rw [dif_neg hload, dif_neg hstore]
  refine .ite (fun _ => .fail) fun _ => .ite (fun _ => .fail) fun _ => ?_
  split
  · exact .pure ⟨_, rfl⟩
  · exact .fail

theorem finds_numOp (op : NumOp) :
    Finds Reader.op (Encode.numOp op) (fun o => ∃ op, o = .numeric op) := by
  unfold Encode.numOp
  split
  · rename_i k hk
    refine .cons (.bind (.u32 k) fun code hcode => ?_)
    subst hcode
    obtain ⟨hlt, -⟩ := List.idxOf?_eq_some_iff.mp hk
    rw [List.getElem?_eq_getElem hlt]
    exact .pure ⟨_, rfl⟩
  · have hlt : NumOp.all.idxOf op ≤ 0x80 := List.idxOf_le_length
    have hbyte : (UInt8.ofNat (0x45 + NumOp.all.idxOf op)).toNat = 0x45 + NumOp.all.idxOf op :=
      Text.toNat_ofNat (by omega)
    refine .cons ?_
    rw [show NumOp.firstOpcode = 0x45 from rfl]
    generalize UInt8.ofNat (0x45 + NumOp.all.idxOf op) = b at hbyte
    have hb : 0x45 ≤ b.toNat ∧ b.toNat ≤ 0xc5 := by omega
    clear hbyte
    split
    all_goals try exact absurd hb (by decide)
    exact finds_tabled hb.1

/-- An instruction with the first byte of a constant one is read to its end. -/
theorem finds_op {o : Op} (h : (Encode.op o).head?.any isConstantCode) :
    Finds op (Encode.op o) (fun o' => o' = .done ↔ o = .done) := by
  have hload : ∀ k ≤ LoadOp.all.length,
      isConstantCode (UInt8.ofNat (LoadOp.firstOpcode + k)) = false := by decide
  have hstore : ∀ k ≤ StoreOp.all.length,
      isConstantCode (UInt8.ofNat (StoreOp.firstOpcode + k)) = false := by decide
  cases o with
  | done => exact .cons (.pure Iff.rfl)
  | globalGet g => exact .cons (.last (.u32 g) fun _ _ => .pure (by simp))
  | refFunc f => exact .cons (.last (.u32 f) fun _ _ => .pure (by simp))
  | i32Const b => exact .cons (.last (.signed _ _) fun _ _ => .pure (by simp))
  | i64Const b => exact .cons (.last (.signed _ _) fun _ _ => .pure (by simp))
  | f32Const b => exact .cons (.last (.littleEndian _ _) fun _ _ => .pure (by simp))
  | f64Const b => exact .cons (.last (.littleEndian _ _) fun _ _ => .pure (by simp))
  | refNull t => exact .cons (.last (finds_nullType t) fun _ _ => .pure (by simp))
  | numeric op =>
      refine (finds_numOp op).mono fun o' ho' => ?_
      obtain ⟨op', rfl⟩ := ho'
      simp
  | load op a =>
      have hfalse := hload (LoadOp.all.idxOf op) List.idxOf_le_length
      rw [Encode.op, List.head?_cons, Option.any_some, hfalse] at h
      cases h
  | store op a =>
      have hfalse := hstore (StoreOp.all.idxOf op) List.idxOf_le_length
      rw [Encode.op, List.head?_cons, Option.any_some, hfalse] at h
      cases h
  | _ => exact absurd h Bool.false_ne_true

/-- A constant instruction that was found was written, up to its operands. -/
theorem rest_of_op {o o' : Op} (hr : op.run ⟨place, Encode.op o ++ rest⟩ = some (o', i))
    (hc : IsConstant o') : (o' = .done ↔ o = .done) ∧ i.bytes = rest := by
  by_cases hcode : (Encode.op o).head?.any isConstantCode
  · obtain ⟨hdone, rfl⟩ := finds_op hcode _ _ _ _ hr
    exact ⟨hdone, rfl⟩
  · obtain ⟨b, bytes, heq⟩ := List.exists_cons_of_ne_nil (ne_nil_of_op o)
    obtain ⟨k, hop, hvaries⟩ := varies_op
    rw [heq, List.head?_cons, Option.any_some, Bool.not_eq_true] at hcode
    rw [heq, hop] at hr
    obtain ⟨c, n, hc⟩ := hc
    rw [hvaries b hcode _ _ _ hr] at hc
    cases hc

/-- Instructions less some that they begin with, none of which ends an expression. -/
def Behind (ops after : List Op) : Prop := ∃ before, ops = before ++ after ∧ .done ∉ before

theorem Behind.trans {ops ops' ops'' : List Op} (h : Behind ops ops') (h' : Behind ops' ops'') :
    Behind ops ops'' := by
  obtain ⟨before, rfl, hbefore⟩ := h
  obtain ⟨before', rfl, hbefore'⟩ := h'
  exact ⟨before ++ before', (List.append_assoc ..).symm, by simp [hbefore, hbefore']⟩

/-- Instructions that end with a `done` if there are any. -/
def Ends (ops : List Op) : Prop := ∀ o ∈ ops.getLast?, o = .done

theorem Ends.mem {ops : List Op} (h : Ends ops) (hne : ops ≠ []) : .done ∈ ops := by
  have hlast := h _ (List.getLast?_eq_some_getLast hne)
  exact hlast ▸ List.getLast_mem hne

theorem Ends.of_append {before after : List Op} (h : Ends (before ++ after)) : Ends after :=
  fun o ho => h o (List.mem_getLast?_append_of_mem_getLast? ho)

theorem Behind.count {ops after : List Op} (h : Behind ops after) :
    ops.count .done = after.count .done := by
  obtain ⟨before, rfl, hbefore⟩ := h
  rw [List.count_append, List.count_eq_zero.mpr hbefore, Nat.zero_add]

theorem Behind.mem {ops after : List Op} (h : Behind ops after) (hd : .done ∈ ops) :
    .done ∈ after := by
  obtain ⟨before, rfl, hbefore⟩ := h
  exact (List.mem_append.mp hd).resolve_left hbefore

/-- An expression is read up to its first `done`. -/
theorem rest_of_exprWithin {ops e : List Op} {fuel : Nat} (hd : .done ∈ ops)
    (hr : (exprWithin fuel).run ⟨place, Encode.expr ops ++ rest⟩ = some (e, i))
    (hc : ∀ o ∈ e, IsConstant o) :
    ∃ after, Behind ops (.done :: after) ∧ i.bytes = Encode.expr after ++ rest := by
  induction ops generalizing fuel place e with
  | nil => cases hd
  | cons o ops ih =>
      cases fuel with
      | zero => cases hr
      | succ fuel =>
          rw [Encode.expr, List.flatMap_cons, List.append_assoc, exprWithin, run_bind_eq_some] at hr
          obtain ⟨o', i', ho', hr⟩ := hr
          split at hr
          · rename_i hdone
            cases hr
            obtain ⟨hiff, hrest⟩ := rest_of_op ho' (hc o' List.mem_cons_self)
            cases hiff.mp hdone
            exact ⟨ops, ⟨[], rfl, List.not_mem_nil⟩, hrest⟩
          · rename_i hdone
            obtain ⟨e', i'', he', hr⟩ := run_bind_eq_some.mp hr
            cases hr
            obtain ⟨hiff, hrest⟩ := rest_of_op ho' (hc o' List.mem_cons_self)
            have hne : o ≠ .done := fun h => hdone (hiff.mpr h)
            obtain ⟨place', bytes⟩ := i'
            cases hrest
            obtain ⟨after, hbehind, hafter⟩ := ih ((List.mem_cons.mp hd).resolve_left hne.symm) he'
              fun o ho => hc o (List.mem_cons_of_mem o' ho)
            exact ⟨after, .trans ⟨[o], rfl, by simpa using hne.symm⟩ hbehind, hafter⟩

/-! ## Types in the wrong place -/

/-- The bytes that the type of a global may consist of. -/
def isTypeByte (b : UInt8) : Bool := (valTypeOf? b).isSome || b == 0x63 || b == 0 || b == 1

/-- A byte of a type that stands where an instruction was written is all of the instruction. -/
theorem rest_of_byte {o : Op} {b : UInt8}
    (hr : byte.run ⟨place, Encode.op o ++ rest⟩ = some (b, i)) (hb : isTypeByte b) :
    o ≠ .done ∧ i.bytes = rest := by
  have hload : ∀ k ≤ LoadOp.all.length,
      isTypeByte (UInt8.ofNat (LoadOp.firstOpcode + k)) = false := by decide
  have hstore : ∀ k ≤ StoreOp.all.length,
      isTypeByte (UInt8.ofNat (StoreOp.firstOpcode + k)) = false := by decide
  cases o with
  | done =>
      cases hr
      cases hb
  | unreachable | nop | orElse | ret | drop | select | refIsNull =>
      cases hr
      exact ⟨by simp, rfl⟩
  | numeric op =>
      refine ⟨by simp, ?_⟩
      rw [Encode.op, Encode.numOp] at hr
      split at hr
      · cases hr
        cases hb
      · cases hr
        rfl
  | load op a =>
      cases hr
      rw [hload _ List.idxOf_le_length] at hb
      cases hb
  | store op a =>
      cases hr
      rw [hstore _ List.idxOf_le_length] at hb
      cases hb
  | _ =>
      cases hr
      exact absurd hb Bool.false_ne_true

theorem behind_of_byte {ops : List Op} {b : UInt8} (hd : .done ∈ ops)
    (hi : i.bytes = Encode.expr ops ++ rest) {j : Input} (hr : byte.run i = some (b, j))
    (hb : isTypeByte b) : ∃ after, Behind ops after ∧ j.bytes = Encode.expr after ++ rest := by
  obtain ⟨place, bytes⟩ := i
  cases ops with
  | nil => cases hd
  | cons o ops =>
      rw [Encode.expr, List.flatMap_cons, List.append_assoc] at hi
      cases hi
      obtain ⟨hne, hrest⟩ := rest_of_byte hr hb
      exact ⟨ops, ⟨[o], rfl, by simpa using hne.symm⟩, hrest⟩

theorem run_lift_eq_some {σ : Type} {o : Option α} {a : α} {s s' : σ} :
    (StateT.lift o : StateT σ Option α).run s = some (a, s') ↔ o = some a ∧ s' = s := by
  cases o with
  | none => simp [StateT.lift, StateT.run]
  | some b => simp [StateT.lift, StateT.run, eq_comm]

theorem behind_of_valType {ops : List Op} {t : ValType} (hd : .done ∈ ops)
    (hi : i.bytes = Encode.expr ops ++ rest) {j : Input} (hr : valType.run i = some (t, j)) :
    ∃ after, Behind ops after ∧ j.bytes = Encode.expr after ++ rest := by
  obtain ⟨b, i', hb, hr⟩ := run_bind_eq_some.mp hr
  split at hr
  · rename_i hspelled
    obtain ⟨after, hbehind, hi'⟩ := behind_of_byte hd hi hb (by rw [hspelled]; rfl)
    obtain ⟨b', i'', hb', hr'⟩ := run_bind_eq_some.mp hr
    obtain ⟨t', i₁, ht, hlast⟩ := run_bind_eq_some.mp hr'
    obtain ⟨htype, rfl⟩ := run_lift_eq_some.mp ht
    have htype : valTypeOf? b' = some t' := htype
    obtain ⟨after', hbehind', hi''⟩ := behind_of_byte (hbehind.mem hd) hi' hb'
      (by simp [isTypeByte, htype])
    split at hlast
    · cases hlast
      exact ⟨after', hbehind.trans hbehind', hi''⟩
    · cases hlast
  · obtain ⟨htype, rfl⟩ := run_lift_eq_some.mp hr
    have htype : valTypeOf? b = some t := htype
    exact behind_of_byte hd hi hb (by simp [isTypeByte, htype])

/-- The type of a global that is read where instructions were written takes up some of them, but
nothing that ends an expression. -/
theorem behind_of_globalType {ops : List Op} {t : GlobalType} (hd : .done ∈ ops)
    (hi : i.bytes = Encode.expr ops ++ rest) {j : Input} (hr : globalType.run i = some (t, j)) :
    ∃ after, Behind ops after ∧ j.bytes = Encode.expr after ++ rest := by
  obtain ⟨content, i', hcontent, hr⟩ := run_bind_eq_some.mp hr
  obtain ⟨after, hbehind, hi'⟩ := behind_of_valType hd hi hcontent
  obtain ⟨flag, i'', hflag, hr⟩ := run_bind_eq_some.mp hr
  have hlast : j = i'' ∧ isTypeByte flag := by
    split at hr <;> cases hr <;> exact ⟨rfl, rfl⟩
  obtain ⟨rfl, hb⟩ := hlast
  obtain ⟨after', hbehind', hj⟩ := behind_of_byte (hbehind.mem hd) hi' hflag hb
  exact ⟨after', hbehind.trans hbehind', hj⟩

/-! ## Globals -/

/-- The type of a global is read where the next global begins, or among instructions that are left
of the one before. -/
theorem globalType_of_rest {ops : List Op} {gs : List Global} {t : GlobalType}
    (hops : Ends ops) (hgs : ∀ g ∈ gs, Ends g.init ∧ g.init ≠ [])
    (hi : i.bytes = Encode.expr ops ++ gs.flatMap Encode.globalEntry) {j : Input}
    (hr : globalType.run i = some (t, j)) :
    ∃ ops' gs', Ends ops' ∧ .done ∈ ops' ∧
      j.bytes = Encode.expr ops' ++ gs'.flatMap Encode.globalEntry ∧
      ((ops = [] ∧ ∃ g, gs = g :: gs' ∧ ops' = g.init ∧ t = g.type) ∨
        (ops ≠ [] ∧ gs = gs' ∧ Behind ops ops')) := by
  cases ops with
  | nil =>
      obtain ⟨place, bytes⟩ := i
      cases gs with
      | nil =>
          cases hi
          cases hr
      | cons g gs =>
          obtain ⟨hends, hne⟩ := hgs g List.mem_cons_self
          rw [List.flatMap_cons, Encode.globalEntry, List.append_assoc] at hi
          cases hi
          obtain ⟨rfl, rfl⟩ := finds_globalType g.type _ _ _ _ hr
          exact ⟨g.init, gs, hends, hends.mem hne, rfl, .inl ⟨rfl, g, rfl, rfl, rfl⟩⟩
  | cons o ops =>
      have hd := hops.mem (List.cons_ne_nil o ops)
      obtain ⟨ops', hbehind, hj⟩ := behind_of_globalType hd hi hr
      have hends : Ends ops' := by
        obtain ⟨before, heq, -⟩ := hbehind
        rw [heq] at hops
        exact hops.of_append
      exact ⟨ops', gs, hends, hbehind.mem hd, hj, .inr ⟨List.cons_ne_nil o ops, rfl, hbehind⟩⟩

theorem length_le_count {gs : List Global} (hgs : ∀ g ∈ gs, Ends g.init ∧ g.init ≠ []) :
    gs.length ≤ (gs.flatMap (·.init)).count .done := by
  induction gs with
  | nil => exact Nat.le_refl 0
  | cons g gs ih =>
      have hg := hgs g List.mem_cons_self
      have hpos := List.count_pos_iff.mpr (hg.1.mem hg.2)
      have hrest := ih fun g' hg' => hgs g' (List.mem_cons_of_mem g hg')
      rw [List.flatMap_cons, List.count_append, List.length_cons]
      omega

/-- As many expressions are found as are read. If they are as many as were written, the types are
those that were written. -/
theorem types_of_globals {ops : List Op} {gs found : List Global} {count : Nat}
    (hops : Ends ops) (hgs : ∀ g ∈ gs, Ends g.init ∧ g.init ≠ [])
    (hi : i.bytes = Encode.expr ops ++ gs.flatMap Encode.globalEntry) {j : Input}
    (hr : (times globalEntry count).run i = some (found, j)) (hend : j.bytes = [])
    (hc : ∀ g ∈ found, ∀ o ∈ g.init, IsConstant o) :
    (ops ++ gs.flatMap (·.init)).count .done ≤ count ∧
      (ops = [] → count = gs.length → found.map (·.type) = gs.map (·.type)) := by
  induction count generalizing i ops gs found with
  | zero =>
      cases hr
      have hnil : ops = [] := by
        cases ops with
        | nil => rfl
        | cons o ops =>
            rw [hend, Encode.expr, List.flatMap_cons] at hi
            simp [ne_nil_of_op o] at hi
      subst hnil
      cases gs with
      | nil => exact ⟨Nat.le_refl 0, fun _ _ => rfl⟩
      | cons g gs =>
          rw [hend, List.flatMap_cons, Encode.globalEntry, Encode.globalType] at hi
          cases hi
  | succ count ih =>
      obtain ⟨g', i₁, hg', hr⟩ := run_bind_eq_some.mp hr
      obtain ⟨found', i₂, hfound, hr⟩ := run_bind_eq_some.mp hr
      cases hr
      obtain ⟨t, i₃, ht, hg'⟩ := run_bind_eq_some.mp hg'
      obtain ⟨e, i₄, he, hg'⟩ := run_bind_eq_some.mp hg'
      cases hg'
      obtain ⟨ops', gs', hends, hd, hi₃, hcases⟩ := globalType_of_rest hops hgs hi ht
      have hgs' : ∀ g ∈ gs', Ends g.init ∧ g.init ≠ [] := by
        rcases hcases with ⟨-, g, rfl, -⟩ | ⟨-, rfl, -⟩
        · exact fun g' hg' => hgs g' (List.mem_cons_of_mem g hg')
        · exact hgs
      obtain ⟨place, bytes⟩ := i₃
      cases hi₃
      obtain ⟨after, hbehind, hafter⟩ :=
        rest_of_exprWithin hd he (hc _ List.mem_cons_self)
      have hafterEnds : Ends after := by
        obtain ⟨before, rfl, -⟩ := hbehind
        exact @Ends.of_append [.done] _ hends.of_append
      obtain ⟨hle, htypes⟩ := ih hafterEnds hgs' hafter hfound
        fun g hg => hc g (List.mem_cons_of_mem _ hg)
      have hcount : ops'.count .done = after.count .done + 1 := by
        rw [hbehind.count, List.count_cons_self]
      rw [List.count_append] at hle
      rcases hcases with ⟨rfl, g, rfl, rfl, rfl⟩ | ⟨hne, rfl, hops'⟩
      · refine ⟨?_, fun _ hlength => ?_⟩
        · rw [List.nil_append, List.flatMap_cons, List.count_append]
          omega
        · have hlength : count = gs'.length := Nat.succ.inj hlength
          have hmany := length_le_count hgs'
          have hnil : after = [] := by
            by_contra hne
            have hpos := List.count_pos_iff.mpr (hafterEnds.mem hne)
            omega
          rw [List.map_cons, List.map_cons, htypes hnil hlength]
      · refine ⟨?_, fun h => absurd h hne⟩
        rw [List.count_append, hops'.count]
        omega

end Reader

end WasmHost.Wasm

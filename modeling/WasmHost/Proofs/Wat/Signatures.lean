import WasmHost.Wat.Module

/-!
# Signatures are found one by one

While the bodies of a module are read its list of signatures only grows: an index stands for the same
signature from where it was found on.
-/

namespace WasmHost.Wat

open WasmHost.Wasm

variable {α β : Type} {b : Build α} {k : α → Build β}

/-- A step of reading adds signatures at most. -/
def Extends (b : Build α) : Prop := ∀ s a s', b.run s = some (a, s') → s.types <+: s'.types

namespace Extends

theorem pure (a : α) : Extends (pure a : Build α) := by
  intro s a' s' h
  cases h
  exact List.prefix_refl _

theorem refused : Extends (refused : Build α) := fun _ _ _ h => by cases h

theorem lift (o : Option α) : Extends (StateT.lift o : Build α) := by
  intro s a s' h
  obtain ⟨a', -, heq⟩ := Option.bind_eq_some_iff.mp h
  cases heq
  exact List.prefix_refl _

theorem get : Extends (get : Build BodyState) := by
  intro s a s' h
  cases h
  exact List.prefix_refl _

theorem modify {f : BodyState → BodyState} (h : ∀ s, (f s).types = s.types) :
    Extends (modify f : Build PUnit) := by
  intro s a s' hr
  cases hr
  exact (h s).symm ▸ List.prefix_refl s.types

theorem bind (hb : Extends b) (hk : ∀ a, Extends (k a)) : Extends (b >>= k) := by
  intro s c s' h
  rw [StateT.run_bind] at h
  obtain ⟨⟨a, s₁⟩, ha, h⟩ := Option.bind_eq_some_iff.mp h
  exact (hb s a s₁ ha).trans (hk a s₁ c s' h)

theorem map {f : α → β} (hb : Extends b) : Extends (do return f (← b)) := hb.bind fun _ => .pure _

theorem mapM {f : α → Build β} (hf : ∀ a, Extends (f a)) (as : List α) : Extends (as.mapM f) := by
  induction as with
  | nil => exact .pure []
  | cons a as ih =>
      rw [List.mapM_cons]
      exact .bind (hf a) fun _ => .bind ih fun _ => .pure _

end Extends

/-! ## Instructions -/

/-- A signature is found or added, and its index stands for it. -/
theorem internType_spec {t : FuncType} {s s' : BodyState} {n : Nat}
    (h : (internType t).run s = some (n, s')) : s.types <+: s'.types ∧ s'.types[n]? = some t := by
  simp only [internType, StateT.run_bind, StateT.run_get, pure_bind] at h
  split at h
  · rename_i i hfound
    cases h
    obtain ⟨hlt, heq, -⟩ := List.findIdx?_eq_some_iff_getElem.mp hfound
    exact ⟨List.prefix_refl _, List.getElem?_eq_some_iff.mpr ⟨hlt, eq_of_beq heq⟩⟩
  · cases h
    exact ⟨List.prefix_append _ _, List.getElem?_concat_length⟩

theorem extends_internType (t : FuncType) : Extends (internType t) :=
  fun _ _ _ h => (internType_spec h).1

theorem extends_resolve (scope : Scope) (use : TypeUse) : Extends (use.resolve scope) := by
  unfold TypeUse.resolve
  split
  · exact extends_internType _
  · refine .bind (.lift _) fun n => .bind .get fun s => ?_
    dsimp only
    split
    · split
      · exact .pure _
      · exact .refused
    · exact .pure _

theorem extends_blockTypeOf (scope : Scope) (use : TypeUse) : Extends (blockTypeOf scope use) := by
  unfold blockTypeOf
  split
  · exact .pure _
  · exact .pure _
  · exact .pure _
  · exact (extends_resolve scope use).map

theorem extends_resolveOr0 (ids : Ids) (r : Option Ref) : Extends (resolveOr0 ids r) := by
  cases r with
  | none => exact .pure 0
  | some r => exact .lift _

theorem extends_label (r : Ref) : Extends (label r) := by
  cases r with
  | index n => exact .pure n
  | id name => exact .bind .get fun s => .lift _

/-- An instruction that was taken from the front of some trees. -/
def Taken (o : Option (Build Op × List Sexpr)) : Prop :=
  ∀ b rest, o = some (b, rest) → Extends b

namespace Taken

variable {o : Option α} {k : α → Option (Build Op × List Sexpr)}
  {o' : Option (Build Op × List Sexpr)}

theorem of_some {b : Build Op} (h : Extends b) (rest : List Sexpr) : Taken (some (b, rest)) := by
  intro b' rest' heq
  cases heq
  exact h

theorem of_none : Taken none := fun _ _ h => by cases h

theorem bind (hk : ∀ a, Taken (k a)) : Taken (o >>= k) := by
  intro b rest h
  obtain ⟨a, -, h⟩ := Option.bind_eq_some_iff.mp h
  exact hk a b rest h

/-- An instruction that was taken is built where it stands. -/
theorem built (ho : Taken o') {k : Build Op × List Sexpr → Build β}
    (hk : ∀ b rest, Extends b → Extends (k (b, rest))) :
    Extends ((StateT.lift o' : Build (Build Op × List Sexpr)) >>= k) := by
  intro s a s' h
  rw [StateT.run_bind] at h
  obtain ⟨⟨⟨b, rest⟩, s₁⟩, hlift, h⟩ := Option.bind_eq_some_iff.mp h
  obtain ⟨⟨b', rest'⟩, ho', heq⟩ := Option.bind_eq_some_iff.mp hlift
  cases heq
  exact hk b rest (ho b rest ho') s a s' h

end Taken

theorem taken_indexed (ids : Ids) (op : Nat → Op) (items : List Sexpr) :
    Taken (indexed ids op items) :=
  .bind fun _ => .of_some (.map (.lift _)) _

theorem taken_indexedOr0 (ids : Ids) (op : Nat → Op) (items : List Sexpr) :
    Taken (indexedOr0 ids op items) :=
  .of_some (.map (extends_resolveOr0 ids _)) _

theorem taken_pairOr0 (ids : Ids) (op : Nat → Nat → Op) (items : List Sexpr) :
    Taken (pairOr0 ids op items) := by
  unfold pairOr0
  split
  · exact .bind fun _ => .of_some (.bind (.lift _) fun _ => .map (.lift _)) _
  · exact .of_some (.pure _) _

theorem taken_fromSegment (segments ids : Ids) (op : Nat → Nat → Op) (items : List Sexpr) :
    Taken (fromSegment segments ids op items) := by
  refine .bind fun ⟨a, items⟩ => ?_
  dsimp only
  split
  · exact .of_some (.bind (.lift _) fun _ => .map (.lift _)) _
  · exact .of_some (.map (.lift _)) _

theorem taken_branch (op : Nat → Op) (items : List Sexpr) : Taken (branch op items) :=
  .bind fun _ => .of_some (.map (extends_label _)) _

theorem taken_constant (bits? : Numeral → Option α) (op : α → Op) (items : List Sexpr) :
    Taken (constant bits? op items) :=
  .bind fun _ => .bind fun _ => .of_some (.pure _) _

theorem taken_memArg (c : BodyContext) (bytes : Nat) (op : MemArg → Op) (items : List Sexpr) :
    Taken (memArg c bytes op items) := by
  refine .bind fun _ => .bind fun _ => ?_
  dsimp only
  split
  · exact .of_some (.map (extends_resolveOr0 _ _)) _
  · exact .of_none

theorem taken_plainOp (c : BodyContext) (keyword : String) (items : List Sexpr) :
    Taken (plainOp c keyword items) := by
  unfold plainOp
  split
  all_goals first
    | exact .of_some (.pure _) _
    | exact taken_indexed _ _ _
    | exact taken_indexedOr0 _ _ _
    | exact taken_pairOr0 _ _ _
    | exact taken_fromSegment _ _ _ _
    | exact taken_branch _ _
    | exact taken_constant _ _ _
    | exact taken_memArg _ _ _ _
    | skip
  · -- a table of labels
    dsimp only
    split
    · exact .of_some (.bind (.mapM extends_label _) fun _ => .map (extends_label _)) _
    · exact .of_none
  · -- a call through a table
    exact .bind fun _ =>
      .of_some (.bind (extends_resolve _ _) fun _ => .map (extends_resolveOr0 _ _)) _
  · -- a choice
    refine .bind fun r => ?_
    split
    · exact .of_some (.pure _) _
    · exact .of_some (.pure _) _
  · -- a null reference
    split
    · exact .of_some (.pure _) _
    · exact .of_some (.pure _) _
    · exact .of_none
  · -- a load, a store or a numeric instruction
    split
    · exact taken_memArg _ _ _ _
    · exact taken_memArg _ _ _ _
    · rw [Option.map_eq_bind]
      exact .bind fun _ => .of_some (.pure _) _

theorem extends_beginBlock (c : BodyContext) (op : BlockType → Op) (id : Option String)
    (use : TypeUse) : Extends (beginBlock c op id use) :=
  .bind (extends_blockTypeOf _ _) fun _ => .bind (.modify fun _ => rfl) fun _ => .pure _

theorem extends_endBlock : Extends endBlock := .modify fun _ => rfl

theorem extends_takeLabel (items : List Sexpr) : Extends (takeLabel items) := by
  refine .bind .get fun s => ?_
  split
  · split
    · exact .pure _
    · exact .refused
  · exact .pure _

/-- The instructions of a body, by the steps that are allowed for them. -/
theorem extends_instrs (c : BodyContext) (fuel : Nat) :
    (∀ items, Extends (instrs c fuel items)) ∧ (∀ items, Extends (folded c fuel items)) ∧
      ∀ begin items, Extends begin → Extends (foldedIf c fuel begin items) := by
  induction fuel with
  | zero =>
      refine ⟨fun items => ?_, fun items => ?_, fun begin items _ => ?_⟩
      · exact .refused
      · unfold folded
        exact .refused
      · unfold foldedIf
        exact .refused
  | succ fuel ih =>
      obtain ⟨hinstrs, hfolded, hfoldedIf⟩ := ih
      refine ⟨fun items => ?_, fun items => ?_, fun begin items hbegin => ?_⟩
      · rcases items with _ | ⟨⟨keyword⟩ | _ | _ | ⟨items⟩, rest⟩
        · exact .pure []
        · rw [instrs.eq_def]
          dsimp only
          split
          · refine .bind (.lift _) fun ⟨id, use, rest⟩ => ?_
            exact .bind (extends_beginBlock _ _ _ _) fun _ => .bind (.pure _) fun _ => .map (hinstrs _)
          · exact .bind (extends_takeLabel _) fun _ => .bind (.pure _) fun _ => .map (hinstrs _)
          · exact .bind (extends_takeLabel _) fun _ => .bind extends_endBlock fun _ =>
              .bind (.pure _) fun _ => .map (hinstrs _)
          · exact (taken_plainOp c _ _).built fun b rest hb => .bind hb fun _ => .bind (.pure _) fun _ => .map (hinstrs _)
        · exact .refused
        · exact .refused
        · rw [instrs.eq_def]
          exact .bind (hfolded _) fun _ => .map (hinstrs _)
      · rcases items with _ | ⟨⟨keyword⟩ | _ | _ | _, items⟩
        · exact .refused
        · rw [folded.eq_def]
          dsimp only
          split
          · exact .bind (.lift _) fun _ => hfoldedIf _ _ (extends_beginBlock _ _ _ _)
          · refine .bind (.lift _) fun _ => .bind (extends_beginBlock _ _ _ _) fun _ => ?_
            exact .bind (hinstrs _) fun _ => .bind extends_endBlock fun _ => .pure _
          · exact (taken_plainOp c _ _).built fun b rest hb => .bind (hinstrs _) fun _ => .map hb
        all_goals exact .refused
      · rcases items with _ | ⟨_ | _ | _ | ⟨items⟩, rest⟩
        all_goals try exact .refused
        rw [foldedIf.eq_def]
        dsimp only
        split
        · exact .bind (hfolded _) fun _ => .map (hfoldedIf _ _ hbegin)
        · refine .bind hbegin fun _ => .bind (hinstrs _) fun yes => ?_
          have hlast (no : List Op) : Extends (do
              endBlock
              return no) := .bind extends_endBlock fun _ => .pure no
          split
          · exact .bind (.pure _) fun no => hlast _
          · split
            · exact .bind (hinstrs _) fun _ => .bind (.pure _) fun no => hlast _
            · exact .bind .refused fun no => hlast _
          · exact .bind .refused fun no => hlast _

theorem extends_expression (c : BodyContext) (items : List Sexpr) :
    Extends (expression c items) := ((extends_instrs c _).1 items).map

theorem extends_isolated (hb : Extends b) : Extends (isolated b) :=
  .bind (.modify fun _ => rfl) fun _ => .bind hb fun _ => .map .get

theorem extends_paramIds (use : TypeUse) (type : Nat) : Extends (paramIds use type) := by
  unfold paramIds
  split
  · exact .pure _
  · exact .map .get

end WasmHost.Wat

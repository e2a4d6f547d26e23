import WasmHost.Proofs.Embedding.Ordering
import WasmHost.Proofs.Machine.Budgets
import WasmHost.Proofs.Machine.Refuel

/-!
# Metered machines

A machine is metered if its code uses fuel and nothing adds any. Whatever such a machine calls
returns. Code that calls has less fuel left than when it was called; in between it goes ahead, or
back to the head of a loop for fuel. A host function has a list of things to do, and what it calls
has no caller whose exports could be called. A command calls commands that are older, or code.
-/

namespace WasmHost

open World

/-- Whether an operation adds fuel. -/
def HostOp.addsFuel : HostOp → Bool
  | .addFuel _ => true
  | _ => false

mutual

/-- The number of things that an operation can do, itself included. -/
def HostOp.extent : HostOp → Nat
  | .branch _ zero nonzero => 1 + HostOp.extentOfAll zero + HostOp.extentOfAll nonzero
  | _ => 1

/-- The number of things that some operations can do. -/
def HostOp.extentOfAll : List HostOp → Nat
  | [] => 0
  | op :: ops => op.extent + HostOp.extentOfAll ops

end

theorem HostOp.extentOfAll_append (ops ops' : List HostOp) :
    HostOp.extentOfAll (ops ++ ops') = HostOp.extentOfAll ops + HostOp.extentOfAll ops' := by
  induction ops with
  | nil => simp [extentOfAll]
  | cons op ops ih => simp only [List.cons_append, extentOfAll, ih, Nat.add_assoc]

theorem HostOp.extent_pos (op : HostOp) : 0 < op.extent := by
  cases op <;> simp only [extent] <;> omega

namespace Machine

/-- Whether the next thing to be done adds fuel. -/
def addsFuel (m : Machine) : Bool :=
  match m.stack, m.control with
  | .host h :: _, .run => h.todo.head?.any HostOp.addsFuel
  | _, _ => false

/-- Code uses fuel, and no fuel is added from now on. -/
structure Metered (final : List ValType) (m : Machine) : Prop where
  typed : m.Typed final
  native : m.Native
  aimed : m.Aimed
  ordered : m.world.Ordered
  uses : m.world.usesFuel
  calm : ∀ m', m.Reaches m' → m'.addsFuel = false

/-- The machine comes to an end of what is at work above a stack. -/
def Returns (rest : List Activation) (m : Machine) : Prop :=
  ∃ m', m.Reaches m' ∧ m'.stack = rest ∧ m'.control ≠ .run

variable {m m' : Machine} {final : List ValType} {rest stack : List Activation} {n : Nat}

/-! ## Fuel -/

theorem remaining_le_of_steps (h : m.addsFuel = false) (hs : m.Steps m') :
    m'.world.store.fuel.remaining ≤ m.world.store.fuel.remaining := by
  have hmet : m.world.meetDeadline.2.store.fuel = m.world.store.fuel := by
    unfold meetDeadline
    split <;> rfl
  have htallies := (settles_step hs).ledger
  generalize hevents : m.events m' = events at htallies
  cases htallies with
  | quiet same => exact Nat.le_of_eq (congrArg (·.fuel.remaining) same)
  | burned k same =>
      have hfuel : m'.world.store.fuel = m.world.store.fuel.burn k := congrArg (·.fuel) same
      rw [hfuel]
      exact Nat.sub_le _ _
  | renewed _ same | interrupted _ same =>
      have hfuel : m'.world.store.fuel = m.world.meetDeadline.2.store.fuel :=
        congrArg (·.fuel) same
      rw [hfuel, hmet]
  | requested _ same => exact Nat.le_of_eq (congrArg (·.fuel.remaining) same)
  | added k uses same =>
      -- only an operation of a host function is logged so
      exfalso
      unfold Machine.events at hevents
      split at hevents
      · split at hevents <;> cases hevents
      · rename_i f rest hstack hcontrol
        cases htodo : f.todo with
        | nil => simp [htodo] at hevents
        | cons op todo =>
            rw [addsFuel, hstack, hcontrol] at h
            simp only [htodo, List.head?_cons, Option.any_some, Option.map_some,
              Option.getD_some] at h hevents
            cases op <;> first | (cases h; done) | simp [HostOp.events] at hevents
      · cases hevents

namespace Metered

theorem step (h : m.Metered final) (hs : m.Steps m') : m'.Metered final where
  typed := h.typed.step hs
  native := h.native.step h.typed hs
  aimed := h.aimed.step h.native h.typed hs
  ordered := h.ordered.step hs
  uses := by
    rw [usesFuel, (alters_step hs).extends_.engine]
    exact h.uses
  calm m'' hr := h.calm m'' (.head hs hr)

/-- Later on there is no more fuel, and the store has grown. -/
theorem reaches (h : m.Metered final) (hr : m.Reaches m') : m'.Metered final ∧
    m'.world.store.fuel.remaining ≤ m.world.store.fuel.remaining ∧ m.world.Extends m'.world := by
  induction hr with
  | refl => exact ⟨h, Nat.le_refl _, .refl _⟩
  | tail _ hs ih =>
      obtain ⟨hm, hle, hext⟩ := ih
      exact ⟨hm.step hs, Nat.le_trans (remaining_le_of_steps (hm.calm _ .refl) hs) hle,
        hext.trans (alters_step hs).extends_⟩

end Metered

/-! ## Returns -/

theorem Returns.of_ended (stack : m.stack = rest) (control : m.control ≠ .run) : m.Returns rest :=
  ⟨m, .refl, stack, control⟩

theorem Returns.of_steps (hs : m.Steps m') (h : m'.Returns rest) : m.Returns rest := by
  obtain ⟨m'', hr, hend⟩ := h
  exact ⟨m'', .head hs hr, hend⟩

/-- What was called returns first. -/
theorem Returns.bind (h : m.Returns stack)
    (hrest : ∀ m', m.Reaches m' → m'.stack = stack → m'.control ≠ .run → m'.Returns rest) :
    m.Returns rest := by
  obtain ⟨m', hr, hstack, hcontrol⟩ := h
  obtain ⟨m'', hr', hend⟩ := hrest m' hr hstack hcontrol
  exact ⟨m'', hr.trans hr', hend⟩

/-- Calls of a function return whenever they are made with so much fuel at most. -/
def CallsReturn (final : List ValType) (n : Nat) (w : World) (func : FuncAddr)
    (caller : Option InstanceAddr) : Prop :=
  ∀ (m : Machine) (args : List StoreVal), w.Extends m.world →
    (m.enter func args caller).Metered final →
    (m.enter func args caller).world.store.fuel.remaining ≤ n →
    (m.enter func args caller).Returns m.stack

/-! ## Code -/

/-! Where the step of a frame on top of the stack leads. -/

section Frames

variable {f g : CodeFrame} {w : World}

theorem steps_next (hstack : m.stack = .code f :: rest) (hcontrol : m.control = .run)
    (hstep : f.step m.world = .next g w) : m.Steps ⟨w, .code g :: rest, .run, m.used⟩ := by
  obtain ⟨v, stack, control, used⟩ := m
  cases hstack
  cases hcontrol
  exact step_complete (.next hstep)

theorem steps_call {func : FuncAddr} {args : List StoreVal} (hstack : m.stack = .code f :: rest)
    (hcontrol : m.control = .run) (hstep : f.step m.world = .call func args g w) :
    m.Steps (enter func args (some g.owner) ⟨w, .code g :: rest, .run, m.used⟩) := by
  obtain ⟨v, stack, control, used⟩ := m
  cases hstack
  cases hcontrol
  exact step_complete (.call hstep)

theorem returns_of_trap {c : TrapCode} (hstack : m.stack = .code f :: rest)
    (hcontrol : m.control = .run) (hstep : f.step m.world = .trap c g w) : m.Returns rest := by
  obtain ⟨v, stack, control, used⟩ := m
  cases hstack
  cases hcontrol
  exact .of_steps (step_complete (.trap hstep)) (.of_steps rfl (.of_ended rfl (by simp)))

theorem returns_of_exit {vals : List StoreVal} (hstack : m.stack = .code f :: rest)
    (hcontrol : m.control = .run) (hstep : f.step m.world = .exit vals w) : m.Returns rest := by
  obtain ⟨v, stack, control, used⟩ := m
  cases hstack
  cases hcontrol
  exact .of_steps (step_complete (.exit hstep)) (.of_ended rfl (by simp))

/-- A frame whose call has ended goes on behind it, or is unwound. -/
theorem resumes_or_returns (hstack : m.stack = .code f :: rest) (hcontrol : m.control ≠ .run) :
    m.Returns rest ∨ ∃ vals, m.Steps
      ⟨m.world, .code (f.pushAll vals).advance :: rest, .run, m.used⟩ := by
  obtain ⟨w, stack, control, used⟩ := m
  cases hstack
  cases control with
  | run => exact absurd rfl hcontrol
  | back vals => exact .inr ⟨vals, rfl⟩
  | fault e => exact .inl (.of_steps rfl (.of_ended rfl (by simp)))

/-- To begin a call takes no fuel. -/
theorem fuel_enter (func : FuncAddr) (args : List StoreVal) (caller : Option InstanceAddr)
    (m : Machine) : (m.enter func args caller).world.store.fuel = m.world.store.fuel :=
  congrArg (·.world.store.fuel) (enter_withFuel m.world.store.fuel m func args caller)

/-- A function that was entered returns if all that it can call does. -/
theorem returns_of_frame
    (calls : ∀ k < n, ∀ w func caller, CallsReturn final k w func caller)
    (metered : m.Metered final) (hstack : m.stack = .code f :: rest) (hcontrol : m.control = .run)
    (entered : f.entered) (budget : f.budget m.world < n) : m.Returns rest := by
  -- by the budget, and for one budget by the code that lies ahead
  generalize hb : f.budget m.world = b at budget
  induction b using Nat.strong_induction_on generalizing m f with
  | _ b ihBudget =>
      generalize ha : f.code.ops.size - f.pc = ahead
      induction ahead using Nat.strong_induction_on generalizing m f with
      | _ ahead ihAhead =>
          subst hb ha
          have typed := metered.typed.frame hstack hcontrol
          have onward {m' : Machine} {g : CodeFrame} (hr : m.Reaches m')
              (hstack' : m'.stack = .code g :: rest) (hcontrol' : m'.control = .run)
              (kin : f.Kin g) (le : g.budget m'.world ≤ f.budget m.world)
              (progress : f.pc < g.pc ∨ g.budget m'.world < f.budget m.world) :
              m'.Returns rest := by
            have metered' := (metered.reaches hr).1
            have entered' : g.entered := kin.entered.trans entered
            rcases Nat.lt_or_eq_of_le le with hlt | heq
            · exact ihBudget _ hlt metered' hstack' hcontrol' entered' rfl (hlt.trans budget)
            · have hpc := progress.resolve_right (Nat.not_lt.mpr (Nat.le_of_eq heq.symm))
              obtain ⟨op, hop⟩ := typed.exists_instruction
              have hlt := (Array.getElem?_eq_some_iff.mp hop).1
              refine ihAhead (g.code.ops.size - g.pc) ?_ metered' hstack' hcontrol' entered' heq rfl
              rw [kin.code]
              omega
          have hspends := typed.spends_step (metered.aimed f (hstack ▸ List.mem_cons_self)) entered
          generalize hstep : f.step m.world = o at hspends
          cases hspends with
          | trap => exact returns_of_trap hstack hcontrol hstep
          | exit => exact returns_of_exit hstack hcontrol hstep
          | @next g w kin le progress =>
              have hs := steps_next hstack hcontrol hstep
              refine .of_steps hs ?_
              by_cases hstops : f.budget m.world = 0 ∧ g.AtLoop
              · -- back at a loop there is nothing left
                obtain ⟨g', w', hstop⟩ := CodeFrame.step_at_loop (kin.entered.trans entered)
                  hstops.2 (metered.step hs).uses (Nat.le_zero.mp (hstops.1 ▸ le))
                exact returns_of_trap rfl rfl hstop
              · refine onward (.single hs) rfl rfl kin le (progress.imp id fun hloop => ?_)
                have hpos : f.budget m.world ≠ 0 := fun hnone => hstops ⟨hnone, hloop.1⟩
                exact Nat.lt_of_le_of_lt hloop.2 (by omega)
          | @call func args g w kin pc le =>
              have hs := steps_call hstack hcontrol hstep
              have metered' := metered.step hs
              have hfuel := fuel_enter func args (some g.owner) ⟨w, .code g :: rest, .run, m.used⟩
              have hreturns := calls _ (by omega) w func (some g.owner)
                ⟨w, .code g :: rest, .run, m.used⟩ args (.refl w) metered' (hfuel ▸ le)
              refine .of_steps hs (hreturns.bind fun m₁ hr hstack₁ hcontrol₁ => ?_)
              rcases resumes_or_returns hstack₁ hcontrol₁ with hreturns | ⟨vals, hback⟩
              · exact hreturns
              · have hleft := (metered'.reaches hr).2.1
                rw [hfuel] at hleft
                have kin' := CodeFrame.kin_resumed vals g
                refine .of_steps hback (onward ((Relation.ReflTransGen.head hs hr).tail hback)
                  rfl rfl ⟨kin'.owner.trans kin.owner, kin'.code.trans kin.code,
                    kin'.entered.trans kin.entered⟩ ?_ (.inl ?_))
                · refine Nat.le_trans (Nat.sub_le _ _) (hleft.trans (le.trans ?_))
                  exact Nat.sub_le _ _
                · have hpushed : (g.pushAll vals).pc = g.pc :=
                    (congrArg CodeFrame.pc (g.outline_pushAll vals) :)
                  change f.pc < (g.pushAll vals).pc + 1
                  rw [hpushed, pc]
                  exact Nat.lt_succ_self _

/-- A function of the system interface is over at once. -/
theorem returns_of_enterWasi (g : Wasi.Func) (args : List StoreVal) (caller : Option InstanceAddr) :
    (m.enterWasi g args caller).Returns m.stack := by
  have houtcome := enterWasi_outcome m g args caller
  generalize m.enterWasi g args caller = m' at houtcome ⊢
  cases houtcome with
  | unattended | failed => exact .of_ended rfl (by simp [raise])
  | gave => exact .of_ended rfl (by simp [giveBack])

/-- A call of code returns if all calls with less fuel do. -/
theorem callsReturn_of_isCode {func : FuncAddr}
    (calls : ∀ k < n, ∀ w func caller, CallsReturn final k w func caller) (hcode : w.IsCode func)
    (caller : Option InstanceAddr) : CallsReturn final n w func caller := by
  intro m args hext metered hfuel
  obtain ⟨type, owner, code, hknown⟩ := hcode.extends hext
  unfold enter at metered hfuel ⊢
  rw [hknown] at metered hfuel ⊢
  dsimp only at metered hfuel ⊢
  split at metered <;> rename_i hstack
  · rw [if_pos hstack]
    exact .of_ended rfl (by simp [raise])
  · rw [if_neg hstack] at hfuel ⊢
    generalize hf : (⟨owner, code, 0, false, _, _, 1, 0⟩ : CodeFrame) = f at metered hfuel ⊢
    have hbegins : f.Begins (m.pushActivation (.code f)).world := by
      subst hf
      exact ⟨⟨func, type, hknown⟩, rfl, rfl, ⟨_, rfl⟩, rfl, rfl⟩
    rcases CodeFrame.step_enters hbegins metered.uses with ⟨c, g, w', htrap⟩ |
      ⟨w', hnext, hle, hpos⟩
    · exact returns_of_trap rfl rfl htrap
    · have hs : Steps (m.pushActivation (.code f)) _ := steps_next rfl rfl hnext
      refine .of_steps hs (returns_of_frame calls (metered.step hs) rfl rfl rfl ?_)
      have hburned : f.reckon.burned = 1 := by
        simp only [CodeFrame.reckon, hbegins.burned, hbegins.owed]
      change w'.store.fuel.remaining - (f.reckon.burned + 0) < n
      omega

end Frames

/-! ## Host functions -/

section HostFunctions

variable {h : HostFrame} {T : FuncAddr → Prop}

/-- What becomes of a host function that is not called back: it goes on with less to do, it ends,
or it calls an export of its caller. -/
inductive HostTurn (h : HostFrame) (rest : List Activation) (m m' : Machine) : Prop
  | onward {h' : HostFrame} (stack : m'.stack = .host h' :: rest) (control : m'.control = .run)
      (caller : h'.caller = h.caller)
      (less : HostOp.extentOfAll h'.todo < HostOp.extentOfAll h.todo) : HostTurn h rest m m'
  | ended (stack : m'.stack = rest) (control : m'.control ≠ .run) : HostTurn h rest m m'
  | called {h' : HostFrame} {m₀ : Machine} {name : String} {func : FuncAddr}
      {args : List StoreVal} (known : (h.export? m.world name).bind Item.func? = some func)
      (stack : m₀.stack = .host h' :: rest) (begun : m' = m₀.enter func args none)
      (grown : m.world.Extends m₀.world) (caller : h'.caller = h.caller)
      (less : HostOp.extentOfAll h'.todo < HostOp.extentOfAll h.todo) : HostTurn h rest m m'

theorem ended_failHost (hstack : m.stack = .host h :: rest) (t : Trap) (h' : HostFrame) :
    (m.failHost t h').stack = rest ∧ (m.failHost t h').control ≠ .run := by
  simp [failHost, raise, leaveHost, hstack]

theorem ended_finishHost (hstack : m.stack = .host h :: rest) :
    (m.finishHost h).stack = rest ∧ (m.finishHost h).control ≠ .run := by
  unfold finishHost
  dsimp only
  split
  · exact ended_failHost (by exact hstack) _ h
  · simp [giveBack, leaveHost, hstack]

/-- A host function that hears of a failure goes on or ends. -/
theorem afterFailure_cases (hstack : m.stack = .host h :: rest) (f : Failure) (catches : Bool)
    (h' : HostFrame) :
    ((m.afterFailure f catches h' rest).stack = .host h' :: rest ∧
      (m.afterFailure f catches h' rest).control = .run) ∨
    ((m.afterFailure f catches h' rest).stack = rest ∧
      (m.afterFailure f catches h' rest).control ≠ .run) := by
  unfold afterFailure
  split
  · exact .inl ⟨rfl, rfl⟩
  · exact .inr (ended_failHost hstack _ h')

theorem hostTurn_of_steps (hstack : m.stack = .host h :: rest) (hcontrol : m.control = .run)
    (hs : m.Steps m') : HostTurn h rest m m' := by
  obtain ⟨w, stack, control, used⟩ := m
  cases hstack
  cases hcontrol
  cases hs
  unfold hostStep
  cases htodo : h.todo with
  | nil =>
      obtain ⟨hended, hcontrol⟩ := ended_finishHost (m := ⟨w, .host h :: rest, .run, used⟩) rfl
      exact .ended hended hcontrol
  | cons op todo =>
      dsimp only
      have hless : HostOp.extentOfAll todo < HostOp.extentOfAll h.todo := by
        rw [htodo, HostOp.extentOfAll]
        have hpos := op.extent_pos
        omega
      have hfails (t : Trap) : HostTurn h rest ⟨w, .host h :: rest, .run, used⟩
          (failHost t { h with todo } ⟨w, .host h :: rest, .run, used⟩) := by
        obtain ⟨hended, hcontrol⟩ :=
          ended_failHost (m := ⟨w, .host h :: rest, .run, used⟩) rfl t { h with todo }
        exact .ended hended hcontrol
      have hputs (i : Nat) (v : HostVal) (v' : World) :
          HostTurn h rest ⟨w, .host h :: rest, .run, used⟩ (onHost
            (HostFrame.putResult i v { h with todo } v').1 rest
            (HostFrame.putResult i v { h with todo } v').2 ⟨w, .host h :: rest, .run, used⟩) := by
        obtain ⟨hcaller, htodo'⟩ := caller_putResult (h := { h with todo }) i v v'
        exact .onward rfl rfl hcaller (htodo' ▸ hless)
      have houtcome := hostOp_outcome ⟨w, .host h :: rest, .run, used⟩ { h with todo } rest op
      generalize hostOp op { h with todo } rest ⟨w, .host h :: rest, .run, used⟩ = m'
        at houtcome ⊢
      cases houtcome with
      | set | copy | added | peeked => exact hputs _ _ _
      | trapped | refused | unfueled => exact hfails _
      | @called name args result catches func known =>
          unfold hostCall
          split
          · rcases afterFailure_cases (m := ⟨w, .host h :: rest, .run, used⟩) rfl _ catches
              { h with todo } with ⟨hstack, hcontrol⟩ | ⟨hstack, hcontrol⟩
            · exact .onward hstack hcontrol rfl hless
            · exact .ended hstack hcontrol
          · refine @HostTurn.called _ _ _ _ { h with todo, pending := some _ } _ _ _ _ known rfl rfl
              ?_ rfl hless
            exact .of_objects (objects_taken _ _)
      | branched k zero nonzero =>
          refine .onward rfl rfl rfl ?_
          change HostOp.extentOfAll ((if _ then zero else nonzero) ++ todo) < _
          rw [htodo, HostOp.extentOfAll_append, HostOp.extentOfAll, HostOp.extent]
          split <;> omega
      | _ => exact .onward rfl rfl rfl hless

/-- A host function whose call has ended goes on with what it had left to do, or it ends. -/
theorem hears_of_steps (hstack : m.stack = .host h :: rest) (hcontrol : m.control ≠ .run)
    (hs : m.Steps m') :
    (∃ h', m'.stack = .host h' :: rest ∧ m'.control = .run ∧ h'.caller = h.caller ∧
      h'.todo = h.todo) ∨ (m'.stack = rest ∧ m'.control ≠ .run) := by
  cases step_sound hs with
  | hostBack =>
      cases hstack
      refine .inl ⟨_, rfl, rfl, ?_⟩
      split
      · exact caller_putResult _ _ _
      · exact ⟨rfl, rfl⟩
  | hostLeft =>
      cases hstack
      exact .inl ⟨h, rfl, rfl, rfl, rfl⟩
  | hostFault =>
      cases hstack
      unfold hostFault
      split
      · rename_i p hp
        refine (afterFailure_cases (h := h) (by rfl) _ p.catches _).imp (fun hgo => ?_) id
        exact ⟨_, hgo.1, hgo.2, rfl, rfl⟩
      · exact .inr ⟨by simp [leaveHost], by simp [leaveHost]⟩
  | hostRun => exact absurd rfl hcontrol
  | _ => cases hstack

theorem exists_step (hstack : m.stack ≠ []) : ∃ m', m.Steps m' := by
  cases hstep : m.step with
  | inl m' => exact ⟨m', hstep⟩
  | inr r => exact absurd (stack_of_end hstep) hstack

/-- A host function returns if calls of all that its caller exports do. -/
theorem returns_of_host {w : World} (calls : ∀ a, T a → CallsReturn final n w a none)
    (targets : ∀ w', w.Extends w' → w'.Typed → ∀ name a,
      (h.export? w' name).bind Item.func? = some a → T a)
    (hext : w.Extends m.world) (metered : m.Metered final)
    (hfuel : m.world.store.fuel.remaining ≤ n) (hstack : m.stack = .host h :: rest)
    (hcontrol : m.control = .run) : m.Returns rest := by
  generalize hk : HostOp.extentOfAll h.todo = k
  induction k using Nat.strong_induction_on generalizing m h with
  | _ k ih =>
      subst hk
      obtain ⟨m', hs⟩ := exists_step (by simp [hstack] : m.stack ≠ [])
      obtain ⟨metered', hle, hgrown⟩ := metered.reaches (.single hs)
      refine .of_steps hs ?_
      have onward {m' : Machine} {h' : HostFrame} (hr : m.Reaches m')
          (stack : m'.stack = .host h' :: rest) (control : m'.control = .run)
          (caller : h'.caller = h.caller)
          (less : HostOp.extentOfAll h'.todo < HostOp.extentOfAll h.todo) : m'.Returns rest := by
        obtain ⟨metered', hle, hgrown⟩ := metered.reaches hr
        refine ih _ less (h := h') (fun w' hw' ht name a ha => ?_) (hext.trans hgrown) metered'
          (hle.trans hfuel) stack control rfl
        refine targets w' hw' ht name a ?_
        rwa [HostFrame.export?, ← caller]
      cases hostTurn_of_steps hstack hcontrol hs with
      | onward stack control caller less => exact onward (.single hs) stack control caller less
      | ended stack control => exact .of_ended stack control
      | @called h' m₀ name func args known stack begun grown caller less =>
          subst begun
          have hreturns := calls func (targets _ hext metered.typed.world name func known) m₀ args
            (hext.trans grown) metered' (hle.trans hfuel)
          refine hreturns.bind fun m₁ hr hstack₁ hcontrol₁ => ?_
          rw [stack] at hstack₁
          obtain ⟨m₂, hs₂⟩ := exists_step (by simp [hstack₁] : m₁.stack ≠ [])
          have hreaches := (Relation.ReflTransGen.head hs hr).tail hs₂
          refine .of_steps hs₂ ?_
          rcases hears_of_steps hstack₁ hcontrol₁ hs₂ with
            ⟨h'', stack₂, control₂, caller₂, htodo⟩ | ⟨stack₂, control₂⟩
          · exact onward hreaches stack₂ control₂ (caller₂.trans caller) (htodo ▸ less)
          · exact .of_ended stack₂ control₂

end HostFunctions

/-! ## Commands -/

/-- The functions of an instance. -/
def Owns (w : World) (owner : InstanceAddr) (a : FuncAddr) : Prop :=
  ∃ i, w.store.instances[owner]? = some i ∧ a ∈ i.funcs

section Instances

variable {w w' : World} {owner : InstanceAddr} {i : Instance} {a : FuncAddr}

/-- An instance never gets other functions. -/
theorem owns_of_later (hi : w.store.instances[owner]? = some i) (hext : w.Extends w')
    (h : Owns w' owner a) : Owns w owner a := by
  obtain ⟨i', hi', hbecomes⟩ := hext.instances _ i hi
  obtain ⟨i'', hi'', ha⟩ := h
  cases hi'.symm.trans hi''
  rw [hbecomes] at ha
  exact ⟨i, hi, ha⟩

theorem owns_of_export (hi : w.store.instances[owner]? = some i) (hext : w.Extends w')
    (hw : w'.Typed) {name : String} (ha : (w'.getExport owner name).bind Item.func? = some a) :
    Owns w owner a := by
  obtain ⟨i', hi', -⟩ := hext.instances _ i hi
  have linked := hw.instances i' (Array.mem_of_getElem? hi')
  exact owns_of_later hi hext ⟨i', hi', linked.mem_funcs_of_export hi' ha⟩

theorem owns_of_start (hi : w.store.instances[owner]? = some i) (hext : w.Extends w')
    (ha : w'.startFunc? owner = some a) : Owns w owner a := by
  obtain ⟨i', hi', -⟩ := hext.instances _ i hi
  exact owns_of_later hi hext ⟨i', hi', mem_funcs_of_start hi' ha⟩

variable {c : CommandFrame}

/-- Behind the call of its export a command hands the results on. -/
theorem returns_of_calling (stage : c.stage = .calling) (hstack : m.stack = .command c :: rest)
    (hcontrol : m.control ≠ .run) : m.Returns rest := by
  obtain ⟨w, stack, control, used⟩ := m
  cases hstack
  cases control with
  | run => exact absurd rfl hcontrol
  | fault f => exact .of_steps rfl (.of_ended (by simp) (by simp))
  | back vals =>
      refine .of_steps rfl (.of_ended ?_ ?_) <;> simp [commandResume, stage, giveBack]

/-- Behind its start function a command calls its export. -/
theorem returns_of_starting (hi : w.store.instances[c.owner]? = some i)
    (calls : ∀ a, Owns w c.owner a → CallsReturn final n w a none) (stage : c.stage = .starting)
    (hext : w.Extends m.world) (metered : m.Metered final)
    (hfuel : m.world.store.fuel.remaining ≤ n) (hstack : m.stack = .command c :: rest)
    (hcontrol : m.control ≠ .run) : m.Returns rest := by
  obtain ⟨v, stack, control, used⟩ := m
  cases hstack
  cases control with
  | run => exact absurd rfl hcontrol
  | fault f => exact .of_steps rfl (.of_ended (by simp) (by simp))
  | back vals =>
      have hs : Steps ⟨v, .command c :: rest, .back vals, used⟩
          (commandResume vals c rest ⟨v, .command c :: rest, .back vals, used⟩) := rfl
      obtain ⟨metered', hle, -⟩ := metered.reaches (.single hs)
      refine .of_steps hs ?_
      unfold commandResume at metered' hle ⊢
      rw [if_neg (by simp [stage])] at metered' hle ⊢
      dsimp only at metered' hle ⊢
      split at metered' <;> rename_i hentry <;> simp only [hentry] at hle ⊢
      · rename_i func
        have howns := owns_of_export hi hext metered.typed.world hentry
        have hexposed := hext.then_objects (objects_exposeAll c.held v)
        have hreturns := calls func howns _ _ hexposed metered' (hle.trans hfuel)
        exact hreturns.bind fun m' _ hstack hcontrol => returns_of_calling rfl hstack hcontrol
      · exact returns_of_calling rfl rfl (by simp [giveBack])

/-- A command returns if calls of all functions of its instance do. -/
theorem returns_of_command (hi : w.store.instances[c.owner]? = some i)
    (starts : ∀ a, Owns w c.owner a → CallsReturn final n w a (some c.owner))
    (calls : ∀ a, Owns w c.owner a → CallsReturn final n w a none)
    (hext : w.Extends m.world) (metered : m.Metered final)
    (hfuel : m.world.store.fuel.remaining ≤ n) (hstack : m.stack = .command c :: rest)
    (hcontrol : m.control = .run) : m.Returns rest := by
  obtain ⟨v, stack, control, used⟩ := m
  cases hstack
  cases hcontrol
  have hs : Steps ⟨v, .command c :: rest, .run, used⟩
      (commandStep c rest ⟨v, .command c :: rest, .run, used⟩) := rfl
  obtain ⟨metered', hle, hgrown⟩ := metered.reaches (.single hs)
  refine .of_steps hs ?_
  unfold commandStep at metered' hle hgrown ⊢
  dsimp only at metered' hle hgrown ⊢
  split at metered' <;> rename_i hstart <;> simp only [hstart] at hle hgrown ⊢
  · rename_i func
    have hreturns := starts func (owns_of_start hi hext hstart)
      ⟨v, .command { c with stage := .starting } :: rest, .run, used⟩ [] hext metered'
      (hle.trans hfuel)
    refine hreturns.bind fun m' hr hstack hcontrol => ?_
    obtain ⟨metered₁, hle₁, hgrown₁⟩ := metered'.reaches hr
    exact returns_of_starting (c := { c with stage := .starting }) hi calls rfl
      ((hext.trans hgrown).trans hgrown₁) metered₁ (hle₁.trans (hle.trans hfuel)) hstack hcontrol
  · exact returns_of_starting (c := { c with stage := .starting }) hi calls rfl
      (hext.trans hgrown) metered' (hle.trans hfuel) rfl (by simp [giveBack])

end Instances

/-! ## Calls of anything -/

variable {w : World} {func : FuncAddr} {caller : Option InstanceAddr}

theorem CallsReturn.extends {w' : World} (h : CallsReturn final n w func caller)
    (hext : w.Extends w') : CallsReturn final n w' func caller :=
  fun m args hw => h m args (hext.trans hw)

/-- Who makes a call matters to host functions, which can call what their caller exports, and to
functions of the system interface, which are done at once. -/
theorem callsReturn_of_none {T : FuncAddr → Prop} (h : CallsReturn final n w func none)
    (exports : ∀ a, T a → CallsReturn final n w a none)
    (targets : ∀ w', w.Extends w' → w'.Typed → ∀ name a,
      (caller.bind (w'.getExport · name)).bind Item.func? = some a → T a) :
    CallsReturn final n w func caller := by
  intro m args hext metered hfuel
  have hsame := h m args hext
  cases hknown : m.world.store.funcs[func]? with
  | none =>
      simp only [enter, hknown] at metered hfuel hsame ⊢
      exact hsame metered hfuel
  | some f =>
      obtain ⟨type, body⟩ := f
      cases body with
      | code | command | idle =>
          simp only [enter, hknown] at metered hfuel hsame ⊢
          exact hsame metered hfuel
      | wasi g =>
          simp only [enter, hknown]
          exact returns_of_enterWasi g args caller
      | host ops =>
          simp only [enter, hknown] at metered hfuel ⊢
          refine returns_of_host (w := w) exports ?_ (hext.trans ?_) metered hfuel rfl rfl
          · exact targets
          · exact .of_objects ((objects_revealAll args _).trans (objects_holdAll args _))

/-- A call that no instance makes returns if calls with less fuel do: by the age of the function. -/
theorem callsReturn_unattended
    (less : ∀ k < n, ∀ w func caller, CallsReturn final k w func caller) (w : World)
    (func : FuncAddr) : CallsReturn final n w func none := by
  induction func using Nat.strong_induction_on generalizing w with
  | _ func ih =>
      intro m args hext metered hfuel
      have hgrown := (alters_enter m .refl func args none).extends_
      cases hknown : m.world.store.funcs[func]? with
      | none =>
          simp only [enter, hknown]
          exact .of_ended rfl (by simp [giveBack])
      | some f =>
          obtain ⟨type, body⟩ := f
          cases body with
          | code owner code =>
              have hcode : m.world.IsCode func := ⟨type, owner, code, hknown⟩
              exact callsReturn_of_isCode less hcode none m args (.refl _) metered hfuel
          | idle =>
              simp only [enter, hknown]
              exact .of_ended rfl (by simp [giveBack])
          | wasi g =>
              simp only [enter, hknown]
              exact returns_of_enterWasi g args none
          | host ops =>
              simp only [enter, hknown] at metered hfuel ⊢
              refine returns_of_host (T := fun _ => False) (fun _ hT => hT.elim) ?_ (.refl _)
                metered hfuel rfl rfl
              exact fun _ _ _ _ _ ha => by cases ha
          | command module items entry =>
              obtain ⟨f, hf, rfl⟩ := hgrown.funcs func _ hknown
              have hordered := metered.ordered func type module items entry hf
              simp only [enter, hknown] at metered hfuel ⊢
              split at metered <;> rename_i hmade <;> simp only [hmade] at hfuel ⊢
              · rename_i owner w'
                obtain ⟨i, hi, hall⟩ := isCode_or_imported hmade
                -- what the new instance has is code or older than the command
                have hnone (a : FuncAddr) (ha : Owns w' owner a) :
                    CallsReturn final n w' a none := by
                  obtain ⟨i', hi', ha⟩ := ha
                  cases hi.symm.trans hi'
                  rcases hall a ha with hitem | hcode
                  · exact ih a (hordered a hitem) w'
                  · exact callsReturn_of_isCode less hcode none
                have hstarts (a : FuncAddr) (ha : Owns w' owner a) :
                    CallsReturn final n w' a (some owner) :=
                  callsReturn_of_none (hnone a ha) hnone
                    fun w'' hw ht name b hb => owns_of_export hi hw ht hb
                exact returns_of_command (c := { owner, entry, held := args }) hi hstarts hnone
                  (.refl _) metered hfuel rfl rfl
              · exact .of_ended rfl (by simp [raise])

/-- Every call in a metered machine returns, by the fuel that is left. -/
theorem callsReturn (n : Nat) (w : World) (func : FuncAddr) (caller : Option InstanceAddr) :
    CallsReturn final n w func caller := by
  induction n using Nat.strong_induction_on generalizing w func caller with
  | _ n ih =>
      exact callsReturn_of_none (callsReturn_unattended ih w func)
        (fun a (_ : True) => callsReturn_unattended ih w a) fun _ _ _ _ _ _ => trivial

/-- A metered machine ends that begins with a call, and leaves no more fuel than there was. -/
theorem Metered.ends {args : List StoreVal}
    (h : ((idle w).enter func args caller).Metered final) :
    ∃ r w', ((idle w).enter func args caller).Ends (r, w') ∧
      w'.store.fuel.remaining ≤ w.store.fuel.remaining := by
  obtain ⟨m, hr, hstack, hcontrol⟩ := callsReturn _ w func caller (idle w) args (.refl _) h
    (Nat.le_refl _)
  have hle := (h.reaches hr).2.1
  rw [fuel_enter] at hle
  obtain ⟨w', stack, control, used⟩ := m
  cases hstack
  cases control with
  | run => exact absurd rfl hcontrol
  | back vals => exact ⟨.ok vals, w', Ends.of_reaches hr ⟨1, rfl⟩, hle⟩
  | fault f => exact ⟨.error f, w', Ends.of_reaches hr ⟨1, rfl⟩, hle⟩

end Machine

end WasmHost

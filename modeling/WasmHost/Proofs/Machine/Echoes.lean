import WasmHost.Proofs.Machine.HostCalls
import WasmHost.Proofs.Machine.Reads

/-!
# Functions that give back their arguments

Code can read its arguments and leave, or hand them on to another function and leave with what that
gives back; a host function can copy its arguments, or hand each of them on. Towers of such
functions, of any height, give back what they were called with, unless the store stops them.
-/

namespace WasmHost

namespace HostOp

/-- The operations that copy the first arguments to the results. -/
def copyArgs (n : Nat) : List HostOp := (List.range n).map fun i => .copy i i

/-- The operations that hand each of the first arguments to an export of the caller, and take what
comes back as a result. -/
def relayArgs (names : Nat → String) (n : Nat) : List HostOp :=
  (List.range n).map fun i => .call (names i) [.arg i] (some i) false

end HostOp

/-- A call that comes back with the very values that it was made with, or is stopped. -/
def Machine.ComesBack (func : FuncAddr) (caller : Option InstanceAddr) (room : Nat) (m : Machine)
    (args : List StoreVal) : Prop :=
  (∃ w', (m.enter func args caller).Reaches ⟨w', m.stack, .back args, m.used⟩) ∨
    ∃ m', (m.enter func args caller).Reaches m' ∧ m'.Stopped m.world m.stack room

/-- A call of a host function that comes to its end with the values that it saw as its results, or
is stopped. -/
def Machine.EndsWithArgs (func : FuncAddr) (caller : Option InstanceAddr) (ts : List ValType)
    (room : Nat) (m : Machine) (args : List StoreVal) : Prop :=
  (∃ w' h, (m.enter func args caller).Reaches
      ⟨w', .host h :: m.stack, .run, m.used + Activation.hostSize⟩ ∧
    h.type = ⟨ts, ts⟩ ∧ h.todo = [] ∧ h.results = args.map m.world.view) ∨
  ∃ m', (m.enter func args caller).Reaches m' ∧ m'.Stopped m.world m.stack room

/-- A function that gives back its arguments, of the given kinds, when the given instance calls it.
It takes at most so many bytes of stack. It may come back with the very values that it was called
with, it may be a host function that ends with the values that it saw, or it hands them on to other
such functions. -/
inductive World.Echoes (w : World) :
    Option InstanceAddr → List ValType → Nat → FuncAddr → Prop
  | same {caller : Option InstanceAddr} {ts : List ValType} {need : Nat} {func : FuncAddr}
      {body : FuncBody} (known : w.store.funcs[func]? = some ⟨⟨ts, ts⟩, body⟩)
      (comesBack : ∀ (m : Machine) (args : List StoreVal), w.Extends m.world →
        args.map Val.type = ts → m.ComesBack func caller (m.used + need) args) :
      Echoes w caller ts need func
  | results {caller : Option InstanceAddr} {ts : List ValType} {need : Nat} {func : FuncAddr}
      {ops : List HostOp} (known : w.store.funcs[func]? = some ⟨⟨ts, ts⟩, .host ops⟩)
      (ends : ∀ (m : Machine) (args : List StoreVal), w.Extends m.world →
        args.map Val.type = ts → m.EndsWithArgs func caller ts (m.used + need) args) :
      Echoes w caller ts need func
  | codeCall {caller : Option InstanceAddr} {ts : List ValType} {func callee : FuncAddr}
      {owner : InstanceAddr} {code : FuncCode} {i : Instance} {k need : Nat}
      (known : w.store.funcs[func]? = some ⟨⟨ts, ts⟩, .code owner code⟩)
      (ops : code.ops.toList = Wasm.readLocals ts.length ++ [.call k, .done])
      (instance_ : w.store.instances[owner]? = some i) (target : i.funcs[k]? = some callee)
      (inner : Echoes w (some owner) ts need callee) :
      Echoes w caller ts (Activation.codeSize + need) func
  | hostCalls {caller : InstanceAddr} {ts : List ValType} {func : FuncAddr} {need : Nat}
      {names : Nat → String} {callees : Nat → FuncAddr}
      (known : w.store.funcs[func]? = some ⟨⟨ts, ts⟩, .host (HostOp.relayArgs names ts.length)⟩)
      (exports : ∀ i < ts.length, w.getExport caller (names i) = some (.func (callees i)))
      (inner : ∀ (i : Nat) (t : ValType), ts[i]? = some t → Echoes w none [t] need (callees i)) :
      Echoes w (some caller) ts (Activation.hostSize + need) func

variable {w w' : World} {caller : Option InstanceAddr} {ts : List ValType} {need : Nat}
  {func : FuncAddr}

namespace World.Echoes

theorem known (h : w.Echoes caller ts need func) :
    ∃ body, w.store.funcs[func]? = some ⟨⟨ts, ts⟩, body⟩ := by
  cases h with
  | same known => exact ⟨_, known⟩
  | results known => exact ⟨_, known⟩
  | codeCall known => exact ⟨_, known⟩
  | hostCalls known => exact ⟨_, known⟩

end World.Echoes

/-- The exports of an instance never change. -/
theorem World.Extends.exportsOf_eq (h : w.Extends w') {addr : InstanceAddr} {i : Instance}
    (hi : w.store.instances[addr]? = some i) : w'.exportsOf addr = w.exportsOf addr := by
  obtain ⟨i', hi', hbecomes⟩ := h.instances addr i hi
  have hexports : i'.exports = i.exports := by rw [hbecomes]
  simp only [exportsOf, hi, hi', Option.map_some, hexports]

/-- What an instance exports under a name it exports for good. -/
theorem World.Extends.getExport (h : w.Extends w') {addr : InstanceAddr} {name : String}
    {item : Item} (known : w.getExport addr name = some item) :
    w'.getExport addr name = some item := by
  unfold World.getExport exportsOf at known ⊢
  cases hi : w.store.instances[addr]? with
  | none => simp [hi] at known
  | some i =>
      obtain ⟨i', hi', hbecomes⟩ := h.instances addr i hi
      have hexports : i'.exports = i.exports := by rw [hbecomes]
      rw [hi] at known
      rw [hi', Option.map_some, hexports]
      exact known

namespace Machine

open World

/-! ## Host functions -/

/-- A host function has copied so many of its arguments to its results, and does the rest of some
operations next. -/
structure Copying (w : World) (ft : FuncType) (by_ : Option InstanceAddr) (passed : List HostVal)
    (ops : List HostOp) (n : Nat) (h : HostFrame) (w' : World) : Prop where
  type : h.type = ft
  caller : h.caller = by_
  args : h.args = passed
  results : h.results = passed.take n ++ (ft.results.map Val.default).drop n
  todo : h.todo = ops.drop n
  retains : w.Retains w'

variable {ft : FuncType} {passed : List HostVal} {ops : List HostOp} {n : Nat} {h : HostFrame}
  {rest : List Activation} {used : Nat}

theorem copying_fresh (ft : FuncType) (ops : List HostOp) (held : List StoreVal) (w : World) :
    Copying w ft caller (held.map w.view) ops 0 (freshHost w ft ops caller held)
      ((w.holdAll held).revealAll held).2 :=
  ⟨rfl, rfl, rfl, rfl, rfl, retains_enter_host held w⟩

theorem set_take_append_drop {α : Type} {xs ys : List α} {x : α} (hlength : xs.length = ys.length)
    (hx : xs[n]? = some x) :
    (xs.take n ++ ys.drop n).set n x = xs.take (n + 1) ++ ys.drop (n + 1) := by
  obtain ⟨hn, rfl⟩ := List.getElem?_eq_some_iff.mp hx
  have hcons : ys.drop n = ys[n] :: ys.drop (n + 1) := List.drop_eq_getElem_cons (hlength ▸ hn)
  have htaken : (xs.take n).length = n := by simp [Nat.le_of_lt hn]
  rw [hcons, List.set_append_right _ _ (Nat.le_of_eq htaken), htaken, Nat.sub_self,
    List.set_cons_zero, List.take_succ_eq_append_getElem hn, List.append_assoc]
  rfl

theorem Copying.setResult {v : HostVal} {op : HostOp} {todo : List HostOp}
    (hcopying : Copying w ft caller passed ops n h w') (hlength : passed.length = ft.results.length)
    (hv : passed[n]? = some v) (hop : ops.drop n = op :: todo) (pending : Option PendingCall)
    {w'' : World} (hw : w'.Retains w'') :
    Copying w ft caller passed ops (n + 1)
      (({ h with todo, pending } : HostFrame).setResult n v w'').1
      (({ h with todo, pending } : HostFrame).setResult n v w'').2 := by
  obtain ⟨rfl, rfl, rfl, hresults, -, hretains⟩ := hcopying
  have hn : n < h.args.length := (List.getElem?_eq_some_iff.mp hv).1
  have hold : ∃ old, h.results[n]? = some old := by
    refine ⟨_, List.getElem?_eq_getElem ?_⟩
    simp [hresults]
    omega
  obtain ⟨old, hold⟩ := hold
  have hframe : (({ h with todo, pending } : HostFrame).setResult n v w'').1 =
      { h with todo, pending, results := h.results.set n v } := by
    unfold HostFrame.setResult HostFrame.putResult
    simp only [hold]
  have htodo : todo = ops.drop (n + 1) := by rw [← List.tail_drop, hop, List.tail_cons]
  have hset := Alters.retains (HostFrame.changes_setResult { h with todo, pending } n v w'')
  rw [hframe]
  refine ⟨rfl, rfl, rfl, ?_, htodo, (hretains.trans hw).trans hset⟩
  rw [← set_take_append_drop (by simpa using hlength) hv, ← hresults]

/-- A host function whose operations copy one argument after the other comes to its end with its
arguments as results, unless one of the operations is stopped. -/
theorem reaches_copied {room : Nat}
    (hstep : ∀ n < passed.length, ∀ h w', Copying w ft caller passed ops n h w' →
      (∃ h' w'', Reaches ⟨w', .host h :: rest, .run, used⟩ ⟨w'', .host h' :: rest, .run, used⟩ ∧
        Copying w ft caller passed ops (n + 1) h' w'') ∨
      ∃ m, Reaches ⟨w', .host h :: rest, .run, used⟩ m ∧ Stopped w rest room m)
    (hn : n ≤ passed.length) (hcopying : Copying w ft caller passed ops n h w') :
    (∃ h' w'', Reaches ⟨w', .host h :: rest, .run, used⟩ ⟨w'', .host h' :: rest, .run, used⟩ ∧
      Copying w ft caller passed ops passed.length h' w'') ∨
    ∃ m, Reaches ⟨w', .host h :: rest, .run, used⟩ m ∧ Stopped w rest room m := by
  -- by induction on how many arguments are left
  obtain ⟨d, hd⟩ := Nat.exists_eq_add_of_le hn
  induction d generalizing n h w' with
  | zero =>
      obtain rfl : n = passed.length := hd.symm
      exact .inl ⟨h, w', .refl, hcopying⟩
  | succ d ih =>
      rcases hstep n (by omega) h w' hcopying with ⟨h', w'', hreach, hnext⟩ | hstopped
      · rcases ih (by omega) hnext (by omega) with ⟨h₃, w₃, hrest, hdone⟩ | ⟨m, hrest, hstopped⟩
        · exact .inl ⟨h₃, w₃, hreach.trans hrest, hdone⟩
        · exact .inr ⟨m, hreach.trans hrest, hstopped⟩
      · exact .inr hstopped

theorem drop_map_range {α : Type} {f : Nat → α} {k : Nat} (hn : n < k) :
    ((List.range k).map f).drop n = f n :: ((List.range k).map f).drop (n + 1) := by
  rw [List.drop_eq_getElem_cons (by simpa using hn)]
  simp

theorem Copying.copy (hcopying : Copying w ft caller passed (HostOp.copyArgs passed.length) n h w')
    (hlength : passed.length = ft.results.length) (hn : n < passed.length) :
    ∃ h' w'', Reaches ⟨w', .host h :: rest, .run, used⟩ ⟨w'', .host h' :: rest, .run, used⟩ ∧
      Copying w ft caller passed (HostOp.copyArgs passed.length) (n + 1) h' w'' := by
  have hop := drop_map_range (f := fun i => HostOp.copy i i) hn
  have hv : passed[n]? = some passed[n] := List.getElem?_eq_getElem hn
  have hnext := hcopying.setResult hlength hv hop h.pending (.refl w')
  have harg : passed.getD n default = passed[n] := by rw [List.getD_eq_getElem?_getD, hv]; rfl
  refine ⟨_, _, .single ?_, hnext⟩
  simp only [Steps, step, hostStep, hcopying.todo, HostOp.copyArgs, hop, hostOp, onHost,
    HostFrame.arg, hcopying.args, harg]

/-- The host function with a call under way that hands on one argument. -/
def handing (n : Nat) (vals : List StoreVal) (ops : List HostOp) (h : HostFrame) : HostFrame :=
  { h with todo := ops.drop (n + 1), pending := some ⟨vals, some n, false⟩ }

theorem Copying.hands {names : Nat → String} {t : ValType} {v : HostVal} {callee : FuncAddr}
    {owner : InstanceAddr} {body : FuncBody}
    (hcopying : Copying w ft (some owner) passed (HostOp.relayArgs names passed.length) n h w')
    (hv : passed[n]? = some v) (hvt : v.type = t)
    (hexport : w.getExport owner (names n) = some (.func callee))
    (known : w.store.funcs[callee]? = some ⟨⟨[t], [t]⟩, body⟩) (rest : List Activation)
    (used : Nat) :
    Steps ⟨w', .host h :: rest, .run, used⟩
      (enter callee (w'.acceptAll [v]).1 none
        ⟨(w'.acceptAll [v]).2.exposeAll (w'.acceptAll [v]).1,
          .host (handing n (w'.acceptAll [v]).1 (HostOp.relayArgs names passed.length) h) :: rest,
          .run, used⟩) := by
  obtain ⟨hn, -⟩ := List.getElem?_eq_some_iff.mp hv
  have hop := drop_map_range (f := fun i => HostOp.call (names i) [.arg i] (some i) false) hn
  have hexport := hcopying.retains.extends_.getExport hexport
  have known := hcopying.retains.extends_.funcs_known known
  have hfits : checkArgs (w'.funcType callee) [v] = .ok () := by
    rw [checkArgs_eq_ok_iff, funcType, known, Option.map_some, Option.getD_some, List.map_cons, hvt]
    rfl
  have harg : passed.getD n default = v := by rw [List.getD_eq_getElem?_getD, hv]; rfl
  simp only [Steps, step, hostStep, hcopying.todo, HostOp.relayArgs, hop, hostOp,
    HostFrame.export?, hcopying.caller, Option.bind_some, hexport, Item.func?, List.map_cons,
    List.map_nil, HostFrame.arg, hcopying.args, harg, hostCall, hfits, handing]

theorem resumes (hcopying : Copying w ft caller passed ops n h w') {v : HostVal} {op : HostOp}
    (hlength : passed.length = ft.results.length) (hv : passed[n]? = some v)
    (hop : ops.drop n = op :: ops.drop (n + 1)) {held vals : List StoreVal} {w'' : World}
    (hvals : vals.map w''.view = [v]) (hw : w'.Retains w'') :
    ∃ h' w₃, Steps ⟨w'', .host (handing n held ops h) :: rest, .back vals, used⟩
        ⟨w₃, .host h' :: rest, .run, used⟩ ∧
      Copying w ft caller passed ops (n + 1) h' w₃ := by
  have hrevealed : w''.revealAll vals = ([v], (w''.revealAll vals).2) := by
    rw [← hvals, ← revealAll_fst]
  have hstore : ((w''.revealAll vals).2.log (.values [v])).store = w''.store :=
    store_revealAll vals w''
  generalize hlogged : (w''.revealAll vals).2.log (.values [v]) = w₂ at hstore
  have hw₂ : w''.Retains w₂ :=
    .of_objects (congrArg Store.objects hstore) (.of_boxes (by rw [hstore]))
  have hnext := hcopying.setResult hlength hv hop none (hw.trans hw₂)
  generalize hr :
    HostFrame.setResult n v { h with todo := ops.drop (n + 1), pending := none } w₂ = r at hnext
  obtain ⟨h', w₃⟩ := r
  have hlast : w₃.Retains ((w₃.discardAll [v]).unholdAll held) :=
    Alters.retains ((changes_discardAll [v] w₃).trans (changes_unholdAll held _))
  refine ⟨h', (w₃.discardAll [v]).unholdAll held, ?_, ?_⟩
  · simp only [Steps, step, handing, hostResume, onHost]
    rw [hrevealed]
    simp only [hlogged, hr]
  · exact { hnext with retains := hnext.retains.trans hlast }

/-- One argument is handed on, and what comes back is the result. -/
theorem Copying.relay {names : Nat → String} {t : ValType} {v : HostVal} {callee : FuncAddr}
    {owner : InstanceAddr} {body : FuncBody}
    (hcopying : Copying w ft (some owner) passed (HostOp.relayArgs names passed.length) n h w')
    (hlength : passed.length = ft.results.length) (hv : passed[n]? = some v) (hvt : v.type = t)
    (hexport : w.getExport owner (names n) = some (.func callee))
    (known : w.store.funcs[callee]? = some ⟨⟨[t], [t]⟩, body⟩)
    (answered : ∀ (m : Machine) (args : List StoreVal), w.Extends m.world →
      args.map Val.type = [t] → (∀ v ∈ args, m.world.Boxed v) →
      ∃ m', (m.enter callee args none).Reaches m' ∧
        Answered m.world m.stack m.used (m.used + need) args m') (rest : List Activation)
    (used : Nat) :
    (∃ h' w'', Reaches ⟨w', .host h :: rest, .run, used⟩ ⟨w'', .host h' :: rest, .run, used⟩ ∧
        Copying w ft (some owner) passed (HostOp.relayArgs names passed.length) (n + 1) h' w'') ∨
      ∃ m, Reaches ⟨w', .host h :: rest, .run, used⟩ m ∧ Stopped w rest (used + need) m := by
  obtain ⟨hn, -⟩ := List.getElem?_eq_some_iff.mp hv
  have hbegin := hcopying.hands hv hvt hexport known rest used
  have htaken : w'.Retains ((w'.acceptAll [v]).2.exposeAll (w'.acceptAll [v]).1) :=
    Alters.retains (changes_taken [v] w')
  have hview : (w'.acceptAll [v]).1.map
      ((w'.acceptAll [v]).2.exposeAll (w'.acceptAll [v]).1).view = [v] := by
    rw [view_exposeAll]
    exact view_acceptAll [v] w'
  obtain ⟨m, hreach, hgave | hstopped⟩ := answered
    ⟨(w'.acceptAll [v]).2.exposeAll (w'.acceptAll [v]).1,
      .host (handing n (w'.acceptAll [v]).1 (HostOp.relayArgs names passed.length) h) :: rest,
      .run, used⟩ (w'.acceptAll [v]).1 (hcopying.retains.trans htaken).extends_
    (by rw [types_acceptAll]; simp [hvt])
    (fun u hu => (keeps_exposeAll _ _).boxed (boxed_acceptAll [v] w' u hu))
  · -- what came back looks as it did when it was handed on
    obtain ⟨hvals, -, hw⟩ := hgave
    obtain ⟨h', w₃, hstep, hnext⟩ := resumes hcopying hlength hv
      (drop_map_range (f := fun i => HostOp.call (names i) [.arg i] (some i) false) hn)
      (hvals.trans hview) (htaken.trans hw)
    exact .inl ⟨h', w₃, .head hbegin (hreach.tail hstep), hnext⟩
  · refine .inr ⟨_, .head hbegin hreach, ?_⟩
    have hengine := (hcopying.retains.trans htaken).extends_.engine
    exact (hstopped.mono (Nat.le_refl _) hengine.symm).below rfl

/-- A host function whose operations copy one argument after the other ends with its arguments. -/
theorem endsWithArgs_of_copying {m : Machine} {args : List StoreVal} {room : Nat}
    (known : m.world.store.funcs[func]? = some ⟨⟨ts, ts⟩, .host ops⟩)
    (htypes : args.map Val.type = ts) (hops : ops.length = args.length)
    (hstep : ∀ n < args.length, ∀ h w',
      Copying m.world ⟨ts, ts⟩ caller (args.map m.world.view) ops n h w' →
      (∃ h' w'', Reaches ⟨w', .host h :: m.stack, .run, m.used + Activation.hostSize⟩
          ⟨w'', .host h' :: m.stack, .run, m.used + Activation.hostSize⟩ ∧
        Copying m.world ⟨ts, ts⟩ caller (args.map m.world.view) ops (n + 1) h' w'') ∨
      ∃ m', Reaches ⟨w', .host h :: m.stack, .run, m.used + Activation.hostSize⟩ m' ∧
        Stopped m.world m.stack room m') : m.EndsWithArgs func caller ts room args := by
  have hlength : args.length = ts.length := by rw [← htypes, List.length_map]
  unfold EndsWithArgs
  rw [enter_host known]
  rcases reaches_copied (by simpa using hstep) (Nat.zero_le _)
    (copying_fresh ⟨ts, ts⟩ ops args m.world) with
    ⟨h', w', hreach, hdone⟩ | ⟨m', hreach, hstopped⟩
  · refine .inl ⟨w', h', hreach, hdone.type, ?_, ?_⟩
    · rw [hdone.todo, List.length_map, List.drop_eq_nil_of_le (Nat.le_of_eq hops)]
    · rw [hdone.results, List.take_length, List.drop_eq_nil_of_le (by simp [hlength]),
        List.append_nil]
  · exact .inr ⟨m', hreach, hstopped⟩

/-- A host function that ends with its arguments gives them to its caller. -/
theorem EndsWithArgs.answered {m : Machine} {args : List StoreVal} {room : Nat}
    (h : m.EndsWithArgs func caller ts room args) (htypes : args.map Val.type = ts) :
    ∃ m', (m.enter func args caller).Reaches m' ∧ Answered m.world m.stack m.used room args m' := by
  rcases h with ⟨w', h, hreach, htype, htodo, hresults⟩ | ⟨m', hreach, hstopped⟩
  · have hfits : h.results.map Val.type = h.type.results := by
      rw [hresults, htype, List.map_map, ← htypes]
      exact List.map_congr_left fun v _ => type_view v m.world
    obtain ⟨vals, w'', hfinish, hvals, hboxed, -⟩ := finishHost_of_fits
      (m := ⟨w', .host h :: m.stack, .run, m.used + Activation.hostSize⟩) rfl hfits
    have hsteps : Steps ⟨w', .host h :: m.stack, .run, m.used + Activation.hostSize⟩
        ⟨w'', m.stack, .back vals, m.used⟩ := by
      rw [Nat.add_sub_cancel] at hfinish
      simp only [Steps, step, hostStep, htodo, hfinish]
    refine ⟨_, hreach.tail hsteps, .inl (.intro (hvals.trans hresults) hboxed ?_)⟩
    exact (alters_answer (hreach.tail hsteps)).retains
  · exact ⟨m', hreach, .inr hstopped⟩

/-! ## Code -/

theorem leaves {f : CodeFrame} {owner : InstanceAddr} {code : FuncCode} {locals : Array StoreVal}
    {pc : Nat} {vals : List StoreVal} (hf : f.IsAt owner code locals pc vals.reverse)
    (hop : code.ops[pc]? = some .done) (w : World) (rest : List Activation) (used : Nat) :
    ∃ w', Steps ⟨w, .code f :: rest, .run, used⟩
        ⟨w', rest, .back vals, used - Activation.codeSize⟩ ∧ w.Retains w' := by
  obtain ⟨w', hstep, hw⟩ := hf.step_done hop w
  rw [List.reverse_reverse] at hstep
  refine ⟨w', ?_, hw⟩
  simp only [Steps, step, hstep]

/-- A call that comes back with its own values gives back what looks the same as before. -/
theorem ComesBack.answered {m : Machine} {args : List StoreVal} {room : Nat}
    (h : m.ComesBack func caller room args) (hboxed : ∀ v ∈ args, m.world.Boxed v) :
    ∃ m', (m.enter func args caller).Reaches m' ∧ Answered m.world m.stack m.used room args m' := by
  rcases h with ⟨w', hreach⟩ | ⟨m', hreach, hstopped⟩
  · have hw : m.world.Retains w' := (alters_answer hreach).retains
    refine ⟨_, hreach, .inl (.intro ?_ (fun v hv => hw.keeps.boxed (hboxed v hv)) hw)⟩
    exact List.map_congr_left fun v hv => hw.keeps.view (hboxed v hv)
  · exact ⟨m', hreach, .inr hstopped⟩

theorem GaveBack.of_retains {m : Machine} {vals : List StoreVal} {args : List StoreVal}
    (hvals : vals.map w'.view = args.map w.view) (hboxed : ∀ v ∈ vals, w'.Boxed v)
    (hw : w.Retains w') {w'' : World} (hw' : w'.Retains w'')
    (hm : m = ⟨w'', rest, .back vals, used⟩) : GaveBack w rest used args m := by
  subst hm
  refine .intro ?_ (fun v hv => hw'.keeps.boxed (hboxed v hv)) (hw.trans hw')
  rw [← hvals]
  exact List.map_congr_left fun v hv => hw'.keeps.view (hboxed v hv)

/-- Code that hands its arguments on gives back what its callee gives back. -/
theorem answered_handOn {m : Machine} {args : List StoreVal} {callee owner k : Nat}
    {code : FuncCode} {i : Instance} {body : FuncBody}
    (known : m.world.store.funcs[func]? = some ⟨⟨ts, ts⟩, .code owner code⟩)
    (ops : code.ops.toList = Wasm.readLocals args.length ++ [.call k, .done])
    (instance_ : m.world.store.instances[owner]? = some i) (target : i.funcs[k]? = some callee)
    (hcallee : m.world.store.funcs[callee]? = some ⟨⟨ts, ts⟩, body⟩)
    (hlength : args.length = ts.length) (hboxed : ∀ v ∈ args, m.world.Boxed v)
    (answered : ∀ m' : Machine, m.world.Extends m'.world → (∀ v ∈ args, m'.world.Boxed v) →
      ∃ m₂, (m'.enter callee args (some owner)).Reaches m₂ ∧
        Answered m'.world m'.stack m'.used (m'.used + need) args m₂) :
    ∃ m', (m.enter func args caller).Reaches m' ∧
      Answered m.world m.stack m.used (m.used + (Activation.codeSize + need)) args m' := by
  rcases enter_reads known ops (Nat.add_le_add_left (Nat.le_add_right _ _) _)
    with ⟨g, w', locals, hreach, hg, hw⟩ | ⟨m', hreach, hstopped⟩
  · have hplaces := (Wasm.getElem?_readLocals ops).2
    obtain ⟨i', hi', hbecomes⟩ := hw.extends_.instances _ _ instance_
    have htarget : i'.funcs[k]? = some callee := by rw [hbecomes]; exact target
    obtain ⟨g', w'', hstep, hg', hw', hback⟩ := hg.step_call (hplaces 0) hi' htarget
      (hw.extends_.funcs_known hcallee) hlength rfl
    have hcall : Steps ⟨w', .code g :: m.stack, .run, m.used + Activation.codeSize⟩
        (enter callee args (some owner)
          ⟨w'', .code g' :: m.stack, .run, m.used + Activation.codeSize⟩) := by
      simp only [Steps, step, hstep, hg']
    have hmore := hw.trans hw'
    obtain ⟨m', hinner, hgave | hstopped⟩ :=
      answered ⟨w'', .code g' :: m.stack, .run, m.used + Activation.codeSize⟩ hmore.extends_
        fun v hv => hmore.keeps.boxed (hboxed v hv)
    · -- what came back are the operands, and `done` is next
      obtain ⟨hlook, hboxed', hw₃⟩ := hgave
      rename_i w₃ vals
      obtain ⟨w₄, hleave, hw₄⟩ := leaves (hback vals) (hplaces 1) w₃ m.stack
        (m.used + Activation.codeSize)
      have hviews : args.map w''.view = args.map m.world.view :=
        List.map_congr_left fun v hv => hmore.keeps.view (hboxed v hv)
      refine ⟨_, hreach.trans (.head hcall (hinner.trans (.head rfl (.single hleave)))),
        .inl (.of_retains (hlook.trans hviews) hboxed' (hmore.trans hw₃) hw₄ ?_)⟩
      rw [Nat.add_sub_cancel]
    · refine ⟨m', hreach.trans (.head hcall hinner), .inr ?_⟩
      exact (hstopped.mono (Nat.le_of_eq (Nat.add_assoc ..)) hmore.extends_.engine.symm).below rfl
  · exact ⟨m', hreach, .inr hstopped⟩

end Machine

open Machine

/-- A call of a function that gives back its arguments does so, or is stopped by the store. -/
theorem World.Echoes.answered (h : w.Echoes caller ts need func) (m : Machine)
    (args : List StoreVal) (hm : w.Extends m.world) (htypes : args.map Val.type = ts)
    (hboxed : ∀ v ∈ args, m.world.Boxed v) :
    ∃ m', (m.enter func args caller).Reaches m' ∧
      Answered m.world m.stack m.used (m.used + need) args m' := by
  have hlength : args.length = ts.length := by rw [← htypes, List.length_map]
  -- by induction on the tower; the callees are called later, in worlds that extend this one
  induction h generalizing m args with
  | same known comesBack => exact (comesBack m args hm htypes).answered hboxed
  | results known ends => exact (ends m args hm htypes).answered htypes
  | @codeCall caller ts func callee owner code i k need known ops instance_ target inner ih =>
      obtain ⟨body, hcallee⟩ := inner.known
      obtain ⟨i', hi', hbecomes⟩ := hm.instances _ _ instance_
      have htarget : i'.funcs[k]? = some callee := by rw [hbecomes]; exact target
      rw [← hlength] at ops
      exact answered_handOn (hm.funcs_known known) ops hi' htarget (hm.funcs_known hcallee) hlength
        hboxed fun m' hm' hboxed' => ih m' args (hm.trans hm') htypes hboxed' hlength
  | @hostCalls caller ts func need names callees known exports inner ih =>
      refine (endsWithArgs_of_copying (hm.funcs_known known) htypes
        (by simp [HostOp.relayArgs, hlength]) fun n hn h w' hcopying => ?_).answered htypes
      obtain ⟨t, ht⟩ : ∃ t, ts[n]? = some t := ⟨_, List.getElem?_eq_getElem (hlength ▸ hn)⟩
      obtain ⟨body, hcallee⟩ := (inner n t ht).known
      have hv : (args.map m.world.view)[n]? = some (m.world.view args[n]) := by simp [hn]
      have hvt : (m.world.view args[n]).type = t := by
        rw [type_view]
        simpa [← htypes, hn] using ht
      rw [← hlength, ← List.length_map (f := m.world.view)] at hcopying ⊢
      have hdone := hcopying.relay (by simpa using hlength) hv hvt
        (hm.getExport (exports n (hlength ▸ hn))) (hm.funcs_known hcallee)
        (fun m' args' hm' htypes' hboxed' => ih n t ht m' args' (hm.trans hm') htypes' hboxed'
          (by rw [← htypes', List.length_map])) m.stack (m.used + Activation.hostSize)
      rw [Nat.add_assoc] at hdone
      exact hdone

/-! ## Functions that hand nothing on -/

/-- Code that reads its arguments and leaves gives them back. -/
theorem World.echoes_code {owner : InstanceAddr} {code : FuncCode}
    (known : w.store.funcs[func]? = some ⟨⟨ts, ts⟩, .code owner code⟩)
    (ops : code.ops.toList = Wasm.readLocals ts.length ++ [.done]) :
    w.Echoes caller ts Activation.codeSize func := by
  refine .same known fun m args hm htypes => ?_
  have hlength : args.length = ts.length := by rw [← htypes, List.length_map]
  rw [← hlength] at ops
  rcases enter_reads (hm.funcs_known known) ops (Nat.le_refl _) with
    ⟨g, w', locals, hreach, hg, -⟩ | ⟨m', hreach, hstopped⟩
  · have hdone := (Wasm.getElem?_readLocals ops).2 0
    obtain ⟨w'', hleave, -⟩ := leaves hg hdone w' m.stack (m.used + Activation.codeSize)
    rw [Nat.add_sub_cancel] at hleave
    exact .inl ⟨w'', hreach.tail hleave⟩
  · exact .inr ⟨m', hreach, hstopped⟩

variable {args : List HostVal}

theorem World.callFunc_eq_run (fits : checkArgs (w.funcType func) args = .ok ()) (limit : Nat) :
    w.callFunc limit func args = ((w.begin func args).run limit).map fun (r, w') =>
      match r with
      | .ok results => (.ok (results.map w'.view), (w'.revealAll results).2.unholdAll
          (w.acceptAll args).1)
      | .error f => (.error (f.failure .typeMismatch), w'.unholdAll (w.acceptAll args).1) := by
  simp only [callFunc, callOr, fits, begin]
  congr 1
  funext p
  obtain ⟨r, w'⟩ := p
  cases r with
  | ok results => simp only [← revealAll_fst]
  | error f => rfl

/-- A call of a function that gives back its arguments gives them back to the embedder, the same
bits and references to the same things. Only the store can stop it: for want of stack, for want of
fuel, or by an interruption. -/
theorem World.Echoes.callFunc (h : w.Echoes none ts need func) (htypes : args.map Val.type = ts) :
    ∃ n r w', (∀ limit, w.callFunc limit func args = if n ≤ limit then some (r, w') else none) ∧
      (r = .ok args ∨ ∃ t c, r = .error (.trap t) ∧ t.code = some c ∧ w.Stops need c) := by
  obtain ⟨body, known⟩ := h.known
  have fits : checkArgs (w.funcType func) args = .ok () := by
    rw [checkArgs_eq_ok_iff, funcType, known, Option.map_some, Option.getD_some, htypes]
  have hretains : w.Retains ((w.acceptAll args).2.exposeAll (w.acceptAll args).1) :=
    Alters.retains (changes_taken args w)
  obtain ⟨m', hreach, hgave | hstopped⟩ := h.answered
    (Machine.idle ((w.acceptAll args).2.exposeAll (w.acceptAll args).1)) (w.acceptAll args).1
    hretains.extends_ (by rw [types_acceptAll, htypes])
    (fun v hv => (keeps_exposeAll _ _).boxed (boxed_acceptAll args w v hv))
  · obtain ⟨hlook, -, -⟩ := hgave
    rename_i w' vals
    have hlook : vals.map w'.view = args := by
      rw [hlook, idle, view_exposeAll]
      exact view_acceptAll args w
    have hends : (w.begin func args).Ends (.ok vals, w') := Ends.of_reaches hreach ⟨1, rfl⟩
    obtain ⟨n, hrun⟩ := hends.run_eq
    refine ⟨n, .ok args, (w'.revealAll vals).2.unholdAll (w.acceptAll args).1, fun limit => ?_,
      .inl rfl⟩
    rw [callFunc_eq_run fits, hrun]
    split
    · simp only [Option.map_some, hlook]
    · rfl
  · obtain ⟨⟨above, hstack, hrethrows⟩, f, t, c, hfault, hcarries, hcode, hstops⟩ := hstopped
    have hunwinding : m'.Unwinding t :=
      ⟨⟨f, hfault, hcarries⟩, by rw [hstack, idle, List.append_nil]; exact hrethrows⟩
    obtain ⟨f', w', hends, hcarries'⟩ := hunwinding.ends
    obtain ⟨n, hrun⟩ := (Ends.of_reaches hreach hends : (w.begin func args).Ends _).run_eq
    obtain ⟨t', ht', hbare⟩ := hcarries'.trap?
    refine ⟨n, .error (.trap t'), w'.unholdAll (w.acceptAll args).1, fun limit => ?_,
      .inr ⟨t', c, rfl, (Trap.fields_of_bare hbare).2.2.trans hcode, ?_⟩⟩
    · rw [callFunc_eq_run fits, hrun]
      split
      · simp only [Option.map_some, Fault.failure, ht']
      · rfl
    · exact hstops.mono (by simp [idle]) hretains.extends_.engine.symm

end WasmHost

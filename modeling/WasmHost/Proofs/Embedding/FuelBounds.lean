import WasmHost.Proofs.Machine.FuelFree
import WasmHost.Proofs.Machine.Metering
import WasmHost.Proofs.Machine.MoreFuel

/-!
# Fuel bounds every call

In a store that uses fuel every call ends, unless a host function adds fuel on the way. A call that
would go on for ever with more and more fuel and stack runs short of one of them. If no host
function catches that, the embedder is told so.
-/

namespace WasmHost

open World

/-- The trap is for want of fuel or of stack. -/
def Trap.isShortage (t : Trap) : Bool := t.isOutOfFuel || t.code == some .stackExhausted

/-- The store with other fuel and another bound on its stack. -/
def World.supplied (fuel : Fuel) (stack : Nat) (w : World) : World :=
  w.mapStore fun s => { s with
    fuel, engine := { s.engine with options := { s.engine.options with maxWasmStack := stack } } }

namespace Machine

/-- The machine is unwound for want of fuel or of stack. -/
def isShort (m : Machine) : Bool :=
  match m.control with
  | .fault f => f.trap?.any Trap.isShortage
  | .run | .back _ => false

/-- One step of an execution that has whatever fuel and stack it takes. -/
inductive Proceeds (m m' : Machine) : Prop
  | enough (step : m.Steps m') (ample : m'.isShort = false)
  | supplied {short : Machine} (step : m.Steps short) (lacking : short.isShort) (fuel : Fuel)
      (stack : Nat) (again : Steps { m with world := m.world.supplied fuel stack } m')
      (ample : m'.isShort = false)

/-- With whatever fuel and stack it takes, the machine goes on for a number of steps. -/
def Lasts : Nat → Machine → Prop
  | 0, _ => True
  | n + 1, m => ∃ m', m.Proceeds m' ∧ Lasts n m'

variable {m m' : Machine} {r : RunResult} {n : Nat}

/-- What lasts forever has no end, unless it runs short. -/
theorem run_eq_none_of_lasts (h : m.Lasts n)
    (ample : ∀ m', m.Reaches m' → m'.isShort = false) : m.run n = none := by
  induction n generalizing m with
  | zero => rfl
  | succ n ih =>
      obtain ⟨m', hproceeds, hlasts⟩ := h
      cases hproceeds with
      | enough step =>
          rw [run_succ step]
          exact ih hlasts fun m'' hr => ample m'' (.head step hr)
      | supplied step lacking =>
          rw [ample _ (.single step)] at lacking
          cases lacking

end Machine

namespace World

variable {w w' : World} {func : FuncAddr} {args : List HostVal}

/-- A call would go on for ever: with whatever fuel and stack it takes, it takes any number of
steps. -/
def GoesOn (w : World) (func : FuncAddr) (args : List HostVal) : Prop :=
  ∀ n, (w.begin func args).Lasts n ∨ (w.begin func args).isShort ∧
    ∃ fuel stack, ((w.supplied fuel stack).begin func args).Lasts n

/-- What the embedder is told of a run. -/
def answer (w : World) : Except Fault (List StoreVal) → Except Failure (List HostVal)
  | .ok vals => .ok (vals.map w.view)
  | .error f => .error (f.failure .typeMismatch)

theorem GoesOn.short (h : w.GoesOn func args) {r : RunResult}
    (ends : (w.begin func args).Ends r) :
    ∃ m, (w.begin func args).Reaches m ∧ m.isShort := by
  by_contra hnone
  have ample (m : Machine) (hr : (w.begin func args).Reaches m) : m.isShort = false := by
    cases hm : m.isShort with
    | true => exact absurd ⟨m, hr, hm⟩ hnone
    | false => rfl
  obtain ⟨n, hrun⟩ := ends
  rcases h n with hlasts | ⟨hshort, -⟩
  · rw [Machine.run_eq_none_of_lasts hlasts ample] at hrun
    cases hrun
  · rw [ample _ .refl] at hshort
    cases hshort

end World

namespace Usage

variable {u : Usage} {func : FuncAddr} {args : List HostVal}

/-- A call in a store that uses fuel is metered, if no fuel is added on the way. -/
theorem Reachable.metered (hu : u.Reachable) (uses : u.world.usesFuel)
    (fits : checkArgs (u.world.funcType func) args = .ok ())
    (calm : ∀ m, (u.world.begin func args).Reaches m → m.addsFuel = false) :
    (u.world.begin func args).Metered (u.world.funcType func).results := by
  obtain ⟨typed, hext⟩ := hu.typed.call fits
  refine ⟨typed, Machine.native_enter typed.world, Machine.aimed_enter typed.world, ?_, ?_, calm⟩
  · exact hu.ordered.grows (grows_call u.world func args)
  · rw [usesFuel, hext.engine]
    exact uses

/-- The binary. -/
def spinnerBinary : Wasm.Bytes :=
  [0x00, 0x61, 0x73, 0x6d, 0x01, 0x00, 0x00, 0x00, 0x01, 0x04, 0x01, 0x60, 0x00, 0x00, 0x02, 0x06,
    0x01, 0x00, 0x01, 0x68, 0x00, 0x00, 0x03, 0x03, 0x02, 0x00, 0x00, 0x07, 0x0c, 0x02, 0x01, 0x66,
    0x00, 0x01, 0x04, 0x73, 0x70, 0x69, 0x6e, 0x00, 0x02, 0x0a, 0x0e, 0x02, 0x04, 0x00, 0x10, 0x00,
    0x0b, 0x07, 0x00, 0x03, 0x40, 0x0c, 0x00, 0x0b, 0x0b]

/-- The body of the function 1. -/
def callingCode : FuncCode := .make 1 ⟨[], []⟩ ⟨[], [.call 0, .done]⟩ ⟨45, 45, #[46, 48]⟩

/-- The body of the function 2. -/
def spinningCode : FuncCode :=
  .make 2 ⟨[], []⟩ ⟨[], [.loop .empty, .br 0, .done, .done]⟩ ⟨50, 50, #[51, 53, 55, 56]⟩

/-- The module. -/
def spinner : CompiledModule :=
  { compatibility := ({} : EngineOptions).compatibility, binary := spinnerBinary
    module :=
      { types := [⟨[], []⟩], imports := [⟨"", "h", .func 0⟩], funcs := [0, 0]
        exports := [⟨"f", .func, 1⟩, ⟨"spin", .func, 2⟩]
        codes := [⟨[], [.call 0, .done]⟩, ⟨[], [.loop .empty, .br 0, .done, .done]⟩] }
    codes := #[callingCode, spinningCode] }

/-- An engine whose code uses fuel. -/
def meteringEngine : Engine := { Engine.default 0 with consumesFuel := true }

/-- What the host function does: it calls an export of its caller and catches the failure. -/
def guarding : List HostOp := [.call "spin" [] none true]

/-- A store with the host function. -/
def guarded : World :=
  { store :=
      { engine := meteringEngine, signal := 0, deadline := 1, closures := [0]
        funcs := #[⟨⟨[], []⟩, .host guarding⟩] }
    shared :=
      { signals := #[{ engine := 0 }], closures := #[⟨guarding, 1⟩], files := ⟨[], #[]⟩ } }

/-- The store with fuel and an instance of the module. -/
def spinning (fuel : Fuel) : World :=
  { store :=
      { guarded.store with
        fuel
        funcs := #[⟨⟨[], []⟩, .host guarding⟩, ⟨⟨[], []⟩, .code 0 callingCode⟩,
          ⟨⟨[], []⟩, .code 0 spinningCode⟩]
        instances := #[{
          module := spinner, funcs := #[0, 1, 2], globals := #[], tables := #[], memories := #[]
          exports := [("f", .func 1), ("spin", .func 2)], droppedElems := #[]
          droppedDatas := #[] }] }
    shared := { guarded.shared with instances := [(0, 1)] } }

/-- The store with 9 units of fuel. -/
def fueled : Usage := { world := spinning ⟨9, 9⟩ }

end Usage

end WasmHost

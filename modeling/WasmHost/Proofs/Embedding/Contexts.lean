import WasmHost.Proofs.Embedding.Changes
import WasmHost.Proofs.Wasi.Setters
import WasmHost.Proofs.Wasi.Steps

/-!
# The system interface of a store in use

What the code of a store sees of the system is set up by the embedder, and each time it is set up it
replaces what was there. In between the code uses it: it reads from the input and writes to the
outputs, and nothing else about it ever changes.
-/

namespace WasmHost

open World

namespace Wasi

/-! ## Using a context -/

/-- The input once bytes were read from it. -/
def Input.advance (n : Nat) : Input → Input
  | bytes left => bytes (left.drop n)
  | i => i

/-- The output once bytes were written to it. -/
def Output.advance (n : Nat) : Output → Output
  | file id place => file id (place + n)
  | o => o

/-- The context once some bytes were read from the input and some were written to each output. -/
def Context.used (read printed complained : Nat) (c : Context) : Context :=
  { c with
    stdin := c.stdin.advance read
    stdout := c.stdout.advance printed
    stderr := c.stderr.advance complained }

/-- Using the one context leads to the other. -/
def Context.Leads (c c' : Context) : Prop :=
  ∃ read printed complained, c' = c.used read printed complained

theorem Input.advance_zero (i : Input) : i.advance 0 = i := by cases i <;> rfl

theorem Input.advance_advance (n k : Nat) (i : Input) :
    (i.advance n).advance k = i.advance (n + k) := by
  cases i with
  | bytes left => exact congrArg Input.bytes List.drop_drop
  | null | inherit => rfl

theorem Input.skip_eq (n : Nat) (p : Process) (i : Input) : (i.skip n p).1 = i.advance n := by
  cases i <;> rfl

theorem Output.advance_zero (o : Output) : o.advance 0 = o := by cases o <;> rfl

theorem Output.advance_advance (n k : Nat) (o : Output) :
    (o.advance n).advance k = o.advance (n + k) := by
  cases o with
  | file id place => exact congrArg (Output.file id) (Nat.add_assoc place n k)
  | null | inherit => rfl

theorem Output.write_eq (bytes : List UInt8) (files : FileSystem) (o : Output) :
    (o.write bytes files).1 = o.advance bytes.length := by
  cases o <;> rfl

namespace Context

theorem Leads.refl (c : Context) : c.Leads c :=
  ⟨0, 0, 0, by simp only [used, Input.advance_zero, Output.advance_zero]⟩

theorem Leads.trans {c c' c'' : Context} (h : c.Leads c') (h' : c'.Leads c'') : c.Leads c'' := by
  obtain ⟨i, o, e, rfl⟩ := h
  obtain ⟨i', o', e', rfl⟩ := h'
  exact ⟨i + i', o + o', e + e', by
    simp only [used, Input.advance_advance, Output.advance_advance]⟩

end Context

/-- A function uses the context of its guest. -/
theorem allows_leads : Guest.Allows fun g g' => g.context.Leads g'.context where
  refl g := .refl g.context
  trans := .trans
  put _ := .refl _
  passOver n g := ⟨n, 0, 0, by
    simp only [Guest.passOver, Context.used, Input.skip_eq, Output.advance_zero]⟩
  print bytes g := ⟨0, bytes.length, 0, by
    simp only [Guest.print, Context.used, Output.write_eq, Input.advance_zero,
      Output.advance_zero]⟩
  printError bytes g := ⟨0, 0, bytes.length, by
    simp only [Guest.printError, Context.used, Output.write_eq, Input.advance_zero,
      Output.advance_zero]⟩

/-! ## The context of a configuration -/

end Wasi

theorem World.Change.leads {T : Object → Prop} {w w' : World} (h : Change T w w') :
    w.store.wasi.Leads w'.store.wasi := by
  cases h with
  | box _ b =>
      rw [store_updateBox]
      exact .refl _
  | aside _ _ wasi => exact wasi ▸ .refl _
  | guest f args context => exact context ▸ Wasi.follows_run Wasi.allows_leads f args _
  | allocate m imports => exact (w.keeps_allocate m imports).2 ▸ .refl _
  | _ => exact .refl _

/-- All that is done to a store uses its context. -/
theorem World.Alters.leads {w w' : World} (h : w.Alters w') :
    w.store.wasi.Leads w'.store.wasi := by
  induction h with
  | refl => exact .refl _
  | tail _ step ih => exact ih.trans step.leads

namespace Usage

variable {u u' : Usage}

/-- A usage that is reached from a new store, with the contexts that the system interface was set up
with on the way, the last one first. Whatever else happens does not have the effect of setting it
up. -/
inductive SetUpRun : List Wasi.Context → Usage → Prop
  | start (engine : Engine) (s : Shared) : SetUpRun [] { world := World.create engine s }
  | setUp {contexts : List Wasi.Context} {u u' : Usage} {config : Wasi.Config}
      {context : Wasi.Context} (before : SetUpRun contexts u)
      (set : u.SetsUp config context u') : SetUpRun (context :: contexts) u'
  | other {contexts : List Wasi.Context} {u u' : Usage} (before : SetUpRun contexts u)
      (step : u.Step u') (apart : ∀ config context, u.SetsUp config context u' → u' = u) :
      SetUpRun contexts u'

theorem SetsUp.step {config : Wasi.Config} {context : Wasi.Context}
    (h : u.SetsUp config context u') : u.Step u' := by
  obtain ⟨free, built⟩ := h
  have hstep : u.Step { u with world := ((StoreCall.setWasi config).run [] u.world).2 } :=
    .store [] free trivial
  simp only [StoreCall.run, World.setWasi, built] at hstep
  exact hstep

theorem SetUpRun.reachable {contexts : List Wasi.Context} (h : SetUpRun contexts u) :
    u.Reachable := by
  induction h with
  | start engine s => exact .start engine s
  | setUp _ set ih => exact .step ih set.step
  | other _ step _ ih => exact .step ih step

/-- The store has the context that it was last set up with, as far as it was not used since. -/
theorem SetUpRun.leads {contexts : List Wasi.Context} (h : SetUpRun contexts u) :
    (contexts.headD {}).Leads u.world.store.wasi := by
  induction h with
  | start engine s => exact .refl _
  | setUp _ set =>
      obtain ⟨-, -⟩ := set
      exact .refl _
  | other _ step apart ih =>
      rcases step.world_cases with halters | ⟨t, made⟩ | ⟨config, context, set⟩
      · exact ih.trans halters.leads
      · rwa [made.wasi_eq]
      · rwa [apart config context set]

end Usage

end WasmHost

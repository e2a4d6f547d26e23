import Mathlib.Data.List.Induction
import WasmHost.Proofs.FileSystem
import WasmHost.Wasi.Context

/-!
# Setters of a configuration of the system interface

A configuration is made by calls of setters, between which anything may happen to the files. Some
calls are refused; a file or directory is the cause of it, and the configuration stays as it was.
What the configuration is in the end is said without going through the calls: the last call that is
about the arguments, the environment or a stream decides about it, and directories add up.
-/

namespace WasmHost.Wasi

/-- A call of a setter. -/
inductive Setter where
  | argv (args : List String)
  | inheritArgv
  | env (vars : List (String × String))
  | inheritEnv
  | stdinFile (path : String)
  | inheritStdin
  | stdoutFile (path : String)
  | inheritStdout
  | stderrFile (path : String)
  | inheritStderr
  | preopenDir (host guest : String)

namespace Setter

/-- What a call makes of a configuration and the files, unless it is refused. -/
def perform (files : FileSystem) (c : Config) : Setter → Option (Config × FileSystem)
  | argv args => some (c.argv args, files)
  | inheritArgv => some (c.inheritArgv, files)
  | env vars => some (c.setEnv vars, files)
  | inheritEnv => some (c.inheritEnv, files)
  | stdinFile path => (c.stdinFile files path).map (·, files)
  | inheritStdin => some (c.inheritStdin, files)
  | stdoutFile path => c.stdoutFile files path
  | inheritStdout => some (c.inheritStdout, files)
  | stderrFile path => c.stderrFile files path
  | inheritStderr => some (c.inheritStderr, files)
  | preopenDir host guest => (c.preopenDir files host guest).map (·, files)

/-- Whether the files allow a call. -/
def Possible (files : FileSystem) : Setter → Prop
  | stdinFile path => files.HasFile path
  | stdoutFile path | stderrFile path => files.CanCreate path
  | preopenDir host _ => files.HasDirectory host
  | _ => True

/-- The files that a call leaves behind. -/
def effect (files : FileSystem) : Setter → FileSystem
  | stdoutFile path | stderrFile path => files.created path
  | _ => files

end Setter

/-- Something that the program is given, or finds in the process of the embedder. -/
inductive Source (α : Type) where
  | given (a : α)
  | inherited

namespace Source

variable {α : Type}

/-- The list that is given. -/
def list : Source (List α) → List α
  | given l => l
  | inherited => []

/-- Whether nothing is given. -/
def isInherited : Source α → Bool
  | given _ => false
  | inherited => true

end Source

/-- A call of a setter with the files that it finds. -/
structure Call where
  setter : Setter
  files : FileSystem

namespace Call

/-- What a call says of the arguments. -/
def args? (call : Call) : Option (Source (List String)) :=
  match call.setter with
  | .argv args => some (.given args)
  | .inheritArgv => some .inherited
  | _ => none

/-- What a call says of the environment. -/
def env? (call : Call) : Option (Source (List (String × String))) :=
  match call.setter with
  | .env vars => some (.given vars)
  | .inheritEnv => some .inherited
  | _ => none

/-- What a successful call says of the input. -/
def stdin? (call : Call) : Option Input :=
  match call.setter with
  | .stdinFile path => (call.files.bytesAt? path).map .bytes
  | .inheritStdin => some .inherit
  | _ => none

/-- What a successful call says of the output. -/
def stdout? (call : Call) : Option Output :=
  match call.setter with
  | .stdoutFile path => (call.files.create path).map fun opened => .file opened.1 0
  | .inheritStdout => some .inherit
  | _ => none

/-- What a successful call says of the error output. -/
def stderr? (call : Call) : Option Output :=
  match call.setter with
  | .stderrFile path => (call.files.create path).map fun opened => .file opened.1 0
  | .inheritStderr => some .inherit
  | _ => none

/-- The directory that a successful call adds. -/
def preopen? (call : Call) : Option (String × String) :=
  match call.setter with
  | .preopenDir host guest => if call.files.isDirectory host then some (host, guest) else none
  | _ => none

end Call

/-- The last word of some calls about something. -/
def lastWord {α : Type} (calls : List Call) (word : Call → Option α) : Option α :=
  calls.reverse.findSome? word

/-- The configuration in which everything is as the last call about it says. -/
def Config.ofCalls (calls : List Call) : Config :=
  let args := (lastWord calls Call.args?).getD (.given [])
  let env := (lastWord calls Call.env?).getD (.given [])
  { args := args.list
    inheritsArgs := args.isInherited
    env := env.list
    inheritsEnv := env.isInherited
    stdin := (lastWord calls Call.stdin?).getD .null
    stdout := (lastWord calls Call.stdout?).getD .null
    stderr := (lastWord calls Call.stderr?).getD .null
    preopens := calls.filterMap Call.preopen? }

/-- What happens while a configuration is made: a setter is called, or someone else changes the
files. -/
inductive Happening where
  | set (s : Setter)
  | change (files : FileSystem)

namespace Happening

/-- What becomes of a configuration and the files. A call that is refused leaves both as they
are. -/
def next (made : Config × FileSystem) : Happening → Config × FileSystem
  | set s => (s.perform made.2 made.1).getD made
  | change files => (made.1, files)

/-- What becomes of the files. -/
def effect (files : FileSystem) : Happening → FileSystem
  | set s => s.effect files
  | change files => files

/-- The calls among what happens, each with the files that it finds. -/
def calls (files : FileSystem) : List Happening → List Call
  | [] => []
  | set s :: rest => ⟨s, files⟩ :: calls (s.effect files) rest
  | change files :: rest => calls files rest

end Happening

/-- The configuration and the files after all that happens, from an empty configuration on. -/
def Config.made (files : FileSystem) (happenings : List Happening) : Config × FileSystem :=
  happenings.foldl Happening.next ({}, files)

variable {files : FileSystem} {c : Config} {s : Setter}

/-! ## One call -/

namespace Setter

theorem perform_isSome_iff : (s.perform files c).isSome ↔ s.Possible files := by
  cases s with
  | stdinFile path =>
    rw [perform, Option.isSome_map, Config.stdinFile, Option.isSome_map]
    exact FileSystem.isSome_bytesAt?
  | stdoutFile path =>
    rw [perform, Config.stdoutFile, Option.isSome_map]
    exact FileSystem.isSome_create
  | stderrFile path =>
    rw [perform, Config.stderrFile, Option.isSome_map]
    exact FileSystem.isSome_create
  | preopenDir host guest =>
    rw [perform, Option.isSome_map, Config.preopenDir, Option.isSome_ite]
    exact FileSystem.isDirectory_iff
  | _ => exact iff_of_true rfl trivial

theorem perform_eq_none_iff : s.perform files c = none ↔ ¬s.Possible files := by
  rw [← perform_isSome_iff (c := c), Option.not_isSome_iff_eq_none]

theorem perform_of_possible (c : Config) (h : s.Possible files) :
    ∃ made, s.perform files c = some made :=
  Option.isSome_iff_exists.mp (perform_isSome_iff.mpr h)

/-- The files after a call, which it changes if it opens one for writing only. -/
theorem effect_of_perform {made : Config × FileSystem} (h : s.perform files c = some made) :
    made.2 = s.effect files := by
  cases s with
  | stdinFile path | preopenDir host guest =>
    obtain ⟨c', -, rfl⟩ := Option.map_eq_some_iff.mp h
    rfl
  | stdoutFile path | stderrFile path =>
    obtain ⟨opened, hcreate, rfl⟩ := Option.map_eq_some_iff.mp h
    rw [effect, FileSystem.created, hcreate]
    rfl
  | _ =>
    cases h
    rfl

theorem effect_of_not_possible (h : ¬s.Possible files) : s.effect files = files := by
  cases s with
  | stdoutFile path | stderrFile path =>
    rw [Possible, ← FileSystem.isSome_create, Option.not_isSome_iff_eq_none] at h
    rw [effect, FileSystem.created, h]
    rfl
  | _ => rfl

end Setter

namespace Happening

theorem next_set_files (made : Config × FileSystem) (s : Setter) :
    (next made (.set s)).2 = s.effect made.2 := by
  rw [next]
  cases h : s.perform made.2 made.1 with
  | some made' => exact Setter.effect_of_perform h
  | none => exact (Setter.effect_of_not_possible (Setter.perform_eq_none_iff.mp h)).symm

end Happening

/-! ## Calls one after the other -/

namespace Config

end Config

/-- What happens in the end happens to what was made before. -/
theorem Config.made_concat (files : FileSystem) (before : List Happening) (h : Happening) :
    made files (before ++ [h]) = h.next (made files before) := by
  rw [made, List.foldl_append]
  rfl

theorem Config.made_files (files : FileSystem) (happenings : List Happening) :
    (made files happenings).2 = happenings.foldl Happening.effect files := by
  induction happenings using List.reverseRecOn with
  | nil => rfl
  | append_singleton before h ih =>
    rw [made_concat, List.foldl_append, ← ih]
    cases h with
    | set s => exact Happening.next_set_files _ s
    | change files => rfl

end WasmHost.Wasi

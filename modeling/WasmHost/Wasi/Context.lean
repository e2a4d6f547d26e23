import WasmHost.Error
import WasmHost.FileSystem
import WasmHost.Settings
import WasmHost.Types

/-!
# The system interface of a program

A `Wasi.Config` is built step by step and then turned into a `Wasi.Context`, which a store holds.
Files are opened by the steps: an input file is read then, an output file is emptied then. A step
that cannot be taken leaves the configuration as it was. What is inherited is that of the process
that the embedder runs in: arguments and environment as they are when the context is made, streams
as they are when they are used.
-/

namespace WasmHost.Wasi

/-- What the process of the embedder has: its arguments and environment, what is left of its input,
and what was written to its outputs. -/
structure Process where
  args : List String := []
  env : List (String × String) := []
  stdin : List UInt8 := []
  stdout : List UInt8 := []
  stderr : List UInt8 := []
deriving DecidableEq

/-- Where a standard input comes from: from nowhere, from the process of the embedder, or from bytes,
of which some are left. -/
inductive Input where
  | null
  | inherit
  | bytes (left : List UInt8)
deriving DecidableEq

/-- Where a standard output leads: nowhere, to the process of the embedder, or into an open file from
a place on. -/
inductive Output where
  | null
  | inherit
  | file (id : FileId) (place : Nat)
deriving DecidableEq

/-- What a program sees of the system. -/
structure Context where
  args : List String := []
  env : List (String × String) := []
  stdin : Input := .null
  stdout : Output := .null
  stderr : Output := .null
  /-- The names of the open directories, which follow the standard streams. -/
  preopens : List String := []
deriving DecidableEq

/-- The description of a context. -/
structure Config where
  args : List String := []
  /-- Whether the arguments are those of the process of the embedder. -/
  inheritsArgs : Bool := false
  env : List (String × String) := []
  /-- Whether the environment is that of the process of the embedder. -/
  inheritsEnv : Bool := false
  stdin : Input := .null
  stdout : Output := .null
  stderr : Output := .null
  /-- Directories with the names they are given. -/
  preopens : List (String × String) := []
deriving DecidableEq

namespace Config

/-- The arguments. -/
def argv (args : List String) (c : Config) : Config := { c with args, inheritsArgs := false }

/-- The arguments of the embedder. -/
def inheritArgv (c : Config) : Config := { c with args := [], inheritsArgs := true }

/-- The environment. -/
def setEnv (env : List (String × String)) (c : Config) : Config :=
  { c with env, inheritsEnv := false }

/-- The environment of the embedder. -/
def inheritEnv (c : Config) : Config := { c with env := [], inheritsEnv := true }

/-- The input of the embedder. -/
def inheritStdin (c : Config) : Config := { c with stdin := .inherit }

/-- The output of the embedder. -/
def inheritStdout (c : Config) : Config := { c with stdout := .inherit }

/-- The error output of the embedder. -/
def inheritStderr (c : Config) : Config := { c with stderr := .inherit }

/-- The bytes of a file as input. -/
def stdinFile (files : FileSystem) (path : String) (c : Config) : Option Config :=
  (files.bytesAt? path).map fun bytes => { c with stdin := .bytes bytes }

/-- A file as output. -/
def stdoutFile (files : FileSystem) (path : String) (c : Config) : Option (Config × FileSystem) :=
  (files.create path).map fun (id, files) => ({ c with stdout := .file id 0 }, files)

/-- A file as error output. -/
def stderrFile (files : FileSystem) (path : String) (c : Config) : Option (Config × FileSystem) :=
  (files.create path).map fun (id, files) => ({ c with stderr := .file id 0 }, files)

/-- One more directory. -/
def preopenDir (files : FileSystem) (host guest : String) (c : Config) : Option Config :=
  if files.isDirectory host then some { c with preopens := c.preopens ++ [(host, guest)] } else none

/-- The refusal of a file or directory. -/
def refusal (path operation : String) : Error := .wasi (.filesystem path operation)

/-- The input that a setting asks for. -/
def inputOf (files : FileSystem) : StdioSetting → Except Error Input
  | .null => .ok .null
  | .inherit => .ok .inherit
  | .file path =>
    match files.bytesAt? path with
    | some bytes => .ok (.bytes bytes)
    | none => .error (refusal path "stdin")

/-- The output that a setting asks for, with the files behind it. -/
def outputOf (files : FileSystem) (operation : String) :
    StdioSetting → Except Error (Output × FileSystem)
  | .null => .ok (.null, files)
  | .inherit => .ok (.inherit, files)
  | .file path =>
    match files.create path with
    | some (id, files) => .ok (.file id 0, files)
    | none => .error (refusal path operation)

/-- The configuration that settings describe, and the files behind it. The files are touched in the
order input, output, error output, and directories come last. -/
def ofSettings (files : FileSystem) (s : WasiSettings) : Except Error Config × FileSystem :=
  let c : Config := if s.inheritArgs then inheritArgv {} else argv s.args {}
  let c := if s.inheritEnv then c.inheritEnv else c.setEnv s.env
  match inputOf files s.stdin with
  | .error e => (.error e, files)
  | .ok stdin =>
    match outputOf files "stdout" s.stdout with
    | .error e => (.error e, files)
    | .ok (stdout, files) =>
      match outputOf files "stderr" s.stderr with
      | .error e => (.error e, files)
      | .ok (stderr, files) =>
        (s.preopens.foldlM (fun c p =>
          match Config.preopenDir files p.host p.guest c with
          | some c => .ok c
          | none => .error (refusal p.host "preopen")) { c with stdin, stdout, stderr }, files)

/-- The context of a configuration in a process. A directory may have gone since it was named. -/
def build (p : Process) (files : FileSystem) (c : Config) : Except Error Context :=
  match c.preopens.find? fun d => !files.isDirectory d.1 with
  | some (host, _) =>
    .error (.wasi (.initializationFailed
      ("cannot preopen " ++ host ++ ": " ++ PathFault.notFound.message)))
  | none =>
    .ok { args := if c.inheritsArgs then p.args else c.args
          env := if c.inheritsEnv then p.env else c.env
          stdin := c.stdin, stdout := c.stdout, stderr := c.stderr
          preopens := c.preopens.map (·.2) }

end Config

/-! ## Functions -/

/-- The functions of the interface that do something here. -/
inductive Service where
  | argsGet | argsSizesGet | environGet | environSizesGet | fdPrestatGet | fdPrestatDirName
  | fdRead | fdWrite | procExit
deriving DecidableEq

/-- A function of the interface: its name, its signature and what it does. One that does nothing
says that it is not there. -/
structure Func where
  name : String
  type : FuncType
  service : Option Service := none
deriving DecidableEq

/-- The module that the functions belong to. -/
def moduleName : String := "wasi_snapshot_preview1"

end WasmHost.Wasi

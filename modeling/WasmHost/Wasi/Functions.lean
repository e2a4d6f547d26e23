import WasmHost.Memory
import WasmHost.Trap
import WasmHost.Wasi.Context

/-!
# Functions of the system interface

A function works on the memory of the program that calls it and on its context. It answers with an
error number, 0 for success. A pointer that leads out of the memory, or is not aligned, is a fault;
what was written before it stays written.
-/

namespace WasmHost.Wasi

/-- Why a function does not return. -/
inductive GuestFault where
  | exit (status : Nat)
  | invalidExit
  | outOfBounds (start length : Nat)
  | notAligned (align start length : Nat)
deriving DecidableEq

/-- A range of memory as it is shown. -/
def regionShown (start length : Nat) : String :=
  s!"Region \x7b start: {start}, len: {length} \x7d"

/-- The cause that a fault is for the engine. -/
def GuestFault.cause : GuestFault → Cause
  | exit status => .exit status
  | invalidExit => .other "exit with invalid exit status outside of [0..126)"
  | outOfBounds start length => .other ("Pointer out of bounds: " ++ regionShown start length)
  | notAligned align start length =>
    .other (s!"Pointer not aligned to {align}: " ++ regionShown start length)

/-- An error number. -/
abbrev Errno := Nat

namespace Errno

/-- Success. -/
def success : Errno := 0

/-- No such descriptor, or not one for this purpose. -/
def badDescriptor : Errno := 8

/-- A name does not fit. -/
def nameTooLong : Errno := 37

/-- There is no such function. -/
def notSupported : Errno := 52

/-- A descriptor is no directory. -/
def notDirectory : Errno := 54

end Errno

/-- What a function works on. -/
structure Guest where
  memory : Memory
  context : Context
  process : Process
  files : FileSystem

/-- A step of a function. -/
abbrev Step := ExceptT GuestFault (StateM Guest)

namespace Step

/-- Checks that a range lies in memory and its start is aligned. -/
def check (start length align : Nat) : Step Unit := do
  if !(← get).memory.fits start length then throw (.outOfBounds start length)
  if start % align ≠ 0 then throw (.notAligned align start length)

/-- Reads bytes. -/
def read (start length align : Nat) : Step (List UInt8) := do
  check start length align
  return (← get).memory.slice start length

/-- Writes bytes. -/
def write (start align : Nat) (bytes : List UInt8) : Step Unit := do
  check start bytes.length align
  modify fun g => { g with memory := g.memory.put start bytes }

/-- Reads a number of four bytes. -/
def read32 (start : Nat) : Step Nat := do return Memory.number (← read start 4 4)

/-- Writes a number of four bytes. -/
def write32 (start n : Nat) : Step Unit := write start 4 (Memory.numberBytes 4 n)

end Step

open Step

/-- The first range of a list of ranges that is not empty. -/
def firstRange (list : Nat) : Nat → Step (Nat × Nat)
  | 0 => return (0, 0)
  | n + 1 => do
    let start ← read32 list
    let length ← read32 (list + 4)
    if length = 0 then firstRange (list + 8) n else return (start, length)

/-- A string of a list as a program reads it. -/
def terminated (s : String) : List UInt8 := Text.encodeUtf8 s ++ [0]

/-- The strings of the environment. -/
def Context.envStrings (c : Context) : List String := c.env.map fun (k, v) => k ++ "=" ++ v

/-- Writes the number of some strings and the bytes that they fill. -/
def stringSizes (strings : List String) (count size : Nat) : Step Errno := do
  write32 count strings.length
  write32 size (strings.foldl (fun n s => n + (terminated s).length) 0)
  return Errno.success

/-- Writes strings one behind the other, and where each one starts. -/
def stringsAt (pointers buffer : Nat) : List String → Step Errno
  | [] => return Errno.success
  | s :: rest => do
    write32 pointers buffer
    write buffer 1 (terminated s)
    stringsAt (pointers + 4) (buffer + (terminated s).length) rest

/-- The name of the directory behind a descriptor, where there is one. -/
def Context.preopen? (c : Context) (fd : Nat) : Option String :=
  if fd < 3 then none else c.preopens[fd - 3]?

/-- What an input has to be read, in the process of the embedder. -/
def Input.left (p : Process) : Input → List UInt8
  | .null => []
  | .inherit => p.stdin
  | .bytes left => left

/-- Passes over bytes of an input: the input behind them, and the process. -/
def Input.skip (n : Nat) (p : Process) : Input → Input × Process
  | .null => (.null, p)
  | .inherit => (.inherit, { p with stdin := p.stdin.drop n })
  | .bytes left => (.bytes (left.drop n), p)

/-- Writes to an output: the output behind it, and the files. -/
def Output.write (bytes : List UInt8) (files : FileSystem) : Output → Output × FileSystem
  | .null => (.null, files)
  | .inherit => (.inherit, files)
  | .file id place => (.file id (place + bytes.length), files.writeAt id place bytes)

/-- What was written to an output of the embedder's process once bytes are written to an output that
may lead there. -/
def Output.pass (bytes written : List UInt8) : Output → List UInt8
  | .inherit => written ++ bytes
  | .null | .file .. => written

/-- Writes the first range of a list to a standard output. -/
def writeTo (fd list count written : Nat) : Step Errno := do
  let (start, length) ← firstRange list count
  let bytes ← read start length 1
  modify fun g =>
    let p := g.process
    if fd = 1 then
      let out := g.context.stdout
      let (stdout, files) := out.write bytes g.files
      { g with context := { g.context with stdout }, files
               process := { p with stdout := out.pass bytes p.stdout } }
    else
      let out := g.context.stderr
      let (stderr, files) := out.write bytes g.files
      { g with context := { g.context with stderr }, files
               process := { p with stderr := out.pass bytes p.stderr } }
  write32 written bytes.length
  return Errno.success

/-- Reads from the standard input into the first range of a list. -/
def readFrom (list count got : Nat) : Step Errno := do
  let (start, length) ← firstRange list count
  let g ← get
  let bytes := (g.context.stdin.left g.process).take length
  let (stdin, process) := g.context.stdin.skip length g.process
  modify fun g => { g with context := { g.context with stdin }, process }
  write start 1 bytes
  write32 got bytes.length
  return Errno.success

/-- What a function does with its arguments; it gives an error number unless it does not return. -/
def Service.run (s : Service) (args : List Nat) : Step Errno := do
  let c := (← get).context
  match s, args with
  | .argsSizesGet, [count, size] => stringSizes c.args count size
  | .argsGet, [pointers, buffer] => stringsAt pointers buffer c.args
  | .environSizesGet, [count, size] => stringSizes c.envStrings count size
  | .environGet, [pointers, buffer] => stringsAt pointers buffer c.envStrings
  | .fdPrestatGet, [fd, target] =>
    match c.preopen? fd with
    | some name =>
      write target 4 [0]
      write32 (target + 4) name.utf8ByteSize
      return Errno.success
    | none => return Errno.badDescriptor
  | .fdPrestatDirName, [fd, target, length] =>
    match c.preopen? fd with
    | some name =>
      if length < name.utf8ByteSize then return Errno.nameTooLong
      write target 1 (Text.encodeUtf8 name)
      return Errno.success
    | none => return if fd < 3 then Errno.notDirectory else Errno.badDescriptor
  | .fdRead, [fd, list, count, got] =>
    if fd = 0 then readFrom list count got else return Errno.badDescriptor
  | .fdWrite, [fd, list, count, written] =>
    if fd = 1 ∨ fd = 2 then writeTo fd list count written else return Errno.badDescriptor
  | .procExit, [status] => throw (if status < 126 then .exit status else .invalidExit)
  | _, _ => return Errno.notSupported

/-! ## The list of functions -/

/-- A signature from letters: `i` for 32 bits, `I` for 64 bits; the result is an error number. -/
def signatureOf (letters : String) : FuncType :=
  { params := letters.toList.map fun c => if c = 'I' then .i64 else .i32, results := [.i32] }

/-- All functions, in the order in which they are defined. -/
def functions : List Func :=
  [⟨"args_get", signatureOf "ii", some .argsGet⟩,
   ⟨"args_sizes_get", signatureOf "ii", some .argsSizesGet⟩,
   ⟨"environ_get", signatureOf "ii", some .environGet⟩,
   ⟨"environ_sizes_get", signatureOf "ii", some .environSizesGet⟩,
   ⟨"clock_res_get", signatureOf "ii", none⟩,
   ⟨"clock_time_get", signatureOf "iIi", none⟩,
   ⟨"fd_advise", signatureOf "iIIi", none⟩,
   ⟨"fd_allocate", signatureOf "iII", none⟩,
   ⟨"fd_close", signatureOf "i", none⟩,
   ⟨"fd_datasync", signatureOf "i", none⟩,
   ⟨"fd_fdstat_get", signatureOf "ii", none⟩,
   ⟨"fd_fdstat_set_flags", signatureOf "ii", none⟩,
   ⟨"fd_fdstat_set_rights", signatureOf "iII", none⟩,
   ⟨"fd_filestat_get", signatureOf "ii", none⟩,
   ⟨"fd_filestat_set_size", signatureOf "iI", none⟩,
   ⟨"fd_filestat_set_times", signatureOf "iIIi", none⟩,
   ⟨"fd_pread", signatureOf "iiiIi", none⟩,
   ⟨"fd_prestat_get", signatureOf "ii", some .fdPrestatGet⟩,
   ⟨"fd_prestat_dir_name", signatureOf "iii", some .fdPrestatDirName⟩,
   ⟨"fd_pwrite", signatureOf "iiiIi", none⟩,
   ⟨"fd_read", signatureOf "iiii", some .fdRead⟩,
   ⟨"fd_readdir", signatureOf "iiiIi", none⟩,
   ⟨"fd_renumber", signatureOf "ii", none⟩,
   ⟨"fd_seek", signatureOf "iIii", none⟩,
   ⟨"fd_sync", signatureOf "i", none⟩,
   ⟨"fd_tell", signatureOf "ii", none⟩,
   ⟨"fd_write", signatureOf "iiii", some .fdWrite⟩,
   ⟨"path_create_directory", signatureOf "iii", none⟩,
   ⟨"path_filestat_get", signatureOf "iiiii", none⟩,
   ⟨"path_filestat_set_times", signatureOf "iiiiIIi", none⟩,
   ⟨"path_link", signatureOf "iiiiiii", none⟩,
   ⟨"path_open", signatureOf "iiiiiIIii", none⟩,
   ⟨"path_readlink", signatureOf "iiiiii", none⟩,
   ⟨"path_remove_directory", signatureOf "iii", none⟩,
   ⟨"path_rename", signatureOf "iiiiii", none⟩,
   ⟨"path_symlink", signatureOf "iiiii", none⟩,
   ⟨"path_unlink_file", signatureOf "iii", none⟩,
   ⟨"poll_oneoff", signatureOf "iiii", none⟩,
   ⟨"proc_exit", { params := [.i32], results := [] }, some .procExit⟩,
   ⟨"proc_raise", signatureOf "i", none⟩,
   ⟨"sched_yield", signatureOf "", none⟩,
   ⟨"random_get", signatureOf "ii", none⟩,
   ⟨"sock_accept", signatureOf "iii", none⟩,
   ⟨"sock_recv", signatureOf "iiiiii", none⟩,
   ⟨"sock_send", signatureOf "iiiii", none⟩,
   ⟨"sock_shutdown", signatureOf "ii", none⟩]

/-- Runs a function. The error number is its result, if it has one. -/
def Func.run (f : Func) (args : List Nat) (g : Guest) : Except GuestFault Errno × Guest :=
  match f.service with
  | some s => (s.run args).run.run g
  | none => (.ok Errno.notSupported, g)

end WasmHost.Wasi

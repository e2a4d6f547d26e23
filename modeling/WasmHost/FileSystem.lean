import WasmHost.Text.Utf8

/-!
# A file system

Directories, and files with their bytes. A file is found by its path and, once opened, by its
number: an open file stays the same file when its path is written again. Paths are compared by their
parts, so repeated slashes and `.` make no difference, except that a path that ends in one leads to
a directory only; `..` leads out of a directory that is there.
-/

namespace WasmHost

/-- The number of a file. -/
abbrev FileId := Nat

/-- What stands at a path. -/
inductive PathEntry where
  | directory
  | file (id : FileId)
deriving DecidableEq

/-- Why a path could not be used. -/
inductive PathFault where
  | notFound | isDirectory | notText
deriving DecidableEq

/-- The text of the fault. -/
def PathFault.message : PathFault → String
  | notFound => "No such file or directory (os error 2)"
  | isDirectory => "Is a directory (os error 21)"
  | notText => "stream did not contain valid UTF-8"

/-- The directories and files, by the parts of their paths. -/
structure FileSystem where
  entries : List (List String × PathEntry)
  contents : Array (List UInt8) := #[]

namespace FileSystem

/-- The parts of a path; an absolute one starts with `/`. The empty path has none. -/
def parts (path : String) : List String :=
  let names := (path.splitOn "/").filter fun s => s ≠ "" ∧ s ≠ "."
  if path.startsWith "/" then "/" :: names else names

/-- A file system in which some directories exist; the root always does. -/
def ofDirectories (paths : List String) : FileSystem :=
  { entries := (["/"], .directory) :: paths.map fun p => (parts p, .directory) }

/-- Goes down from a place by the parts of a path. -/
def walk (fs : FileSystem) (here : List String) : List String → Option (List String)
  | [] => some here
  | ".." :: rest =>
    if fs.entries.lookup here = some .directory then
      fs.walk (if here.length ≤ 1 then here else here.dropLast) rest
    else none
  | p :: rest => fs.walk (here ++ [p]) rest

/-- Whether a path says by its ending that it leads to a directory. -/
def asksForDirectory (path : String) : Bool := path.endsWith "/" || path.endsWith "/."

/-- The parts of the place that a path leads to. The empty path leads nowhere, and one that asks for
a directory leads to nothing else. -/
def locate (fs : FileSystem) (path : String) : Option (List String) :=
  match parts path with
  | [] => none
  | p :: rest => do
    let place ← fs.walk [p] rest
    if asksForDirectory path && fs.entries.lookup place ≠ some .directory then none
    else return place

/-- What stands at a path. -/
def at? (fs : FileSystem) (path : String) : Option PathEntry := do
  fs.entries.lookup (← fs.locate path)

/-- Whether a path names a directory. -/
def isDirectory (fs : FileSystem) (path : String) : Bool := fs.at? path == some .directory

/-- The bytes of a file. -/
def content (fs : FileSystem) (id : FileId) : List UInt8 := fs.contents.getD id []

/-- The bytes of the file at a path. -/
def bytesAt? (fs : FileSystem) (path : String) : Option (List UInt8) :=
  match fs.at? path with
  | some (.file id) => some (fs.content id)
  | _ => none

/-- The text of the file at a path. -/
def readText (fs : FileSystem) (path : String) : Except PathFault String :=
  match fs.at? path with
  | none => .error .notFound
  | some .directory => .error .isDirectory
  | some (.file id) => (Text.decodeUtf8 (fs.content id)).mapError fun _ => .notText

/-- Replaces the bytes of a file. -/
def setContent (fs : FileSystem) (id : FileId) (bytes : List UInt8) : FileSystem :=
  { fs with contents := fs.contents.setIfInBounds id bytes }

/-- Opens the file at a path for writing, empty: one that is there is emptied, one that is not is
made if its directory is there. -/
def create (fs : FileSystem) (path : String) : Option (FileId × FileSystem) :=
  match fs.at? path with
  | some .directory => none
  | some (.file id) => some (id, fs.setContent id [])
  | none => do
    let place ← fs.locate path
    if fs.entries.lookup place.dropLast = some .directory then
      let id := fs.contents.size
      return (id, { entries := fs.entries ++ [(place, .file id)], contents := fs.contents.push [] })
    else none

/-- Writes a whole file. -/
def writeAll (fs : FileSystem) (path : String) (bytes : List UInt8) : FileSystem :=
  match fs.create path with
  | some (id, fs) => fs.setContent id bytes
  | none => fs

/-- Writes bytes into an open file from an offset on; a gap before it is filled with zeros. -/
def writeAt (fs : FileSystem) (id : FileId) (offset : Nat) (bytes : List UInt8) : FileSystem :=
  let old := fs.content id
  let before := (old ++ List.replicate (offset - old.length) 0).take offset
  fs.setContent id (before ++ bytes ++ old.drop (offset + bytes.length))

/-- Makes the directory at the given parts, if nothing stands there. -/
def addDirectory (fs : FileSystem) (ps : List String) : FileSystem :=
  if (fs.entries.lookup ps).isSome then fs
  else { fs with entries := fs.entries ++ [(ps, .directory)] }

/-- Makes a directory and those above it. -/
def makeDirectory (fs : FileSystem) (path : String) : FileSystem :=
  let ps := parts path
  (List.range ps.length).foldl (fun fs n => fs.addDirectory (ps.take (n + 1))) fs

/-- Removes what stands at a path and everything below it. -/
def remove (fs : FileSystem) (path : String) : FileSystem :=
  { fs with entries := fs.entries.filter fun (ps, _) => !(parts path).isPrefixOf ps }

end FileSystem

end WasmHost

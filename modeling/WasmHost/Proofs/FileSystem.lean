import Mathlib.Data.List.Basic
import WasmHost.FileSystem

/-!
# What can be done at a path

What stands at a path decides whether a file can be read there or opened for writing. That a file is
made or emptied makes no difference to what can be written, or what is a directory, at any path.
-/

namespace WasmHost.FileSystem

/-- There is a file at the path. -/
def HasFile (fs : FileSystem) (path : String) : Prop := ∃ id, fs.at? path = some (.file id)

/-- There is a directory at the path. -/
def HasDirectory (fs : FileSystem) (path : String) : Prop := fs.at? path = some .directory

/-- There is nothing at the path, but a directory for it. -/
def HasRoom (fs : FileSystem) (path : String) : Prop :=
  fs.at? path = none ∧
    ∃ place, fs.locate path = some place ∧ fs.entries.lookup place.dropLast = some .directory

/-- A file can be emptied or made at the path. -/
def CanCreate (fs : FileSystem) (path : String) : Prop := fs.HasFile path ∨ fs.HasRoom path

/-- The files once the one at a path is opened for writing, if it can be. -/
def created (fs : FileSystem) (path : String) : FileSystem :=
  (fs.create path).elim fs (·.2)

variable {fs fs' : FileSystem} {path p : String} {id : FileId}

theorem isDirectory_iff : fs.isDirectory path ↔ fs.HasDirectory path := beq_iff_eq

theorem isSome_bytesAt? : (fs.bytesAt? path).isSome ↔ fs.HasFile path := by
  unfold bytesAt? HasFile
  cases fs.at? path with
  | none => simp
  | some entry => cases entry <;> simp

/-- Opening a file for writing empties the one that is there, or makes one. -/
theorem create_cases (h : fs.create path = some (id, fs')) :
    fs.at? path = some (.file id) ∧ fs' = fs.setContent id [] ∨
      ∃ place, fs.at? path = none ∧ fs.locate path = some place ∧
        fs.entries.lookup place.dropLast = some .directory ∧ id = fs.contents.size ∧
        fs' = ⟨fs.entries ++ [(place, .file id)], fs.contents.push []⟩ := by
  unfold create at h
  cases hat : fs.at? path with
  | some entry =>
      rw [hat] at h
      cases entry with
      | directory => cases h
      | file id =>
          cases h
          exact .inl ⟨rfl, rfl⟩
  | none =>
      rw [hat] at h
      cases hplace : fs.locate path with
      | none => simp [hplace] at h
      | some place =>
          simp only [hplace, Option.bind_eq_bind, Option.bind_some, Option.pure_def] at h
          split at h
          · rename_i hparent
            cases h
            exact .inr ⟨place, rfl, rfl, hparent, rfl, rfl⟩
          · cases h

theorem isSome_create : (fs.create path).isSome ↔ fs.CanCreate path := by
  constructor
  · intro h
    obtain ⟨⟨id, fs'⟩, hcreate⟩ := Option.isSome_iff_exists.mp h
    rcases create_cases hcreate with ⟨hat, -⟩ | ⟨place, hnone, hplace, hparent, -⟩
    · exact .inl ⟨id, hat⟩
    · exact .inr ⟨hnone, place, hplace, hparent⟩
  · rintro (⟨id, hat⟩ | ⟨hnone, place, hplace, hparent⟩)
    · simp [create, hat]
    · simp [create, hnone, hplace, hparent]

/-! ## What a new file changes -/

/-- Nothing but a file was added, at a place where there was none. -/
theorem lookup_concat_file {entries : List (List String × PathEntry)} {place here : List String} :
    (entries ++ [(place, PathEntry.file id)]).lookup here =
      (entries.lookup here).or (if here = place then some (.file id) else none) := by
  rw [List.lookup_append]
  congr 1
  by_cases h : here = place
  · simp [h]
  · simp [List.lookup_cons, beq_eq_false_iff_ne.mpr h, h]

theorem lookup_directory_concat_file {entries : List (List String × PathEntry)}
    {place here : List String} :
    (entries ++ [(place, PathEntry.file id)]).lookup here = some .directory ↔
      entries.lookup here = some .directory := by
  rw [lookup_concat_file]
  cases entries.lookup here with
  | some entry => rfl
  | none => simp

/-- Directories are where they were after a file was opened for writing. -/
theorem lookup_directory_create (h : fs.create path = some (id, fs')) (here : List String) :
    fs'.entries.lookup here = some .directory ↔ fs.entries.lookup here = some .directory := by
  rcases create_cases h with ⟨-, rfl⟩ | ⟨place, -, -, -, -, rfl⟩
  · rfl
  · exact lookup_directory_concat_file

theorem walk_congr (h : ∀ here, fs'.entries.lookup here = some .directory ↔
    fs.entries.lookup here = some .directory) (here names : List String) :
    fs'.walk here names = fs.walk here names := by
  fun_induction fs.walk here names with
  | case1 here => rfl
  | case2 here rest hdir ih => rw [walk, if_pos ((h here).mpr hdir), ih]
  | case3 here rest hdir => rw [walk, if_neg (mt (h here).mp hdir)]
  | case4 here name rest hname ih => rw [walk, ih]; exact hname

/-- Every path leads where it led before a file was opened for writing. -/
theorem locate_create (h : fs.create path = some (id, fs')) (p : String) :
    fs'.locate p = fs.locate p := by
  have hdirs := lookup_directory_create h
  unfold locate
  split
  · rfl
  · simp only [walk_congr hdirs, ne_eq, hdirs]

theorem hasDirectory_create (h : fs.create path = some (id, fs')) :
    fs'.HasDirectory p ↔ fs.HasDirectory p := by
  unfold HasDirectory at?
  rw [locate_create h]
  cases fs.locate p with
  | none => rfl
  | some place => exact lookup_directory_create h place

theorem canCreate_iff : fs.CanCreate p ↔ ¬fs.HasDirectory p ∧
    ∃ place, fs.locate p = some place ∧
      (fs.entries.lookup place = none → fs.entries.lookup place.dropLast = some .directory) := by
  unfold CanCreate HasFile HasRoom HasDirectory at?
  cases fs.locate p with
  | none => simp
  | some place =>
      simp only [Option.bind_eq_bind, Option.bind_some, Option.some.injEq, exists_eq_left']
      cases fs.entries.lookup place with
      | none => simp
      | some entry => cases entry <;> simp

theorem canCreate_create (h : fs.create path = some (id, fs')) :
    fs'.CanCreate p ↔ fs.CanCreate p := by
  rw [canCreate_iff, canCreate_iff, hasDirectory_create h, locate_create h]
  refine and_congr_right fun _ => exists_congr fun place => and_congr_right fun hlocated => ?_
  rw [lookup_directory_create h]
  rcases create_cases h with ⟨-, rfl⟩ | ⟨new, -, hnew, hparent, -, rfl⟩
  · rfl
  · rw [lookup_concat_file]
    by_cases hplace : place = new
    · subst hplace
      simp [hparent]
    · simp [hplace]

/-- The file that was opened for writing is at its path and empty; the other files keep their
bytes. -/
theorem at?_create (h : fs.create path = some (id, fs')) :
    fs'.at? path = some (.file id) ∧ fs'.content id = [] ∧
      ∀ other ≠ id, fs'.content other = fs.content other := by
  have hlocate := locate_create h path
  rcases create_cases h with ⟨hat, rfl⟩ | ⟨place, hnone, hplace, -, rfl, rfl⟩
  · refine ⟨?_, ?_, fun other hne => ?_⟩
    · rw [at?, hlocate]
      exact hat
    · simp only [content, setContent, Array.getD_eq_getD_getElem?,
        Array.getElem?_setIfInBounds_self]
      split <;> rfl
    · simp only [content, setContent, Array.getD_eq_getD_getElem?,
        Array.getElem?_setIfInBounds_ne hne.symm]
  · refine ⟨?_, ?_, fun other hne => ?_⟩
    · have hnone : fs.entries.lookup place = none := by simpa [at?, hplace] using hnone
      rw [at?, hlocate, hplace]
      simp [hnone, lookup_concat_file]
    · simp [content]
    · simp [content, Array.getElem?_push, hne]

end WasmHost.FileSystem

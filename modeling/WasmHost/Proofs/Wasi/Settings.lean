import WasmHost.Proofs.Datum.Meaning
import WasmHost.Proofs.Settings.RoundTrip
import WasmHost.Proofs.Wasi.Setters

/-!
# A configuration of the system interface from settings

Settings stand for calls of setters in a fixed order: arguments, environment, the three streams and
the directories as they are listed. The first call that is refused is the one that the error names,
and without one the configuration is what the calls make.
-/

namespace WasmHost.Wasi

namespace Setter

/-- The path that a call names, if it names one. -/
def path : Setter → String
  | stdinFile path | stdoutFile path | stderrFile path | preopenDir path _ => path
  | _ => ""

/-- What a call is for. -/
def operation : Setter → String
  | argv _ | inheritArgv => "args"
  | env _ | inheritEnv => "env"
  | stdinFile _ | inheritStdin => "stdin"
  | stdoutFile _ | inheritStdout => "stdout"
  | stderrFile _ | inheritStderr => "stderr"
  | preopenDir .. => "preopen"

/-- The files that calls leave behind, one after the other. -/
def effects (files : FileSystem) (calls : List Setter) : FileSystem := calls.foldl effect files

/-- The calls are possible one after the other, each with the files that those before leave
behind. -/
def AllPossible (files : FileSystem) : List Setter → Prop
  | [] => True
  | s :: rest => s.Possible files ∧ AllPossible (s.effect files) rest

/-- Makes calls up to the first that is refused. -/
def performAll (files : FileSystem) (c : Config) : List Setter → Except Error Config × FileSystem
  | [] => (.ok c, files)
  | s :: rest =>
    match s.perform files c with
    | some (c, files) => performAll files c rest
    | none => (.error (.wasi (.filesystem s.path s.operation)), files)

end Setter

/-- The call for a stream, given the ones that inherit it and that redirect it. -/
def setters (inherit : Setter) (file : String → Setter) : StdioSetting → List Setter
  | .null => []
  | .inherit => [inherit]
  | .file path => [file path]

/-- The files once what a stream is redirected to is open. -/
def opened (files : FileSystem) : StdioSetting → FileSystem
  | .file path => files.created path
  | .null | .inherit => files

end Wasi

/-- All that settings name is there: each stream and directory is judged by the files as they are
once the outputs before it are open. -/
structure WasiSettings.Available (s : WasiSettings) (files : FileSystem) : Prop where
  stdin : ∀ path, s.stdin = .file path → files.HasFile path
  stdout : ∀ path, s.stdout = .file path → files.CanCreate path
  stderr : ∀ path, s.stderr = .file path → (Wasi.opened files s.stdout).CanCreate path
  preopens : ∀ d ∈ s.preopens,
    (Wasi.opened (Wasi.opened files s.stdout) s.stderr).HasDirectory d.host

/-- The calls that settings stand for. -/
def WasiSettings.setters (s : WasiSettings) : List Wasi.Setter :=
  (if s.inheritArgs then .inheritArgv else .argv s.args) ::
  (if s.inheritEnv then .inheritEnv else .env s.env) ::
  (Wasi.setters .inheritStdin .stdinFile s.stdin ++
    (Wasi.setters .inheritStdout .stdoutFile s.stdout ++
      (Wasi.setters .inheritStderr .stderrFile s.stderr ++
        s.preopens.map fun d => .preopenDir d.host d.guest)))

namespace Wasi

variable {files : FileSystem} {c : Config} {s : WasiSettings}

/-! ## Calls up to the first that is refused -/

namespace Setter

theorem effects_cons (files : FileSystem) (s : Setter) (calls : List Setter) :
    effects files (s :: calls) = effects (s.effect files) calls := rfl

/-- Calls that are all possible make what happens when they are made by hand. -/
theorem performAll_of_allPossible {calls : List Setter} (h : AllPossible files calls) :
    performAll files c calls =
      (.ok ((calls.map Happening.set).foldl Happening.next (c, files)).1,
        effects files calls) := by
  induction calls generalizing files c with
  | nil => rfl
  | cons s rest ih =>
    obtain ⟨made, hmade⟩ := perform_of_possible c h.1
    have hfiles := effect_of_perform hmade
    have hrest := ih (c := made.1) h.2
    rw [← hfiles] at hrest
    rw [performAll, hmade, effects_cons, ← hfiles]
    simp only [hrest, List.map_cons, List.foldl_cons, Happening.next, hmade, Option.getD_some]

/-- The first call that is not possible is the one that the error names. -/
theorem performAll_of_not_possible {before after : List Setter} {s : Setter}
    (hbefore : AllPossible files before) (h : ¬s.Possible (effects files before)) :
    performAll files c (before ++ s :: after) =
      (.error (.wasi (.filesystem s.path s.operation)), effects files before) := by
  induction before generalizing files c with
  | nil =>
    have hnone : s.perform files c = none := perform_eq_none_iff.mpr h
    rw [List.nil_append, performAll, hnone]
    rfl
  | cons first rest ih =>
    obtain ⟨made, hmade⟩ := perform_of_possible c hbefore.1
    have hfiles := effect_of_perform hmade
    rw [effects_cons, ← hfiles] at h ⊢
    rw [List.cons_append, performAll, hmade]
    exact ih (hfiles ▸ hbefore.2) h

/-- Either all calls are possible, or there is a first that is not. -/
theorem allPossible_or_first (files : FileSystem) (calls : List Setter) :
    AllPossible files calls ∨ ∃ before s after, calls = before ++ s :: after ∧
      AllPossible files before ∧ ¬s.Possible (effects files before) := by
  induction calls generalizing files with
  | nil => exact .inl trivial
  | cons s rest ih =>
    by_cases hs : s.Possible files
    · rcases ih (s.effect files) with hall | ⟨before, first, after, rfl, hbefore, hfirst⟩
      · exact .inl ⟨hs, hall⟩
      · exact .inr ⟨s :: before, first, after, rfl, ⟨hs, hbefore⟩, hfirst⟩
    · exact .inr ⟨[], s, rest, rfl, trivial, hs⟩

end Setter

/-! ## Settings are calls -/

open Wasi.Setter

/-- The directories of settings are added one after the other. -/
theorem performAll_preopens (files : FileSystem) (c : Config) (ds : List PreopenSetting) :
    performAll files c (ds.map fun d => .preopenDir d.host d.guest) =
      (ds.foldlM (fun c d =>
        match Config.preopenDir files d.host d.guest c with
        | some c => .ok c
        | none => .error (Config.refusal d.host "preopen")) c, files) := by
  induction ds generalizing c with
  | nil => rfl
  | cons d ds ih =>
    rw [List.map_cons, performAll, List.foldlM_cons, Setter.perform]
    cases Config.preopenDir files d.host d.guest c with
    | some c' => exact ih c'
    | none => rfl

/-- The input of settings, in a configuration that has none. -/
theorem performAll_stdin (hc : c.stdin = .null) (setting : StdioSetting) (rest : List Setter) :
    performAll files c (setters .inheritStdin .stdinFile setting ++ rest) =
      match Config.inputOf files setting with
      | .error e => (.error e, files)
      | .ok stdin => performAll files { c with stdin } rest := by
  obtain ⟨args, inheritsArgs, env, inheritsEnv, stdin, stdout, stderr, preopens⟩ := c
  cases setting with
  | null =>
    cases hc
    rfl
  | inherit => rfl
  | file path =>
    rw [setters, List.singleton_append, performAll, Setter.perform, Config.stdinFile,
      Config.inputOf]
    cases files.bytesAt? path <;> rfl

/-- A stream of settings that is written to. The calls for it put it into the configuration by
`set`. -/
theorem performAll_written {inherit : Setter} {file : String → Setter} (set : Output → Config)
    (unset : set .null = c) (inherits : inherit.perform files c = some (set .inherit, files))
    (creates : ∀ path, (file path).perform files c =
      (files.create path).map fun (id, files) => (set (.file id 0), files))
    {operation : String} (names : ∀ path, (file path).path = path ∧
      (file path).operation = operation) (setting : StdioSetting) (rest : List Setter) :
    performAll files c (setters inherit file setting ++ rest) =
      match Config.outputOf files operation setting with
      | .error e => (.error e, files)
      | .ok (out, files) => performAll files (set out) rest := by
  cases setting with
  | null => exact congrArg (performAll files · rest) unset.symm
  | inherit => rw [setters, List.singleton_append, performAll, inherits, Config.outputOf]
  | file path =>
    rw [setters, List.singleton_append, performAll, creates, Config.outputOf, (names path).1,
      (names path).2]
    cases files.create path <;> rfl

/-- The output of settings, in a configuration that has none. -/
theorem performAll_stdout (hc : c.stdout = .null) (setting : StdioSetting) (rest : List Setter) :
    performAll files c (setters .inheritStdout .stdoutFile setting ++ rest) =
      match Config.outputOf files "stdout" setting with
      | .error e => (.error e, files)
      | .ok (stdout, files) => performAll files { c with stdout } rest :=
  performAll_written (fun stdout => { c with stdout }) (by rw [← hc]) (by rfl) (fun _ => by rfl)
    (fun _ => ⟨by rfl, by rfl⟩) setting rest

/-- The error output of settings, in a configuration that has none. -/
theorem performAll_stderr (hc : c.stderr = .null) (setting : StdioSetting) (rest : List Setter) :
    performAll files c (setters .inheritStderr .stderrFile setting ++ rest) =
      match Config.outputOf files "stderr" setting with
      | .error e => (.error e, files)
      | .ok (stderr, files) => performAll files { c with stderr } rest :=
  performAll_written (fun stderr => { c with stderr }) (by rw [← hc]) (by rfl) (fun _ => by rfl)
    (fun _ => ⟨by rfl, by rfl⟩) setting rest

/-- The arguments and the environment of settings, which are never refused. -/
def Config.started (s : WasiSettings) : Config :=
  { args := if s.inheritArgs then [] else s.args
    inheritsArgs := s.inheritArgs
    env := if s.inheritEnv then [] else s.env
    inheritsEnv := s.inheritEnv }

theorem performAll_started (files : FileSystem) (s : WasiSettings) (rest : List Setter) :
    performAll files {} ((if s.inheritArgs then .inheritArgv else .argv s.args) ::
      (if s.inheritEnv then .inheritEnv else .env s.env) :: rest) =
      performAll files (.started s) rest := by
  rw [Config.started]
  cases s.inheritArgs <;> cases s.inheritEnv <;> rfl

theorem started_eq (s : WasiSettings) :
    (let c : Config := if s.inheritArgs then Config.inheritArgv {} else Config.argv s.args {}
     if s.inheritEnv then c.inheritEnv else c.setEnv s.env) = .started s := by
  rw [Config.started]
  cases s.inheritArgs <;> cases s.inheritEnv <;> rfl

/-- Settings do what their calls do. -/
theorem ofSettings_eq (files : FileSystem) (s : WasiSettings) :
    Config.ofSettings files s = performAll files {} s.setters := by
  rw [WasiSettings.setters, performAll_started, performAll_stdin (by rfl), Config.ofSettings]
  simp only [started_eq]
  cases Config.inputOf files s.stdin with
  | error e => rfl
  | ok stdin =>
    dsimp only
    rw [performAll_stdout (by rfl)]
    cases Config.outputOf files "stdout" s.stdout with
    | error e => rfl
    | ok out =>
      dsimp only
      rw [performAll_stderr (by rfl)]
      cases Config.outputOf out.2 "stderr" s.stderr with
      | error e => rfl
      | ok err => exact (performAll_preopens err.2 _ s.preopens).symm

/-! ## When settings are followed -/

theorem Setter.allPossible_append {before after : List Setter} :
    AllPossible files (before ++ after) ↔
      AllPossible files before ∧ AllPossible (effects files before) after := by
  induction before generalizing files with
  | nil => simp [AllPossible, effects]
  | cons s before ih => simp only [List.cons_append, AllPossible, ih, effects_cons, and_assoc]

theorem Setter.allPossible_of_effectless {calls : List Setter}
    (h : ∀ s ∈ calls, s.effect files = files) :
    AllPossible files calls ↔ ∀ s ∈ calls, s.Possible files := by
  induction calls with
  | nil => simp [AllPossible]
  | cons s rest ih =>
    obtain ⟨hs, hrest⟩ := List.forall_mem_cons.mp h
    rw [AllPossible, hs, ih hrest, List.forall_mem_cons]

/-- The calls for a stream are possible if the file that it is redirected to is. -/
theorem allPossible_setters {inherit : Setter} {file : String → Setter}
    (hinherit : inherit.Possible files) (setting : StdioSetting) :
    AllPossible files (setters inherit file setting) ↔
      ∀ path, setting = .file path → (file path).Possible files := by
  cases setting <;> simp [setters, AllPossible, hinherit]

theorem allPossible_iff_available (files : FileSystem) (s : WasiSettings) :
    AllPossible files s.setters ↔ s.Available files := by
  have hargs : (if s.inheritArgs then Setter.inheritArgv else .argv s.args).Possible files ∧
      (if s.inheritArgs then Setter.inheritArgv else .argv s.args).effect files = files := by
    split <;> exact ⟨trivial, rfl⟩
  have henv : (if s.inheritEnv then Setter.inheritEnv else .env s.env).Possible files ∧
      (if s.inheritEnv then Setter.inheritEnv else .env s.env).effect files = files := by
    split <;> exact ⟨trivial, rfl⟩
  have hstdin : effects files (setters .inheritStdin .stdinFile s.stdin) = files := by
    cases s.stdin <;> rfl
  have hstdout : effects files (setters .inheritStdout .stdoutFile s.stdout) =
      opened files s.stdout := by
    cases s.stdout <;> rfl
  have hstderr (files : FileSystem) :
      effects files (setters .inheritStderr .stderrFile s.stderr) = opened files s.stderr := by
    cases s.stderr <;> rfl
  have hinherit (files : FileSystem) : Setter.inheritStdin.Possible files ∧
      Setter.inheritStdout.Possible files ∧ Setter.inheritStderr.Possible files :=
    ⟨trivial, trivial, trivial⟩
  have hpreopens (files : FileSystem) :
      AllPossible files (s.preopens.map fun d => Setter.preopenDir d.host d.guest) ↔
        ∀ d ∈ s.preopens, files.HasDirectory d.host := by
    rw [allPossible_of_effectless (by simp [Setter.effect]), List.forall_mem_map]
    rfl
  simp only [WasiSettings.setters, AllPossible, hargs, henv, true_and, allPossible_append, hstdin,
    hstdout, hstderr, hpreopens, allPossible_setters (hinherit _).1,
    allPossible_setters (hinherit _).2.1, allPossible_setters (hinherit _).2.2]
  constructor
  · rintro ⟨stdin, stdout, stderr, preopens⟩
    exact ⟨stdin, stdout, stderr, preopens⟩
  · intro h
    exact ⟨h.stdin, h.stdout, h.stderr, h.preopens⟩

/-- Whatever file is opened for writing, nothing else becomes possible or impossible to open: what
is available can be told from the files as they are in the beginning. -/
theorem available_iff_at_start (files : FileSystem) (s : WasiSettings) :
    s.Available files ↔ (∀ path, s.stdin = .file path → files.HasFile path) ∧
      (∀ path, s.stdout = .file path ∨ s.stderr = .file path → files.CanCreate path) ∧
      ∀ d ∈ s.preopens, files.HasDirectory d.host := by
  have hcreated (files : FileSystem) (path path' : String) :
      ((files.created path).CanCreate path' ↔ files.CanCreate path') ∧
        ((files.created path).HasDirectory path' ↔ files.HasDirectory path') := by
    rw [FileSystem.created]
    cases hcreate : files.create path with
    | none => exact ⟨Iff.rfl, Iff.rfl⟩
    | some opened =>
      exact ⟨FileSystem.canCreate_create hcreate, FileSystem.hasDirectory_create hcreate⟩
  have hopened (files : FileSystem) (setting : StdioSetting) (path : String) :
      ((opened files setting).CanCreate path ↔ files.CanCreate path) ∧
        ((opened files setting).HasDirectory path ↔ files.HasDirectory path) := by
    cases setting with
    | null | inherit => exact ⟨Iff.rfl, Iff.rfl⟩
    | file p => exact hcreated files p path
  constructor
  · intro h
    refine ⟨h.stdin, ?_, fun d hd => ?_⟩
    · rintro path (hout | herr)
      · exact h.stdout path hout
      · exact (hopened files _ path).1.mp (h.stderr path herr)
    · exact (hopened files _ _).2.mp ((hopened _ _ _).2.mp (h.preopens d hd))
  · rintro ⟨hin, hout, hdirs⟩
    exact ⟨hin, fun path h => hout path (.inl h),
      fun path h => (hopened files _ path).1.mpr (hout path (.inr h)),
      fun d hd => (hopened _ _ _).2.mpr ((hopened files _ _).2.mpr (hdirs d hd))⟩

/-! ## What settings make -/

/-- Directories are added in the order in which they are listed. -/
theorem preopens_of_performAll {ds : List PreopenSetting} {c' : Config}
    (h : (performAll files c (ds.map fun d => .preopenDir d.host d.guest)).1 = .ok c') :
    c' = { c with preopens := c.preopens ++ ds.map fun d => (d.host, d.guest) } := by
  induction ds generalizing c with
  | nil =>
    cases h
    simp
  | cons d ds ih =>
    rw [List.map_cons, performAll, Setter.perform, Config.preopenDir] at h
    by_cases hdir : files.isDirectory d.host
    · simp only [hdir, if_true, Option.map_some] at h
      simpa using ih h
    · simp [hdir] at h

/-- Everything but the streams, which calls by hand set as well, is taken from the settings as it
is. -/
theorem of_ofSettings (h : (Config.ofSettings files s).1 = .ok c) :
    ∃ stdin stdout stderr, c = { Config.started s with
      stdin, stdout, stderr, preopens := s.preopens.map fun d => (d.host, d.guest) } := by
  rw [Config.ofSettings] at h
  simp only [started_eq] at h
  cases hin : Config.inputOf files s.stdin with
  | error e => simp [hin] at h
  | ok stdin =>
    cases hout : Config.outputOf files "stdout" s.stdout with
    | error e => simp [hin, hout] at h
    | ok out =>
      cases herr : Config.outputOf out.2 "stderr" s.stderr with
      | error e => simp [hin, hout, herr] at h
      | ok err =>
        simp only [hin, hout, herr] at h
        have hlast : (performAll err.2
            { Config.started s with stdin, stdout := out.1, stderr := err.1 }
            (s.preopens.map fun d => .preopenDir d.host d.guest)).1 = .ok c := by
          rw [performAll_preopens]
          exact h
        exact ⟨stdin, out.1, err.1, preopens_of_performAll hlast⟩

/-- A configuration comes from settings exactly if all files and directories that they name are
available when it is their turn; it is the one that the calls of the setters make by hand. Otherwise
the error names the path and the purpose of the first call that is refused, and the files are as the
calls before it left them. What is inherited replaces what is listed, the environment is in rising
order of the names, and directories are in the order of the list. -/
theorem settings_configure_as_by_hand (files : FileSystem) (s : WasiSettings) (sorted : s.Fits) :
    ((∃ c, (Config.ofSettings files s).1 = .ok c) ↔ s.Available files) ∧
    (∀ e, (Config.ofSettings files s).1 = .error e ↔
      ∃ before call after, s.setters = before ++ call :: after ∧ AllPossible files before ∧
        ¬call.Possible (effects files before) ∧
        e = .wasi (.filesystem call.path call.operation)) ∧
    (∀ before call after, s.setters = before ++ call :: after → AllPossible files before →
      ¬call.Possible (effects files before) →
        (Config.ofSettings files s).2 = effects files before) ∧
    ∀ c, (Config.ofSettings files s).1 = .ok c →
      (c, (Config.ofSettings files s).2) = Config.made files (s.setters.map .set) ∧
      c.inheritsArgs = s.inheritArgs ∧ c.args = (if s.inheritArgs then [] else s.args) ∧
      c.inheritsEnv = s.inheritEnv ∧ c.env = (if s.inheritEnv then [] else s.env) ∧
      Datum.Sorted c.env ∧ c.preopens = s.preopens.map fun d => (d.host, d.guest) := by
  have hmade (h : AllPossible files s.setters) := performAll_of_allPossible (c := {}) h
  rw [← ofSettings_eq] at hmade
  have hrefused {before after : List Setter} {call : Setter}
      (hsplit : s.setters = before ++ call :: after) (hbefore : AllPossible files before)
      (hcall : ¬call.Possible (effects files before)) :
      Config.ofSettings files s =
        (.error (.wasi (.filesystem call.path call.operation)), effects files before) := by
    rw [ofSettings_eq, hsplit]
    exact performAll_of_not_possible hbefore hcall
  have hcases := allPossible_or_first files s.setters
  refine ⟨?_, fun e => ⟨fun he => ?_, ?_⟩, fun before call after hsplit hbefore hcall => ?_,
    fun c hc => ?_⟩
  · rw [← allPossible_iff_available]
    constructor
    · rintro ⟨c, hc⟩
      refine hcases.resolve_right ?_
      rintro ⟨before, call, after, hsplit, hbefore, hcall⟩
      rw [hrefused hsplit hbefore hcall] at hc
      cases hc
    · intro hall
      exact ⟨_, congrArg Prod.fst (hmade hall)⟩
  · rcases hcases with hall | ⟨before, call, after, hsplit, hbefore, hcall⟩
    · rw [hmade hall] at he
      cases he
    · rw [hrefused hsplit hbefore hcall] at he
      cases he
      exact ⟨before, call, after, hsplit, hbefore, hcall, rfl⟩
  · rintro ⟨before, call, after, hsplit, hbefore, hcall, rfl⟩
    exact congrArg Prod.fst (hrefused hsplit hbefore hcall)
  · exact congrArg Prod.snd (hrefused hsplit hbefore hcall)
  · obtain ⟨stdin, stdout, stderr, hshape⟩ := of_ofSettings hc
    refine ⟨?_, ?_⟩
    · have hall : AllPossible files s.setters := by
        refine hcases.resolve_right ?_
        rintro ⟨before, call, after, hsplit, hbefore, hcall⟩
        rw [hrefused hsplit hbefore hcall] at hc
        cases hc
      have hfiles : (Config.made files (s.setters.map .set)).2 = effects files s.setters := by
        rw [Config.made_files, List.foldl_map]
        rfl
      rw [hmade hall] at hc ⊢
      cases hc
      rw [← hfiles]
      rfl
    · subst hshape
      refine ⟨rfl, rfl, rfl, rfl, ?_, rfl⟩
      show Datum.Sorted (if s.inheritEnv then [] else s.env)
      split
      · exact .nil
      · exact sorted

/-- Settings with an input and a directory that are not there. -/
def misplaced : WasiSettings :=
  { env := [("HOME", "/"), ("USER", "guest")], stdin := .file "in"
    preopens := [{ host := "data", guest := "/" }] }

theorem misplaced_input_is_named :
    misplaced.Fits ∧ (Config.ofSettings ⟨[], #[]⟩ misplaced).1 =
      .error (.wasi (.filesystem "in" "stdin")) := by
  have sorted : misplaced.Fits := List.pairwise_pair.mpr (by decide)
  have hempty : ¬FileSystem.HasFile ⟨[], #[]⟩ "in" := by
    rintro ⟨id, hid⟩
    obtain ⟨place, -, hplace⟩ := Option.bind_eq_some_iff.mp hid
    cases hplace
  exact ⟨sorted, ((settings_configure_as_by_hand ⟨[], #[]⟩ misplaced sorted).2.1 _).mpr
    ⟨[.argv [], .env misplaced.env], .stdinFile "in", [.preopenDir "data" "/"], rfl,
      ⟨trivial, trivial, trivial⟩, hempty, rfl⟩⟩

end Wasi

end WasmHost

import WasmHost.Proofs.Engine.Setters

/-!
# Settings as calls of setters

Settings stand for one call of each setter that they have something for. The calls are made in an
order of which nothing is left in the configuration; only of the calls that may be refused the first
one says why. With this the law of setters is complete: `last_accepted_calls_decide`.
-/

namespace WasmHost

/-- The code cache that settings ask for. -/
def CacheSettings.source? (s : CacheSettings) (files : FileSystem) (cacheFault : Option String) :
    Option CacheSource :=
  if s.enabled then
    match s.configPath with
    | some path => some (.file files path)
    | none => some (.platform cacheFault)
  else none

/-- What settings have for a setter. -/
def EngineSettings.arg? (s : EngineSettings) (files : FileSystem) (cacheFault : Option String) :
    (x : Setter) → Option x.Arg
  | .debugInfo => some s.debugInfo
  | .consumeFuel => some s.consumeFuel
  | .interruptable => some s.interruptable
  | .maxWasmStack => s.maxWasmStack
  | .staticMemoryMaximumSize => s.staticMemoryMaximumSize
  | .staticMemoryGuardSize => s.staticMemoryGuardSize
  | .dynamicMemoryGuardSize => s.dynamicMemoryGuardSize
  | .threads => some s.features.threads
  | .referenceTypes => some s.features.referenceTypes
  | .simd => some s.features.simd
  | .bulkMemory => some s.features.bulkMemory
  | .multiValue => some s.features.multiValue
  | .strategy => some s.strategy
  | .debugVerifier => some s.debugVerifier
  | .optLevel => some s.optLevel
  | .profiler => some s.profiler
  | .cache => s.cache.source? files cacheFault
  | .pooling => s.pooling.map some

/-- The calls make one accepted call of each setter that the settings have something for, with just
that, and no other. -/
def EngineSettings.MadeBy (s : EngineSettings) (files : FileSystem) (cacheFault : Option String)
    (calls : List SetterCall) : Prop :=
  ∀ x, calls.filter (fun call => call.isAccepted ∧ call.setter = x) =
    (s.arg? files cacheFault x).toList.map (⟨x, ·⟩)

/-- Whether what the settings have for each setter is accepted. -/
def EngineSettings.Acceptable (s : EngineSettings) (files : FileSystem)
    (cacheFault : Option String) : Prop :=
  ∀ x, ∀ a ∈ s.arg? files cacheFault x, SetterCall.isAccepted ⟨x, a⟩

/-- What settings have for the setters that accept everything. -/
def EngineSettings.plainArg? (s : EngineSettings) (files : FileSystem)
    (cacheFault : Option String) : (x : Setter) → Option x.Arg
  | .strategy | .profiler | .cache => none
  | x => s.arg? files cacheFault x

/-- What settings have for the setters that accept everything and take no size. -/
def EngineSettings.sizelessArg? (s : EngineSettings) (files : FileSystem)
    (cacheFault : Option String) : (x : Setter) → Option x.Arg
  | .maxWasmStack | .staticMemoryMaximumSize | .staticMemoryGuardSize | .dynamicMemoryGuardSize =>
    none
  | x => s.plainArg? files cacheFault x

namespace Config

/-- A setter is called if a setting is given. `o'` is the setting as an argument of the setter. -/
theorem setIf_ofLast (x : Setter) {arg : Nat → x.Arg} {set : Nat → Config → Config}
    {last : (x : Setter) → Option x.Arg}
    (hset : ∀ n, set n (ofLast last) = ofLast (Function.update last x (some (arg n))))
    (hnone : last x = none) {o : Option Nat} {o' : Option x.Arg} (ho : o.map arg = o') :
    setIf set o (ofLast last) = ofLast (Function.update last x o') := by
  cases o with
  | none => rw [setIf, ← ho, Option.map_none, ← hnone, Function.update_eq_self]
  | some n => rw [setIf, ← ho, hset, Option.map_some]

end Config

/-- The calls of settings that may be refused, in the order in which they are made. -/
def EngineSettings.checkedCalls (s : EngineSettings) (files : FileSystem)
    (cacheFault : Option String) : List SetterCall :=
  ⟨.strategy, s.strategy⟩ :: ⟨.profiler, s.profiler⟩ ::
    match s.cache.source? files cacheFault with
    | some source => [⟨.cache, source⟩]
    | none => []

namespace Config

/-- Calls one after the other, up to the first that is refused. -/
def performAll (c : Config) (calls : List SetterCall) : Except Error Config :=
  calls.foldlM (fun c call => call.perform c) c

theorem performAll_of_isAccepted {calls : List SetterCall} (h : ∀ call ∈ calls, call.isAccepted)
    (last : (s : Setter) → Option s.Arg) :
    performAll (ofLast last) calls = .ok (ofLast
      (calls.foldl (fun last call => Function.update last call.setter (some call.arg)) last)) := by
  induction calls generalizing last with
  | nil => rfl
  | cons call calls ih =>
    rw [List.forall_mem_cons] at h
    rw [performAll, List.foldlM_cons, call.perform_ofLast h.1]
    exact ih h.2 _

theorem sizeless_eq (files : FileSystem) (s : EngineSettings) (cacheFault : Option String) :
    (Config.pooling s.pooling <| optLevel s.optLevel <| debugVerifier s.debugVerifier <|
      multiValue s.features.multiValue <| bulkMemory s.features.bulkMemory <|
      simd s.features.simd <| referenceTypes s.features.referenceTypes <|
      threads s.features.threads <| interruptable s.interruptable <|
      consumeFuel s.consumeFuel <| debugInfo s.debugInfo {}) =
      ofLast (s.sizelessArg? files cacheFault) := by
  cases hp : s.pooling <;>
    simp only [ofLast, EngineSettings.sizelessArg?, EngineSettings.plainArg?, EngineSettings.arg?,
      hp] <;> rfl

theorem sizes_eq (files : FileSystem) (s : EngineSettings) (cacheFault : Option String) :
    (setIf dynamicMemoryGuardSize s.dynamicMemoryGuardSize <|
      setIf staticMemoryGuardSize s.staticMemoryGuardSize <|
      setIf staticMemoryMaximumSize s.staticMemoryMaximumSize <|
      setIf maxWasmStack s.maxWasmStack <| ofLast (s.sizelessArg? files cacheFault)) =
      ofLast (s.plainArg? files cacheFault) := by
  have hid (o : Option Nat) : o.map id = o := congrFun Option.map_id o
  rw [setIf_ofLast .maxWasmStack (fun _ => rfl) rfl (hid _),
    setIf_ofLast .staticMemoryMaximumSize (fun _ => rfl) rfl (hid _),
    setIf_ofLast .staticMemoryGuardSize
      (fun n => Except.ok.inj (SetterCall.perform_ofLast ⟨.staticMemoryGuardSize, n⟩ rfl _)) rfl
      (hid _),
    setIf_ofLast .dynamicMemoryGuardSize
      (fun n => Except.ok.inj (SetterCall.perform_ofLast ⟨.dynamicMemoryGuardSize, n⟩ rfl _)) rfl
      (hid _)]
  rfl

/-- What settings come to: what cannot be refused is set, and then the rest is tried in order. -/
theorem ofSettings_eq (files : FileSystem) (s : EngineSettings) (cacheFault : Option String) :
    ofSettings files s cacheFault =
      performAll (ofLast (s.plainArg? files cacheFault)) (s.checkedCalls files cacheFault) := by
  rw [ofSettings, sizeless_eq files s cacheFault, sizes_eq]
  unfold EngineSettings.checkedCalls CacheSettings.source? performAll
  cases s.cache.enabled with
  | false => rfl
  | true =>
    cases s.cache.configPath <;>
      exact bind_congr fun _ => bind_congr fun _ => (bind_pure _).symm

theorem mem_checkedCalls {s : EngineSettings} {files : FileSystem} {cacheFault : Option String}
    {call : SetterCall} : call ∈ s.checkedCalls files cacheFault ↔ call = ⟨.strategy, s.strategy⟩ ∨
      call = ⟨.profiler, s.profiler⟩ ∨
      ∃ source, s.cache.source? files cacheFault = some source ∧ call = ⟨.cache, source⟩ := by
  rw [EngineSettings.checkedCalls, List.mem_cons, List.mem_cons]
  cases s.cache.source? files cacheFault <;> simp

theorem acceptable_iff (s : EngineSettings) (files : FileSystem) (cacheFault : Option String) :
    s.Acceptable files cacheFault ↔
      ∀ call ∈ s.checkedCalls files cacheFault, call.isAccepted := by
  constructor
  · intro h call hcall
    rcases mem_checkedCalls.mp hcall with rfl | rfl | ⟨source, hsource, rfl⟩
    · exact h .strategy _ rfl
    · exact h .profiler _ rfl
    · exact h .cache source hsource
  · intro h x a ha
    cases x with
    | strategy => cases ha; exact h _ (mem_checkedCalls.mpr (.inl rfl))
    | profiler => cases ha; exact h _ (mem_checkedCalls.mpr (.inr (.inl rfl)))
    | cache => exact h _ (mem_checkedCalls.mpr (.inr (.inr ⟨a, ha, rfl⟩)))
    | _ => rfl

/-- Acceptable settings make what they have for each setter. -/
theorem ofSettings_of_acceptable {files : FileSystem} {s : EngineSettings}
    {cacheFault : Option String} (h : s.Acceptable files cacheFault) :
    ofSettings files s cacheFault = .ok (ofLast (s.arg? files cacheFault)) := by
  rw [ofSettings_eq, performAll_of_isAccepted ((acceptable_iff s files cacheFault).mp h)]
  unfold EngineSettings.checkedCalls
  cases hsource : s.cache.source? files cacheFault <;>
    simp only [ofLast, EngineSettings.arg?, hsource] <;> rfl

theorem performAll_error {calls : List SetterCall} (h : ¬∀ call ∈ calls, call.isAccepted)
    (last : (s : Setter) → Option s.Arg) :
    ∃ reason, performAll (ofLast last) calls = .error (.invalidConfig reason) := by
  induction calls generalizing last with
  | nil => exact absurd (fun _ hm => nomatch hm) h
  | cons call calls ih =>
    cases ha : call.isAccepted with
    | true =>
      rw [List.forall_mem_cons, ha, eq_self, true_and] at h
      obtain ⟨reason, hrest⟩ := ih h (Function.update last call.setter (some call.arg))
      refine ⟨reason, ?_⟩
      rw [performAll, List.foldlM_cons, call.perform_ofLast ha]
      exact hrest
    | false =>
      obtain ⟨reason, hrefused⟩ := call.perform_of_not_isAccepted ha
      refine ⟨reason, ?_⟩
      rw [performAll, List.foldlM_cons, hrefused]
      rfl

theorem ofSettings_of_not_acceptable {files : FileSystem} {s : EngineSettings}
    {cacheFault : Option String} (h : ¬s.Acceptable files cacheFault) :
    ∃ reason, ofSettings files s cacheFault = .error (.invalidConfig reason) := by
  rw [ofSettings_eq]
  exact performAll_error (mt (acceptable_iff s files cacheFault).mpr h) _

end Config

theorem EngineSettings.MadeBy.acceptable {s : EngineSettings} {files : FileSystem}
    {cacheFault : Option String} {calls : List SetterCall} (h : s.MadeBy files cacheFault calls) :
    s.Acceptable files cacheFault := by
  intro x a ha
  have hmem : (⟨x, a⟩ : SetterCall) ∈
      calls.filter fun call => call.isAccepted ∧ call.setter = x := by
    rw [h x, Option.mem_def.mp ha]
    exact List.mem_singleton.mpr rfl
  exact (of_decide_eq_true (List.mem_filter.mp hmem).2).1

/-- A configuration is what was last accepted of each setter, the guard size being the larger of two
of them; so a refused call may be left out and neighbouring calls of different setters exchanged. An
engine made of it says of fuel and of interrupts what its options say. Settings stand for one call
of each setter that they have something for, in any order. -/
theorem last_accepted_calls_decide (calls : List SetterCall) :
    Config.ofCalls calls = .ofLast (lastArg calls) ∧
    (∀ (call : SetterCall) (c : Config),
      (∃ e, call.perform c = .error e) ↔ call.isAccepted = false) ∧
    (∀ before call after, calls = before ++ call :: after → call.isAccepted = false →
      Config.ofCalls calls = .ofCalls (before ++ after)) ∧
    (∀ before call call' after, calls = before ++ call :: call' :: after →
      call.setter ≠ call'.setter →
      Config.ofCalls calls = .ofCalls (before ++ call' :: call :: after)) ∧
    (∀ id e, Engine.make id (.ofCalls calls) = .ok e →
      e.options = (Config.ofCalls calls).options ∧ e.consumesFuel = e.options.consumeFuel ∧
      e.isInterruptable = e.options.epochInterruption) ∧
    ∀ files s cacheFault,
      ((∃ c, Config.ofSettings files s cacheFault = .ok c) ↔ s.Acceptable files cacheFault) ∧
      (s.MadeBy files cacheFault calls →
        Config.ofSettings files s cacheFault = .ok (.ofCalls calls)) := by
  refine ⟨Config.ofCalls_eq calls, fun call c => ⟨?_, ?_⟩, ?_, ?_, ?_, fun files s cacheFault =>
    ⟨⟨?_, ?_⟩, ?_⟩⟩
  · rintro ⟨e, he⟩
    by_contra h
    obtain ⟨c', hc'⟩ := call.perform_of_isAccepted (Bool.not_eq_false _ ▸ h) c
    cases hc'.symm.trans he
  · intro h
    obtain ⟨reason, hrefused⟩ := call.perform_of_not_isAccepted h
    exact ⟨_, hrefused c⟩
  · rintro before call after rfl h
    exact Config.ofCalls_without_refused h before after
  · rintro before call call' after rfl h
    exact Config.ofCalls_comm h before after
  · intro id e he
    rw [Config.ofCalls_eq, Engine.make] at he
    split at he
    · cases he
    · cases he
      exact ⟨by rw [Config.ofCalls_eq], rfl, rfl⟩
  · rintro ⟨c, hc⟩
    by_contra hnot
    obtain ⟨reason, hrefused⟩ := Config.ofSettings_of_not_acceptable hnot
    cases hrefused.symm.trans hc
  · exact fun h => ⟨_, Config.ofSettings_of_acceptable h⟩
  · intro h
    have hlast : lastArg calls = s.arg? files cacheFault := funext fun x => lastArg_of_filter (h x)
    rw [Config.ofSettings_of_acceptable h.acceptable, Config.ofCalls_eq, hlast]

/-- Settings with two guard sizes, the calls that make them in an order of their own, and a strategy
in front that is not there. -/
theorem guard_sizes_in_any_order :
    let s : EngineSettings :=
      { consumeFuel := true, staticMemoryGuardSize := some 4096,
        dynamicMemoryGuardSize := some 65536 }
    let refused : SetterCall := ⟨.strategy, Strategy.winch⟩
    let guards : List SetterCall :=
      [⟨.dynamicMemoryGuardSize, (65536 : Nat)⟩, ⟨.staticMemoryGuardSize, (4096 : Nat)⟩]
    let others : List SetterCall :=
      [⟨.profiler, Profiler.none⟩, ⟨.consumeFuel, true⟩, ⟨.strategy, Strategy.auto⟩,
        ⟨.threads, false⟩, ⟨.debugInfo, false⟩, ⟨.simd, true⟩, ⟨.interruptable, false⟩,
        ⟨.referenceTypes, true⟩, ⟨.optLevel, OptLevel.speed⟩, ⟨.multiValue, true⟩,
        ⟨.bulkMemory, true⟩, ⟨.debugVerifier, false⟩]
    let calls := refused :: guards ++ others
    (Config.ofCalls calls).options.memoryGuardSize = 65536 ∧
    refused.isAccepted = false ∧ Config.ofCalls calls = .ofCalls (guards ++ others) ∧
    Config.ofCalls calls = .ofCalls (refused :: guards.reverse ++ others) ∧
    (∃ e, Engine.make 0 (.ofCalls calls) = .ok e ∧ e.consumesFuel = true ∧
      e.options.consumeFuel = true) ∧
    s.MadeBy (.ofDirectories []) none calls ∧
    Config.ofSettings (.ofDirectories []) s = .ok (.ofCalls calls) := by
  intro s refused guards others calls
  obtain ⟨hlast, -, hrefused, hcomm, hengine, hsettings⟩ := last_accepted_calls_decide calls
  have hmade : Engine.make 0 (.ofCalls calls) =
      .ok ⟨0, (Config.ofCalls calls).options, true, false⟩ := rfl
  obtain ⟨-, hfuel, -⟩ := hengine 0 _ hmade
  have hby : s.MadeBy (.ofDirectories []) none calls := by
    intro x
    cases x <;> rfl
  exact ⟨by rw [hlast]; rfl, rfl, hrefused [] refused _ rfl rfl,
    hcomm [refused] _ _ others rfl (by decide), ⟨_, hmade, rfl, hfuel.symm⟩, hby,
    (hsettings _ s none).2 hby⟩

end WasmHost

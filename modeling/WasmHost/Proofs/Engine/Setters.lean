import Mathlib.Data.List.Induction
import Mathlib.Logic.Function.Basic
import WasmHost.Engine

/-!
# Setters of a configuration

A configuration is made by calls of its setters, one after the other, some of which are refused.
What it is in the end is said without going through the calls: each option is the argument of the
last accepted call of its setter, or the default, and the guard size is the larger of two such
arguments. That refused calls may be left out and calls of different setters exchanged
follows from it.
-/

namespace WasmHost

/-- What can be set. There are two ways to load a code cache, which set the same option. -/
inductive Setter where
  | debugInfo | consumeFuel | interruptable
  | maxWasmStack | staticMemoryMaximumSize | staticMemoryGuardSize | dynamicMemoryGuardSize
  | threads | referenceTypes | simd | bulkMemory | multiValue
  | strategy | debugVerifier | optLevel | profiler | cache | pooling
deriving DecidableEq

/-- Where a code cache comes from: from the platform, which may have a reason against it, or from a
file, as the file system is at the time of the call. -/
inductive CacheSource where
  | platform (fault : Option String)
  | file (files : FileSystem) (path : String)

/-- The strategies that code can be compiled by. -/
def Strategy.isAvailable : Strategy → Bool
  | auto | cranelift => true
  | winch => false

/-- The profilers that can be told about code. -/
def Profiler.isAvailable : Profiler → Bool
  | none | perfMap => true
  | jitDump | vTune => false

/-- Whether a code cache can be loaded. -/
def CacheSource.isAvailable : CacheSource → Bool
  | platform fault => fault.isNone
  | file files path => (files.readText path).toOption.any Config.isCacheFile

/-- The choice that a source of a code cache stands for. -/
def CacheSource.choice : CacheSource → CacheChoice
  | platform _ => .standard
  | file _ path => .file path

/-- What a setter takes. -/
def Setter.Arg : Setter → Type
  | debugInfo | consumeFuel | interruptable => Bool
  | maxWasmStack | staticMemoryMaximumSize | staticMemoryGuardSize | dynamicMemoryGuardSize => Nat
  | threads | referenceTypes | simd | bulkMemory | multiValue => Bool
  | strategy => Strategy
  | debugVerifier => Bool
  | optLevel => OptLevel
  | profiler => Profiler
  | cache => CacheSource
  | pooling => Option PoolingSettings

/-- A call of a setter. -/
structure SetterCall where
  setter : Setter
  arg : setter.Arg

namespace SetterCall

/-- The configuration that a call makes of another one, or why it is refused. -/
def perform : SetterCall → Config → Except Error Config
  | ⟨.debugInfo, b⟩, c => .ok (c.debugInfo b)
  | ⟨.consumeFuel, b⟩, c => .ok (c.consumeFuel b)
  | ⟨.interruptable, b⟩, c => .ok (c.interruptable b)
  | ⟨.maxWasmStack, n⟩, c => .ok (c.maxWasmStack n)
  | ⟨.staticMemoryMaximumSize, n⟩, c => .ok (c.staticMemoryMaximumSize n)
  | ⟨.staticMemoryGuardSize, n⟩, c => .ok (c.staticMemoryGuardSize n)
  | ⟨.dynamicMemoryGuardSize, n⟩, c => .ok (c.dynamicMemoryGuardSize n)
  | ⟨.threads, b⟩, c => .ok (c.threads b)
  | ⟨.referenceTypes, b⟩, c => .ok (c.referenceTypes b)
  | ⟨.simd, b⟩, c => .ok (c.simd b)
  | ⟨.bulkMemory, b⟩, c => .ok (c.bulkMemory b)
  | ⟨.multiValue, b⟩, c => .ok (c.multiValue b)
  | ⟨.strategy, s⟩, c => c.strategy s
  | ⟨.debugVerifier, b⟩, c => .ok (c.debugVerifier b)
  | ⟨.optLevel, l⟩, c => .ok (c.optLevel l)
  | ⟨.profiler, p⟩, c => c.profiler p
  | ⟨.cache, .platform fault⟩, c => c.cacheLoadDefault fault
  | ⟨.cache, .file files path⟩, c => c.cacheLoad files path
  | ⟨.pooling, p⟩, c => .ok (c.pooling p)

/-- Whether a call is accepted, which does not depend on the calls before it. -/
def isAccepted : SetterCall → Bool
  | ⟨.strategy, s⟩ => s.isAvailable
  | ⟨.profiler, p⟩ => p.isAvailable
  | ⟨.cache, source⟩ => source.isAvailable
  | _ => true

/-- The argument of an accepted call of a setter. -/
def arg? (s : Setter) (call : SetterCall) : Option s.Arg :=
  if h : call.setter = s then if call.isAccepted then some (h ▸ call.arg) else none else none

end SetterCall

/-- The argument of the last accepted call of a setter. -/
def lastArg (calls : List SetterCall) (s : Setter) : Option s.Arg :=
  calls.reverse.findSome? (SetterCall.arg? s)

namespace Config

/-- A configuration after a call. One that is refused changes nothing. -/
def set (c : Config) (call : SetterCall) : Config :=
  match call.perform c with
  | .ok c' => c'
  | .error _ => c

/-- The configuration that calls make, one after the other. -/
def ofCalls (calls : List SetterCall) : Config := calls.foldl set {}

/-- The guard size from what its two setters last asked for. -/
def guardSize : Option Nat → Option Nat → Nat
  | none, none => ({} : EngineOptions).memoryGuardSize
  | some n, none => n
  | none, some n => n
  | some n, some m => max n m

/-- The configuration in which every option is what was last asked for, or its default. -/
def ofLast (last : (s : Setter) → Option s.Arg) : Config :=
  let d : EngineOptions := {}
  { options :=
      { debugInfo := (last .debugInfo).getD d.debugInfo
        consumeFuel := (last .consumeFuel).getD d.consumeFuel
        epochInterruption := (last .interruptable).getD d.epochInterruption
        maxWasmStack := (last .maxWasmStack).getD d.maxWasmStack
        memoryReservation := (last .staticMemoryMaximumSize).getD d.memoryReservation
        memoryGuardSize :=
          guardSize (last .staticMemoryGuardSize) (last .dynamicMemoryGuardSize)
        threads := (last .threads).getD d.threads
        referenceTypes := (last .referenceTypes).getD d.referenceTypes
        simd := (last .simd).getD d.simd
        relaxedSimd := d.relaxedSimd
        bulkMemory := (last .bulkMemory).getD d.bulkMemory
        multiValue := (last .multiValue).getD d.multiValue
        strategy := (last .strategy).getD d.strategy
        optLevel := (last .optLevel).getD d.optLevel
        debugVerifier := (last .debugVerifier).getD d.debugVerifier
        profiler := (last .profiler).getD d.profiler
        cache := (last .cache).elim d.cache CacheSource.choice
        pooling := (last .pooling).getD d.pooling }
    consumesFuel := (last .consumeFuel).getD false
    isInterruptable := (last .interruptable).getD false
    staticGuard := last .staticMemoryGuardSize
    dynamicGuard := last .dynamicMemoryGuardSize }

end Config

/-! ## One call -/

namespace SetterCall

theorem strategy_of_isAvailable {x : Strategy} (h : x.isAvailable) (c : Config) :
    c.strategy x = .ok (c.withOptions ({ · with strategy := x })) := by
  cases x with
  | auto | cranelift => rfl
  | winch => cases h

theorem profiler_of_isAvailable {p : Profiler} (h : p.isAvailable) (c : Config) :
    c.profiler p = .ok (c.withOptions ({ · with profiler := p })) := by
  cases p with
  | none | perfMap => rfl
  | jitDump | vTune => cases h

theorem cache_of_isAvailable {source : CacheSource} (h : source.isAvailable) (c : Config) :
    perform ⟨.cache, source⟩ c = .ok (c.withOptions ({ · with cache := source.choice })) := by
  cases source with
  | platform fault =>
    cases fault with
    | none => rfl
    | some reason => cases h
  | file files path => exact if_pos h

/-- After its guard sizes are set, a configuration takes the larger of them, or the one there is. -/
theorem applyGuardSize_eq {c : Config} (h : c.staticGuard.isSome ∨ c.dynamicGuard.isSome) :
    c.applyGuardSize = c.withOptions
      ({ · with memoryGuardSize := Config.guardSize c.staticGuard c.dynamicGuard }) := by
  have hlarger : Config.larger c.staticGuard c.dynamicGuard =
      some (Config.guardSize c.staticGuard c.dynamicGuard) := by
    cases hs : c.staticGuard with
    | some n => cases c.dynamicGuard <;> rfl
    | none =>
      cases hd : c.dynamicGuard with
      | some n => rfl
      | none => simp [hs, hd] at h
  rw [Config.applyGuardSize, hlarger]

/-- An accepted call replaces what was last asked for of its setter. -/
theorem perform_ofLast (call : SetterCall) (h : call.isAccepted)
    (last : (s : Setter) → Option s.Arg) :
    call.perform (.ofLast last) =
      .ok (.ofLast (Function.update last call.setter (some call.arg))) := by
  obtain ⟨setter, arg⟩ := call
  cases setter with
  | strategy => exact strategy_of_isAvailable h _
  | profiler => exact profiler_of_isAvailable h _
  | cache => exact cache_of_isAvailable h _
  | staticMemoryGuardSize => exact congrArg Except.ok (applyGuardSize_eq (.inl rfl))
  | dynamicMemoryGuardSize => exact congrArg Except.ok (applyGuardSize_eq (.inr rfl))
  | _ => rfl

theorem perform_of_isAccepted (call : SetterCall) (h : call.isAccepted) (c : Config) :
    ∃ c', call.perform c = .ok c' := by
  obtain ⟨setter, arg⟩ := call
  cases setter with
  | strategy => exact ⟨_, strategy_of_isAvailable h c⟩
  | profiler => exact ⟨_, profiler_of_isAvailable h c⟩
  | cache => exact ⟨_, cache_of_isAvailable h c⟩
  | _ => exact ⟨_, rfl⟩

/-- A call that is not accepted is refused as a bad configuration, whatever the configuration. -/
theorem perform_of_not_isAccepted (call : SetterCall) (h : call.isAccepted = false) :
    ∃ reason, ∀ c, call.perform c = .error (.invalidConfig reason) := by
  obtain ⟨setter, arg⟩ := call
  cases setter with
  | strategy =>
    cases arg with
    | auto | cranelift => cases h
    | winch => exact ⟨_, fun _ => rfl⟩
  | profiler =>
    cases arg with
    | none | perfMap => cases h
    | jitDump | vTune => exact ⟨_, fun _ => rfl⟩
  | cache =>
    cases arg with
    | platform fault =>
      cases fault with
      | none => cases h
      | some reason => exact ⟨_, fun _ => rfl⟩
    | file files path =>
      exact ⟨"failed to load cache config from " ++ path ++ ": ",
        fun _ => if_neg (Bool.eq_false_iff.mp h)⟩
  | _ => cases h

end SetterCall

/-! ## Calls one after the other -/

theorem lastArg_concat (calls : List SetterCall) (call : SetterCall) :
    lastArg (calls ++ [call]) =
      if call.isAccepted then Function.update (lastArg calls) call.setter (some call.arg)
      else lastArg calls := by
  funext s
  rw [lastArg, List.reverse_append, List.reverse_singleton, List.singleton_append,
    List.findSome?_cons, SetterCall.arg?]
  by_cases hs : call.setter = s
  · subst hs
    cases call.isAccepted <;> simp [lastArg]
  · have hne : s ≠ call.setter := Ne.symm hs
    cases call.isAccepted <;> simp [lastArg, hs, hne]

namespace Config

theorem ofCalls_concat (calls : List SetterCall) (call : SetterCall) :
    ofCalls (calls ++ [call]) = (ofCalls calls).set call := by
  rw [ofCalls, List.foldl_append]
  rfl

/-- Calls leave behind what was last asked for of each setter. -/
theorem ofCalls_eq (calls : List SetterCall) : ofCalls calls = ofLast (lastArg calls) := by
  induction calls using List.reverseRecOn with
  | nil => rfl
  | append_singleton calls call ih =>
    rw [ofCalls_concat, ih, lastArg_concat, set]
    cases h : call.isAccepted with
    | true => rw [call.perform_ofLast h, if_pos rfl]
    | false =>
      obtain ⟨reason, hrefused⟩ := call.perform_of_not_isAccepted h
      rw [hrefused, if_neg Bool.false_ne_true]

theorem set_of_not_isAccepted (c : Config) {call : SetterCall} (h : call.isAccepted = false) :
    c.set call = c := by
  obtain ⟨reason, hrefused⟩ := call.perform_of_not_isAccepted h
  rw [set, hrefused]

theorem ofCalls_append (calls calls' : List SetterCall) :
    ofCalls (calls ++ calls') = calls'.foldl set (ofCalls calls) := List.foldl_append

/-- A call that is refused may be left out. -/
theorem ofCalls_without_refused {call : SetterCall} (h : call.isAccepted = false)
    (before after : List SetterCall) :
    ofCalls (before ++ call :: after) = ofCalls (before ++ after) := by
  rw [ofCalls_append, ofCalls_append, List.foldl_cons, set_of_not_isAccepted _ h]

end Config

/-! ## The order of calls -/

theorem SetterCall.arg?_eq_some_iff {s : Setter} {call : SetterCall} {a : s.Arg} :
    call.arg? s = some a ↔ call = ⟨s, a⟩ ∧ call.isAccepted := by
  obtain ⟨s', a'⟩ := call
  rw [arg?]
  constructor
  · intro h
    split_ifs at h with hs ha
    cases hs
    cases h
    exact ⟨rfl, ha⟩
  · rintro ⟨heq, ha⟩
    cases heq
    rw [dif_pos rfl, if_pos ha]

theorem lastArg_singleton (call : SetterCall) (s : Setter) : lastArg [call] s = call.arg? s :=
  List.findSome?_singleton

theorem lastArg_append (calls calls' : List SetterCall) (s : Setter) :
    lastArg (calls ++ calls') s = (lastArg calls' s).or (lastArg calls s) := by
  rw [lastArg, List.reverse_append, List.findSome?_append, lastArg, lastArg]

theorem lastArg_pair_comm {call call' : SetterCall} (h : call.setter ≠ call'.setter) :
    lastArg [call, call'] = lastArg [call', call] := by
  funext s
  rw [← List.singleton_append, lastArg_append, ← List.singleton_append (l := [call]),
    lastArg_append, lastArg_singleton, lastArg_singleton]
  -- at most one of the two calls is of the setter
  cases ha : call.arg? s with
  | none => cases call'.arg? s <;> rfl
  | some a =>
    cases ha' : call'.arg? s with
    | none => rfl
    | some a' =>
      obtain ⟨rfl, -⟩ := SetterCall.arg?_eq_some_iff.mp ha
      obtain ⟨rfl, -⟩ := SetterCall.arg?_eq_some_iff.mp ha'
      exact absurd rfl h

/-- Neighbouring calls of different setters may be exchanged. -/
theorem Config.ofCalls_comm {call call' : SetterCall} (h : call.setter ≠ call'.setter)
    (before after : List SetterCall) :
    ofCalls (before ++ call :: call' :: after) = ofCalls (before ++ call' :: call :: after) := by
  have hsplit (x y : SetterCall) : before ++ x :: y :: after = before ++ [x, y] ++ after := by simp
  rw [ofCalls_eq, ofCalls_eq, hsplit, hsplit]
  congr 1
  funext s
  rw [lastArg_append, lastArg_append, lastArg_append, lastArg_append, lastArg_pair_comm h]

/-! ## What was last asked for, by setter -/

theorem findSome?_filter {α β : Type} {p : α → Bool} {f : α → Option β} {l : List α}
    (h : ∀ a ∈ l, p a = false → f a = none) : (l.filter p).findSome? f = l.findSome? f := by
  induction l with
  | nil => rfl
  | cons a l ih =>
    rw [List.forall_mem_cons] at h
    cases hp : p a with
    | true => rw [List.filter_cons_of_pos hp, List.findSome?_cons, List.findSome?_cons, ih h.2]
    | false =>
      rw [List.filter_cons_of_neg (Bool.eq_false_iff.mp hp), List.findSome?_cons, h.1 hp, ih h.2]

/-- Only the accepted calls of a setter matter to it. -/
theorem lastArg_of_filter {calls : List SetterCall} {s : Setter} {o : Option s.Arg}
    (h : calls.filter (fun call => call.isAccepted ∧ call.setter = s) = o.toList.map (⟨s, ·⟩)) :
    lastArg calls s = o := by
  have hfilter : lastArg calls s =
      lastArg (calls.filter fun call => call.isAccepted ∧ call.setter = s) s := by
    rw [lastArg, lastArg, ← List.filter_reverse, findSome?_filter]
    intro call _ hnot
    cases harg : call.arg? s with
    | none => rfl
    | some a =>
      obtain ⟨rfl, ha⟩ := SetterCall.arg?_eq_some_iff.mp harg
      exact absurd ⟨ha, rfl⟩ (of_decide_eq_false hnot)
  rw [hfilter, h]
  cases o with
  | none => rfl
  | some a =>
    have hmem : (⟨s, a⟩ : SetterCall) ∈
        calls.filter fun call => call.isAccepted ∧ call.setter = s := by
      rw [h]
      exact List.mem_singleton.mpr rfl
    have ha := (of_decide_eq_true (List.mem_filter.mp hmem).2).1
    exact (lastArg_singleton _ s).trans (SetterCall.arg?_eq_some_iff.mpr ⟨rfl, ha⟩)

end WasmHost

import WasmHost.Settings.Encode
import WasmHost.Proofs.Datum.CompactText
import WasmHost.Proofs.Settings.Members

/-!
# Settings to text and back

What settings are written as means them, and has a compact text of its own. So the text that is
written for settings is read as the same settings.
-/

namespace WasmHost

open Datum

/-! ## Settings that fit -/

/-- A number that is there is below a bound. -/
def Below (bound : Nat) (n : Option Nat) : Prop := ∀ k ∈ n, k < bound

/-- The numbers have 32 bits. -/
def PoolingSettings.Fits (s : PoolingSettings) : Prop :=
  s.maxInstances < 2 ^ 32 ∧ s.instanceMemoryMb < 2 ^ 32

/-- The sizes have 64 bits, and the pool fits. -/
def EngineSettings.Fits (s : EngineSettings) : Prop :=
  Below (2 ^ 64) s.maxWasmStack ∧ Below (2 ^ 64) s.staticMemoryMaximumSize ∧
    Below (2 ^ 64) s.staticMemoryGuardSize ∧ Below (2 ^ 64) s.dynamicMemoryGuardSize ∧
    ∀ p ∈ s.pooling, p.Fits

/-- The fuel has 64 bits. -/
def StoreSettings.Fits (s : StoreSettings) : Prop := Below (2 ^ 64) s.initialFuel

/-- The environment is a map in rising order of its keys. -/
def WasiSettings.Fits (s : WasiSettings) : Prop := Sorted s.env

/-- All parts fit. -/
def SettingsFile.Fits (s : SettingsFile) : Prop :=
  s.engine.Fits ∧ s.store.Fits ∧ ∀ w ∈ s.wasi, w.Fits

/-! ## What settings are written as means them -/

theorem meansNat_ofNat {bound n : Nat} (h : n < bound) : MeansNat bound (.ofNat n) n := ⟨rfl, h⟩

theorem meansOption {α : Type} {M : Datum → α → Prop} {toDatum : α → Datum} {o : Option α}
    (h : ∀ a ∈ o, M (toDatum a) a) (hne : ∀ a, toDatum a ≠ .null) :
    MeansOption M (.optional toDatum o) o := by
  cases o with
  | none => rfl
  | some a => exact ⟨hne a, h a rfl⟩

theorem meansOption_nat {bound : Nat} {n : Option Nat} (h : Below bound n) :
    MeansOption (MeansNat bound) (.optional .ofNat n) n :=
  meansOption (fun k hk => meansNat_ofNat (h k hk)) (by simp [Datum.ofNat])

theorem meansList {α : Type} {M : Datum → α → Prop} {toDatum : α → Datum} {as : List α}
    (h : ∀ a ∈ as, M (toDatum a) a) : MeansList M (.seq (as.map toDatum)) as := by
  refine ⟨_, rfl, ?_⟩
  rw [List.forall₂_map_left_iff, List.forall₂_same]
  exact h

theorem Strategy.means_toDatum (l : Leeway) (s : Strategy) : Means l s.toDatum s := by
  cases s <;> exact ⟨_, rfl, .inl rfl⟩

theorem OptLevel.means_toDatum (l : Leeway) (s : OptLevel) : Means l s.toDatum s := by
  cases s <;> exact ⟨_, rfl, .inl rfl⟩

theorem Profiler.means_toDatum (l : Leeway) (s : Profiler) : Means l s.toDatum s := by
  cases s <;> exact ⟨_, rfl, .inl rfl⟩

theorem StdioSetting.means_toDatum (l : Leeway) (s : StdioSetting) : Means l s.toDatum s := by
  cases s with
  | null => exact .inl rfl
  | «inherit» => exact .inl rfl
  | file path => exact rfl

theorem FeatureSettings.means_toDatum (l : Leeway) (s : FeatureSettings) : Means l s.toDatum s :=
  .of_all describes.distinct <| .cons ⟨rfl, rfl⟩ <| .cons ⟨rfl, rfl⟩ <| .cons ⟨rfl, rfl⟩ <|
    .cons ⟨rfl, rfl⟩ <| .cons ⟨rfl, rfl⟩ .nil

theorem CacheSettings.means_toDatum (l : Leeway) (s : CacheSettings) : Means l s.toDatum s := by
  have hpath : MeansOption MeansText (.optional .string s.configPath) s.configPath :=
    meansOption (fun _ _ => rfl) (by simp)
  exact .of_all describes.distinct (.cons ⟨rfl, rfl⟩ (.cons ⟨rfl, hpath⟩ .nil))

theorem PoolingSettings.means_toDatum (l : Leeway) {s : PoolingSettings} (h : s.Fits) :
    Means l s.toDatum s :=
  .of_all describes.distinct
    (.cons ⟨rfl, meansNat_ofNat h.1⟩ (.cons ⟨rfl, meansNat_ofNat h.2⟩ .nil))

theorem StoreSettings.means_toDatum (l : Leeway) {s : StoreSettings} (h : s.Fits) :
    Means l s.toDatum s :=
  .of_all describes.distinct (.cons ⟨rfl, meansOption_nat h⟩ .nil)

theorem EngineSettings.distinct (l : Leeway) : (names (members l)).Nodup := by
  simp [names, members]

theorem EngineSettings.means_toDatum (l : Leeway) {s : EngineSettings} (h : s.Fits) :
    Means l s.toDatum s := by
  obtain ⟨hstack, hmax, hguard, hdyn, hpool⟩ := h
  have hpooling : MeansOption (PoolingSettings.Means l)
      (.optional PoolingSettings.toDatum s.pooling) s.pooling :=
    meansOption (fun p hp => PoolingSettings.means_toDatum l (hpool p hp))
      (by simp [PoolingSettings.toDatum, object])
  exact .of_all (distinct l) <| .cons ⟨rfl, rfl⟩ <| .cons ⟨rfl, rfl⟩ <| .cons ⟨rfl, rfl⟩ <|
    .cons ⟨rfl, meansOption_nat hstack⟩ <| .cons ⟨rfl, meansOption_nat hmax⟩ <|
    .cons ⟨rfl, meansOption_nat hguard⟩ <| .cons ⟨rfl, meansOption_nat hdyn⟩ <|
    .cons ⟨rfl, s.features.means_toDatum l⟩ <| .cons ⟨rfl, s.strategy.means_toDatum l⟩ <|
    .cons ⟨rfl, s.optLevel.means_toDatum l⟩ <| .cons ⟨rfl, rfl⟩ <|
    .cons ⟨rfl, s.profiler.means_toDatum l⟩ <| .cons ⟨rfl, s.cache.means_toDatum l⟩ <|
    .cons ⟨rfl, hpooling⟩ .nil

theorem PreopenSetting.means_toDatum (l : Leeway) (s : PreopenSetting) : Means l s.toDatum s :=
  .of_all describes.distinct (.cons ⟨rfl, s.host, rfl, rfl⟩ (.cons ⟨rfl, s.guest, rfl, rfl⟩ .nil))

theorem meansSortedMap {es : List (String × String)} (h : Sorted es) :
    MeansSortedMap MeansText (.object (es.map fun (k, v) => (k, .string v))) es := by
  refine ⟨_, es, rfl, ?_, h, fun key => lookup_perm h.distinct es.reverse_perm.symm key⟩
  rw [List.forall₂_map_left_iff, List.forall₂_same]
  exact fun e _ => ⟨rfl, rfl⟩

theorem WasiSettings.distinct (l : Leeway) : (names (members l)).Nodup := by
  simp [names, members]

theorem WasiSettings.means_toDatum (l : Leeway) {s : WasiSettings} (h : s.Fits) :
    Means l s.toDatum s :=
  .of_all (distinct l) <| .cons ⟨rfl, rfl⟩ <| .cons ⟨rfl, meansList fun _ _ => rfl⟩ <|
    .cons ⟨rfl, rfl⟩ <| .cons ⟨rfl, meansSortedMap h⟩ <| .cons ⟨rfl, s.stdin.means_toDatum l⟩ <|
    .cons ⟨rfl, s.stdout.means_toDatum l⟩ <| .cons ⟨rfl, s.stderr.means_toDatum l⟩ <|
    .cons ⟨rfl, meansList fun p _ => p.means_toDatum l⟩ .nil

theorem SettingsFile.distinct (l : Leeway) : (names (members l)).Nodup := by
  simp [names, members]

theorem SettingsFile.means_toDatum (l : Leeway) {s : SettingsFile} (h : s.Fits) :
    Means l s.toDatum s := by
  have hwasi : MeansOption (WasiSettings.Means l) (.optional WasiSettings.toDatum s.wasi) s.wasi :=
    meansOption (fun w hw => w.means_toDatum l (h.2.2 w hw))
      (by simp [WasiSettings.toDatum, object])
  exact .of_all (distinct l) <| .cons ⟨rfl, s.engine.means_toDatum l h.1⟩ <|
    .cons ⟨rfl, s.store.means_toDatum l h.2.1⟩ <| .cons ⟨rfl, hwasi⟩ .nil

/-! ## What settings are written as has a compact text -/

theorem printable_ofNat {n : Nat} (h : n < 2 ^ 64) : (Datum.ofNat n).Printable := by
  simp only [Datum.ofNat, Printable]
  omega

theorem printable_optional_nat {n : Option Nat} (h : Below (2 ^ 64) n) :
    (Datum.optional .ofNat n).Printable :=
  printable_optional fun k hk => printable_ofNat (h k hk)

theorem Strategy.printable (s : Strategy) : s.toDatum.Printable := by
  cases s <;> exact trivial

theorem OptLevel.printable (s : OptLevel) : s.toDatum.Printable := by
  cases s <;> exact trivial

theorem Profiler.printable (s : Profiler) : s.toDatum.Printable := by
  cases s <;> exact trivial

theorem StdioSetting.printable (s : StdioSetting) : s.toDatum.Printable := by
  cases s with
  | file path => simp [toDatum, printable_object, Printable]
  | _ => trivial

theorem FeatureSettings.printable (s : FeatureSettings) : s.toDatum.Printable := by
  simp [toDatum, printable_object, Printable]

theorem CacheSettings.printable (s : CacheSettings) : s.toDatum.Printable := by
  have hpath : (Datum.optional .string s.configPath).Printable :=
    printable_optional fun _ _ => trivial
  simp [toDatum, printable_object, Printable, hpath]

theorem PoolingSettings.printable {s : PoolingSettings} (h : s.Fits) : s.toDatum.Printable := by
  obtain ⟨hmax, hmem⟩ := h
  simp [toDatum, printable_object, printable_ofNat (n := s.maxInstances) (by omega),
    printable_ofNat (n := s.instanceMemoryMb) (by omega)]

theorem EngineSettings.printable {s : EngineSettings} (h : s.Fits) : s.toDatum.Printable := by
  obtain ⟨hstack, hmax, hguard, hdyn, hpool⟩ := h
  have hpooling : (Datum.optional PoolingSettings.toDatum s.pooling).Printable :=
    printable_optional fun p hp => PoolingSettings.printable (hpool p hp)
  simp [toDatum, printable_object, Printable, printable_optional_nat hstack,
    printable_optional_nat hmax, printable_optional_nat hguard, printable_optional_nat hdyn,
    hpooling, FeatureSettings.printable, Strategy.printable, OptLevel.printable,
    Profiler.printable, CacheSettings.printable]

theorem StoreSettings.printable {s : StoreSettings} (h : s.Fits) : s.toDatum.Printable := by
  simp [toDatum, printable_object, printable_optional_nat h]

theorem PreopenSetting.printable (s : PreopenSetting) : s.toDatum.Printable := by
  simp [toDatum, printable_object, Printable]

theorem WasiSettings.printable (s : WasiSettings) : s.toDatum.Printable := by
  have hargs : (Datum.seq (s.args.map .string)).Printable := printable_list fun _ _ => trivial
  have henv : (Datum.object (s.env.map fun (k, v) => (k, .string v))).Printable := by
    rw [printable_object]
    intro m hm
    obtain ⟨e, -, rfl⟩ := List.mem_map.mp hm
    trivial
  have hpre : (Datum.seq (s.preopens.map PreopenSetting.toDatum)).Printable :=
    printable_list fun p _ => p.printable
  rw [toDatum, printable_object]
  simp only [List.mem_cons, List.not_mem_nil, or_false, forall_eq_or_imp, forall_eq]
  exact ⟨trivial, hargs, trivial, henv, s.stdin.printable, s.stdout.printable,
    s.stderr.printable, hpre⟩

theorem SettingsFile.printable {s : SettingsFile} (h : s.Fits) : s.toDatum.Printable := by
  have hwasi : (Datum.optional WasiSettings.toDatum s.wasi).Printable :=
    printable_optional fun w _ => w.printable
  simp [toDatum, printable_object, EngineSettings.printable h.1,
    StoreSettings.printable h.2.1, hwasi]

/-! ## The round trip -/

theorem ofJson_of_text {α : Type} {decode : Dialect → Datum → Decoded α} {d : Datum} {text : String}
    (h : Json.Text d text) : Datum.ofJson decode text = decode .json d := by
  rw [Datum.ofJson, Json.read_of_text h]
  cases hd : decode .json d <;> simp [hd, bind, Except.bind, pure, Except.pure]

/-- Settings of a kind come back from the text that they are written as. -/
def RoundTrips {α : Type} (Fits : α → Prop) (toDatum : α → Datum)
    (ofDatum : Dialect → Datum → Decoded α) : Prop :=
  ∀ s, Fits s → Datum.ofJson ofDatum (toDatum s).compact = .ok s

theorem RoundTrips.of_means {α : Type} {Fits : α → Prop} {toDatum : α → Datum}
    {ofDatum : Dialect → Datum → Decoded α} {M : Leeway → Datum → α → Prop}
    (hd : Decodes (ofDatum .json) (M Dialect.json.leeway))
    (hp : ∀ s, Fits s → (toDatum s).Printable) (hm : ∀ l s, Fits s → M l (toDatum s) s) :
    RoundTrips Fits toDatum ofDatum := by
  intro s hs
  have ht := text_compact (hp s hs)
  rw [ofJson_of_text ht]
  exact (hd _ _ ht.isWhole).mpr (hm _ s hs)

/-- Every kind of settings comes back from the text that its values are written as. -/
theorem settings_come_back :
    RoundTrips SettingsFile.Fits SettingsFile.toDatum SettingsFile.ofDatum ∧
    RoundTrips EngineSettings.Fits EngineSettings.toDatum EngineSettings.ofDatum ∧
    RoundTrips (fun _ => True) FeatureSettings.toDatum FeatureSettings.ofDatum ∧
    RoundTrips (fun _ => True) CacheSettings.toDatum CacheSettings.ofDatum ∧
    RoundTrips PoolingSettings.Fits PoolingSettings.toDatum PoolingSettings.ofDatum ∧
    RoundTrips StoreSettings.Fits StoreSettings.toDatum StoreSettings.ofDatum ∧
    RoundTrips WasiSettings.Fits WasiSettings.toDatum WasiSettings.ofDatum ∧
    RoundTrips (fun _ => True) PreopenSetting.toDatum PreopenSetting.ofDatum ∧
    RoundTrips (fun _ => True) StdioSetting.toDatum StdioSetting.ofDatum ∧
    RoundTrips (fun _ => True) Strategy.toDatum Strategy.ofDatum ∧
    RoundTrips (fun _ => True) OptLevel.toDatum OptLevel.ofDatum ∧
    RoundTrips (fun _ => True) Profiler.toDatum Profiler.ofDatum := by
  refine ⟨?_, ?_, ?_, ?_, ?_, ?_, ?_, ?_, ?_, ?_, ?_, ?_⟩
  · exact .of_means (SettingsFile.decodes .json) (fun _ h => SettingsFile.printable h)
      fun l _ h => SettingsFile.means_toDatum l h
  · exact .of_means (EngineSettings.decodes .json) (fun _ h => EngineSettings.printable h)
      fun l _ h => EngineSettings.means_toDatum l h
  · exact .of_means (FeatureSettings.decodes .json) (fun s _ => s.printable)
      fun l s _ => s.means_toDatum l
  · exact .of_means (CacheSettings.decodes .json) (fun s _ => s.printable)
      fun l s _ => s.means_toDatum l
  · exact .of_means (PoolingSettings.decodes .json) (fun _ h => PoolingSettings.printable h)
      fun l _ h => PoolingSettings.means_toDatum l h
  · exact .of_means (StoreSettings.decodes .json) (fun _ h => StoreSettings.printable h)
      fun l _ h => StoreSettings.means_toDatum l h
  · exact .of_means (WasiSettings.decodes .json) (fun s _ => s.printable)
      fun l _ h => WasiSettings.means_toDatum l h
  · exact .of_means (PreopenSetting.decodes .json) (fun s _ => s.printable)
      fun l s _ => s.means_toDatum l
  · exact .of_means (StdioSetting.decodes .json) (fun s _ => s.printable)
      fun l s _ => s.means_toDatum l
  · exact .of_means (Strategy.decodes .json) (fun s _ => s.printable)
      fun l s _ => s.means_toDatum l
  · exact .of_means (OptLevel.decodes .json) (fun s _ => s.printable)
      fun l s _ => s.means_toDatum l
  · exact .of_means (Profiler.decodes .json) (fun s _ => s.printable)
      fun l s _ => s.means_toDatum l

/-- The greatest fuel, a path with a quote and a control character, and a pool. -/
theorem extreme_settings_come_back :
    let s : SettingsFile :=
      { engine := { cache := { configPath := some "\"\x01é" }, pooling := some {} },
        store := { initialFuel := some (2 ^ 64 - 1) } }
    s.Fits ∧ Datum.ofJson SettingsFile.ofDatum s.toDatum.compact = .ok s := by
  intro s
  have hfits : s.Fits := by
    refine ⟨⟨?_, ?_, ?_, ?_, ?_⟩, ?_, ?_⟩ <;> intro k hk <;> cases hk
    · exact ⟨by decide, by decide⟩
    · decide
  exact ⟨hfits, settings_come_back.1 s hfits⟩

end WasmHost

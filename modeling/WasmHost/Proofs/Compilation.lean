import WasmHost.Proofs.Text.Utf8
import WasmHost.Proofs.Wasm.Threads

/-!
# What compiles

A source stands for a binary, and what comes of it depends on the binary alone. A binary compiles if
it is valid and, for an engine with a pool, has room in a slot; validation leaves the slot aside. The
engine of empty settings goes without threads, unlike the engine of the default configuration.
-/

namespace WasmHost

namespace CompiledModule

open Text Wasm

/-! ## Sources -/

/-- The binary that a source stands for. -/
def sourceBinary (source : Bytes) : Except Error Bytes :=
  if isBinary source then .ok source
  else
    match decodeUtf8 source with
    | .ok text => binaryOfText text
    | .error f => .error (.parse ("Module text is not valid UTF-8: " ++ f.message))

theorem load_eq_bind (o : EngineOptions) (source : Bytes) :
    load o source = sourceBinary source >>= ofBinary o := by
  unfold load sourceBinary ofText
  split
  · rfl
  · cases decodeUtf8 source <;> rfl

/-- No token begins with a zero. -/
theorem scan_zero (fuel : Nat) (cs : List Char) : Wat.Token.scan fuel ('\x00' :: cs) = none := by
  cases fuel with
  | zero => rfl
  | succ fuel =>
      have hid : Wat.Token.isIdChar '\x00' = false := by
        unfold Wat.Token.isIdChar
        simp
      have hblank : Wat.Token.isBlank '\x00' = false := by decide
      simp [Wat.Token.scan, hid, hblank]

/-- A text that stands for a module is not taken for a binary. -/
theorem isBinary_of_binaryOfText {text : String} {bytes : Bytes}
    (h : binaryOfText text = .ok bytes) : isBinary (encodeUtf8 text) = false := by
  rw [isBinary, Bool.or_eq_false_iff]
  constructor
  · rw [List.isEmpty_eq_false_iff]
    intro hempty
    -- the empty text stands for no module
    have hread := decodeUtf8_encodeUtf8 text
    rw [hempty] at hread
    cases hread
    cases h
  · rw [Bool.eq_false_iff]
    intro hprefix
    obtain ⟨rest, hrest⟩ := List.isPrefixOf_iff_prefix.mp hprefix
    obtain ⟨cs, rfl⟩ : ∃ cs, text = String.ofList cs := ⟨text.toList, String.ofList_toList.symm⟩
    rw [encodeUtf8_ofList] at hrest
    cases cs with
    | nil => cases hrest
    | cons c cs =>
        obtain rfl := eq_zero_of_encodeChar hrest.symm
        have htokens : Wat.Token.ofText? (String.ofList ('\x00' :: cs)) = none := by
          rw [Wat.Token.ofText?, String.toList_ofList, scan_zero]
        have hnone : Module.ofText? (String.ofList ('\x00' :: cs)) = none := by
          rw [Module.ofText?, Wat.Sexpr.ofText?, htokens]
          rfl
        rw [binaryOfText, hnone] at h
        cases h

theorem load_text (o : EngineOptions) {text : String} {bytes : Bytes}
    (h : binaryOfText text = .ok bytes) : load o (encodeUtf8 text) = ofBinary o bytes := by
  rw [load_eq_bind, sourceBinary, isBinary_of_binaryOfText h, decodeUtf8_encodeUtf8]
  exact congrArg (· >>= ofBinary o) h

/-! ## Compiling and validating -/

/-- The module has at most one memory and one table of its own, and neither begins larger than those
of a slot. -/
structure FitsSlot (p : PoolingSettings) (m : Module) : Prop where
  memories : m.memories.length ≤ 1
  tables : m.tables.length ≤ 1
  pages : ∀ t ∈ m.memories, t.limits.min * pageSize ≤ p.memoryBytes
  elements : ∀ t ∈ m.tables, t.limits.min ≤ 20000

/-- The module of a binary has room in a slot of the pool, where there is one. -/
def HasRoom (o : EngineOptions) (bytes : Bytes) : Prop :=
  ∀ p m layouts, o.pooling = some p → Module.decode bytes = some (m, layouts) → FitsSlot p m

/-- A pool with slots of sixteen pages, and a module with a memory of seventeen. -/
example :
    let o : EngineOptions := { pooling := some { maxInstances := 4, instanceMemoryMb := 1 } }
    let bytes : Bytes := [0x00, 0x61, 0x73, 0x6d, 0x01, 0x00, 0x00, 0x00, 0x05, 0x03, 0x01, 0x00, 0x11]
    validate o bytes = .ok () ∧ ofBinary o bytes = .error compilationFailed := ⟨rfl, rfl⟩

/-! ## The engine of empty settings -/

/-- Two attempts to compile come to the same for an embedder: modules of the same type, or errors of
the same family. -/
def SameOutcome : Except Error CompiledModule → Except Error CompiledModule → Prop
  | .ok m, .ok m' => m.signature = m'.signature
  | .error e, .error e' => e.ctorIdx = e'.ctorIdx
  | _, _ => False

/-- A module with a shared memory of one page. -/
example :
    let bytes : Bytes := [0x00, 0x61, 0x73, 0x6d, 0x01, 0x00, 0x00, 0x00, 0x05, 0x04, 0x01, 0x03,
      0x01, 0x01]
    load { threads := false } bytes = .error compilationFailed ∧
      (load {} bytes).toOption.isSome := ⟨rfl, rfl⟩

end CompiledModule

end WasmHost

import Mathlib
import WasmHost.Proofs.Compilation
import WasmHost.Proofs.Text.Utf8Faults

/-!
# Text and binary sources

A source is a binary or a text, by its first bytes, and never both: what the text format turns into
a binary does not look like one, and the binary that it is turned into does. So it does not matter
for what becomes of a module on which of the two ways it came in.
-/

namespace WasmHost.CompiledModule

open Text Wasm

/-- Bytes look like a binary: there are none, or they begin with the mark of a binary. -/
def LooksBinary (bytes : Bytes) : Prop := bytes = [] ∨ [0x00, 0x61, 0x73, 0x6d] <+: bytes

theorem isBinary_iff (bytes : Bytes) : isBinary bytes ↔ LooksBinary bytes := by
  rw [isBinary, LooksBinary, Bool.or_eq_true, List.isEmpty_iff, List.isPrefixOf_iff_prefix, magic]

theorem magic_prefix_encode (m : Module) : magic <+: m.encode := by
  simp only [Module.encode, List.append_assoc]
  exact List.prefix_append _ _

theorem magic_prefix_of_binaryOfText {text : String} {bytes : Bytes}
    (h : binaryOfText text = .ok bytes) : magic <+: bytes := by
  unfold binaryOfText at h
  split at h
  · rename_i m _
    obtain rfl := Except.ok.inj h
    exact magic_prefix_encode m
  · cases h

/-- Compiling a binary fails in one way only. -/
theorem eq_compilationFailed {o : EngineOptions} {bytes : Bytes} {e : Error}
    (h : ofBinary o bytes = .error e) : e = compilationFailed := by
  unfold ofBinary at h
  split at h
  · split_ifs at h
    exact (Except.error.inj h).symm
  · exact (Except.error.inj h).symm

theorem load_of_looksBinary (o : EngineOptions) {bytes : Bytes} (h : LooksBinary bytes) :
    load o bytes = ofBinary o bytes := by
  rw [load, if_pos ((isBinary_iff bytes).mpr h)]

theorem load_encodeUtf8 (o : EngineOptions) {text : String} (h : ¬LooksBinary (encodeUtf8 text)) :
    load o (encodeUtf8 text) = ofText o text := by
  rw [load, if_neg (mt (isBinary_iff _).mp h), decodeUtf8_encodeUtf8]

theorem load_of_not_isUtf8 (o : EngineOptions) {bytes : Bytes} (h : ¬LooksBinary bytes)
    (hutf8 : ¬IsUtf8 bytes) : ∃ f : Utf8Fault,
      load o bytes = .error (.parse ("Module text is not valid UTF-8: " ++ f.message)) ∧
      IsGreatest {n | n ≤ bytes.length ∧ IsUtf8 (bytes.take n)} f.index := by
  obtain ⟨f, hf, hgreatest⟩ := decodeUtf8_of_not_isUtf8 hutf8
  exact ⟨f, by rw [load, if_neg (mt (isBinary_iff _).mp h), hf], hgreatest⟩

theorem ofText_of_binaryOfText (o : EngineOptions) {text : String} {bytes : Bytes}
    (h : binaryOfText text = .ok bytes) : ofText o text = ofBinary o bytes := by
  rw [ofText, h]
  rfl

/-- Where the text itself is at fault, and nowhere else, compiling it says so. -/
theorem ofText_eq_parse_iff (o : EngineOptions) (text : String) :
    (∃ reason, ofText o text = .error (.parse reason)) ↔ ∃ e, binaryOfText text = .error e := by
  cases h : binaryOfText text with
  | ok bytes =>
      rw [ofText_of_binaryOfText o h]
      refine ⟨fun ⟨reason, hreason⟩ => ?_, fun ⟨e, he⟩ => nomatch he⟩
      cases eq_compilationFailed hreason
  | error e =>
      have hparse : ∃ reason, e = .parse reason := by
        unfold binaryOfText at h
        split at h
        · cases h
        · exact ⟨_, (Except.error.inj h).symm⟩
      obtain ⟨reason, rfl⟩ := hparse
      refine ⟨fun _ => ⟨_, rfl⟩, fun _ => ⟨reason, ?_⟩⟩
      rw [ofText, h]
      rfl

/-- What looks like a binary is compiled as one, which fails in one way only. Of what does not,
bytes that are no text are refused at the end of the longest text in front of them. A text is
refused as such just when it stands for no binary; the binary that it stands for looks like one, and
the text, the bytes of the text and the binary all lead to the same module or the same failure. No
such text looks like a binary. -/
theorem text_and_binary_agree (o : EngineOptions) (source : Bytes) :
    (LooksBinary source → load o source = ofBinary o source ∧
      ∀ e, load o source = .error e → ∃ reason, e = .compilationFailed reason) ∧
    (¬LooksBinary source → ¬IsUtf8 source → ∃ f : Utf8Fault,
      load o source = .error (.parse ("Module text is not valid UTF-8: " ++ f.message)) ∧
      IsGreatest {n | n ≤ source.length ∧ IsUtf8 (source.take n)} f.index) ∧
    (∀ text, encodeUtf8 text = source → ¬LooksBinary source →
      ((∃ reason, load o source = .error (.parse reason)) ↔ ∃ e, binaryOfText text = .error e) ∧
      ∀ e, binaryOfText text = .error e → load o source = .error e ∧ ofText o text = .error e) ∧
    ∀ text bytes, encodeUtf8 text = source → binaryOfText text = .ok bytes →
      ¬LooksBinary source ∧ [0x00, 0x61, 0x73, 0x6d] <+: bytes ∧
      load o source = ofBinary o bytes ∧ ofText o text = ofBinary o bytes ∧
      load o bytes = ofBinary o bytes := by
  refine ⟨fun h => ?_, load_of_not_isUtf8 o, ?_, ?_⟩
  · rw [load_of_looksBinary o h]
    exact ⟨rfl, fun e he => ⟨_, eq_compilationFailed he⟩⟩
  · rintro text rfl h
    rw [load_encodeUtf8 o h]
    refine ⟨ofText_eq_parse_iff o text, fun e he => ?_⟩
    rw [ofText, he]
    exact ⟨rfl, rfl⟩
  · rintro text bytes rfl h
    have hmagic := magic_prefix_of_binaryOfText h
    have hnot : ¬LooksBinary (encodeUtf8 text) := by
      rw [← isBinary_iff, isBinary_of_binaryOfText h]
      exact Bool.false_ne_true
    exact ⟨hnot, hmagic, load_text o h, ofText_of_binaryOfText o h,
      load_of_looksBinary o (.inr hmagic)⟩

/-- No bytes, a bracket and half a character, the shortest module, and a text that is none. -/
theorem sources_of_each_kind :
    (LooksBinary [] ∧ load {} [] = ofBinary {} [] ∧
      ∃ reason, load {} [] = .error (.compilationFailed reason)) ∧
    (¬LooksBinary [0x28, 0xc3] ∧ ¬IsUtf8 [0x28, 0xc3] ∧ ∃ f : Utf8Fault,
      load {} [0x28, 0xc3] = .error (.parse ("Module text is not valid UTF-8: " ++ f.message)) ∧
      IsGreatest {n | n ≤ 2 ∧ IsUtf8 ([0x28, 0xc3].take n)} f.index) ∧
    (∃ bytes, LooksBinary bytes ∧ (∃ m, load {} bytes = .ok m) ∧
      binaryOfText "(module)" = .ok bytes ∧
      load {} (encodeUtf8 "(module)") = ofBinary {} bytes ∧ load {} bytes = ofBinary {} bytes) ∧
    ¬LooksBinary (encodeUtf8 "(nope)") ∧ ∃ reason,
      load {} (encodeUtf8 "(nope)") = .error (.parse reason) := by
  have hcut : ¬LooksBinary [0x28, 0xc3] := by
    rw [← isBinary_iff]
    decide
  have hutf8 : ¬IsUtf8 [0x28, 0xc3] := by
    rintro ⟨text, htext⟩
    have h := decodeUtf8_encodeUtf8 text
    rw [htext] at h
    cases h
  have hmodule : binaryOfText "(module)" =
      .ok [0x00, 0x61, 0x73, 0x6d, 0x01, 0x00, 0x00, 0x00] := by cbv
  have hnope : binaryOfText "(nope)" = .error (.parse "") := by cbv
  have hlooks : ¬LooksBinary (encodeUtf8 "(nope)") := by
    rw [← isBinary_iff, show isBinary (encodeUtf8 "(nope)") = false by cbv]
    exact Bool.false_ne_true
  obtain ⟨-, hprefix, hsource, -, hbinary⟩ :=
    (text_and_binary_agree {} (encodeUtf8 "(module)")).2.2.2 "(module)" _ rfl hmodule
  obtain ⟨hload, hfails⟩ := (text_and_binary_agree {} []).1 (.inl rfl)
  refine ⟨⟨.inl rfl, hload, ?_⟩, ⟨hcut, hutf8, (text_and_binary_agree {} _).2.1 hcut hutf8⟩,
    ⟨_, .inr hprefix, ⟨_, rfl⟩, hmodule, hsource, hbinary⟩, hlooks, ?_⟩
  · obtain ⟨reason, hreason⟩ := hfails compilationFailed rfl
    exact ⟨reason, hload.trans (congrArg Except.error hreason)⟩
  · exact ((text_and_binary_agree {} _).2.2.1 "(nope)" rfl hlooks).1.mpr ⟨_, hnope⟩

end WasmHost.CompiledModule

/-!
# UTF-8

`decodeUtf8` reads a text from its bytes. Where it cannot, it says how many bytes were read well and
what follows them: bytes that no character starts with, or the start of a character that the end
of the input cuts off.
-/

namespace WasmHost.Text

/-- Why bytes are no text. -/
inductive Utf8Fault where
  /-- After `index` good bytes come `length` bytes that begin no character. -/
  | invalid (length index : Nat)
  /-- After `index` good bytes a character begins that the input does not finish. -/
  | incomplete (index : Nat)
deriving DecidableEq

/-- The text of the fault. -/
def Utf8Fault.message : Utf8Fault → String
  | invalid length index => s!"invalid utf-8 sequence of {length} bytes from index {index}"
  | incomplete index => s!"incomplete utf-8 byte sequence from index {index}"

/-- Bytes that continue a character. -/
def isContinuation (b : UInt8) : Bool := 0x80 ≤ b && b ≤ 0xbf

/-- Whether `b` may follow `a`, where `a` starts a character of three or four bytes. The bounds keep
out surrogates, overlong forms and numbers past the last character. -/
def mayFollow (a b : UInt8) : Bool :=
  if a = 0xe0 then 0xa0 ≤ b && b ≤ 0xbf
  else if a = 0xed then 0x80 ≤ b && b ≤ 0x9f
  else if a = 0xf0 then 0x90 ≤ b && b ≤ 0xbf
  else if a = 0xf4 then 0x80 ≤ b && b ≤ 0x8f
  else isContinuation b

/-- The low bits that a continuation byte adds. -/
def payload (b : UInt8) : Nat := b.toNat % 64

/-- The characters of the bytes that follow `at` good ones. -/
def decodeUtf8From (index : Nat) : List UInt8 → Except Utf8Fault (List Char)
  | [] => .ok []
  | a :: rest =>
    if a < 0x80 then
      (decodeUtf8From (index + 1) rest).map (Char.ofNat a.toNat :: ·)
    else if 0xc2 ≤ a ∧ a ≤ 0xdf then
      match rest with
      | [] => .error (.incomplete index)
      | b :: rest =>
        if isContinuation b then
          (decodeUtf8From (index + 2) rest).map
            (Char.ofNat (a.toNat % 32 * 64 + payload b) :: ·)
        else .error (.invalid 1 index)
    else if 0xe0 ≤ a ∧ a ≤ 0xef then
      match rest with
      | [] => .error (.incomplete index)
      | b :: rest =>
        if mayFollow a b then
          match rest with
          | [] => .error (.incomplete index)
          | c :: rest =>
            if isContinuation c then
              (decodeUtf8From (index + 3) rest).map
                (Char.ofNat (a.toNat % 16 * 4096 + payload b * 64 + payload c) :: ·)
            else .error (.invalid 2 index)
        else .error (.invalid 1 index)
    else if 0xf0 ≤ a ∧ a ≤ 0xf4 then
      match rest with
      | [] => .error (.incomplete index)
      | b :: rest =>
        if mayFollow a b then
          match rest with
          | [] => .error (.incomplete index)
          | c :: rest =>
            if isContinuation c then
              match rest with
              | [] => .error (.incomplete index)
              | d :: rest =>
                if isContinuation d then
                  (decodeUtf8From (index + 4) rest).map
                    (Char.ofNat (a.toNat % 8 * 262144 + payload b * 4096 + payload c * 64
                      + payload d) :: ·)
                else .error (.invalid 3 index)
            else .error (.invalid 2 index)
        else .error (.invalid 1 index)
    else .error (.invalid 1 index)

/-- The text that bytes stand for. -/
def decodeUtf8 (bytes : List UInt8) : Except Utf8Fault String :=
  (decodeUtf8From 0 bytes).map String.ofList

/-- The bytes of a text. -/
def encodeUtf8 (s : String) : List UInt8 := s.toUTF8.toList

end WasmHost.Text

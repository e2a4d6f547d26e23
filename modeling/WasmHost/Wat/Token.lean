import WasmHost.Text.Hex
import WasmHost.Text.Utf8

/-!
# Tokens of the text format

A text is cut into parentheses, strings and words. A word is a run of identifier characters; what it
means (a keyword, a number, an identifier) is decided where it stands. Words and strings that touch
make no token, except that `$` before a string makes an identifier. Comments and blanks separate
tokens and are dropped.
-/

namespace WasmHost.Wat

/-- A token. -/
inductive Token where
  | opening
  | closing
  | string (bytes : List UInt8)
  | word (chars : String)
  | quotedId (name : String)
deriving DecidableEq

namespace Token

/-- Characters of words. -/
def isIdChar (c : Char) : Bool := c.isAlphanum || "!#$%&'*+-./:<=>?@\\^_`|~".contains c

/-- Characters that separate tokens. -/
def isBlank (c : Char) : Bool := c == ' ' || c == '\n' || c == '\r' || c == '\t'

/-- Characters that change the direction of the text around them, which neither a comment nor a
string may hold. -/
def isConfusing (c : Char) : Bool :=
  "\u202a\u202b\u202d\u202e\u2066\u2067\u2068\u206c\u2069".contains c

/-- The number that hexadecimal digits stand for; single underscores may stand between digits. -/
def hexDigits (cs : List Char) : Option Nat :=
  match cs with
  | [] => none
  | c :: rest => (Text.hexDigit? c).bind (go rest)
where
  go : List Char → Nat → Option Nat
    | [], n => some n
    | '_' :: c :: rest, n => do go rest (16 * n + (← Text.hexDigit? c))
    | c :: rest, n => do go rest (16 * n + (← Text.hexDigit? c))

/-- A character as the bytes of its text. -/
def charBytes (c : Char) : List UInt8 := Text.encodeUtf8 c.toString

/-- The character with a number, if it is one. -/
def charOf? (n : Nat) : Option Char :=
  if n < 0xd800 ∨ (0xdfff < n ∧ n < 0x110000) then some (Char.ofNat n) else none

/-- Reads the rest of a string behind its opening quote: its bytes and what follows. -/
def readString : List Char → Option (List UInt8 × List Char)
  | [] => none
  | '"' :: rest => some ([], rest)
  | '\\' :: 'u' :: '{' :: rest =>
    let digits := rest.takeWhile (· ≠ '}')
    match h : rest.drop digits.length with
    | '}' :: rest' => do
      let c ← charOf? (← hexDigits digits)
      have : rest'.length < rest.length := by
        have := congrArg List.length h
        simp at this
        omega
      let (bytes, rest') ← readString rest'
      return (charBytes c ++ bytes, rest')
    | _ => none
  | '\\' :: c :: rest =>
    let one (b : UInt8) : Option (List UInt8 × List Char) := do
      let (bytes, rest) ← readString rest
      return (b :: bytes, rest)
    match c with
    | 't' => one 0x09
    | 'n' => one 0x0a
    | 'r' => one 0x0d
    | '"' => one 0x22
    | '\'' => one 0x27
    | '\\' => one 0x5c
    | c =>
      match rest with
      | [] => none
      | d :: rest => do
        let high ← Text.hexDigit? c
        let low ← Text.hexDigit? d
        let (bytes, rest) ← readString rest
        return (UInt8.ofNat (16 * high + low) :: bytes, rest)
  | c :: rest => do
    if c.toNat < 0x20 ∨ c.toNat = 0x7f ∨ isConfusing c ∨ c = '\\' then none
    let (bytes, rest) ← readString rest
    return (charBytes c ++ bytes, rest)
termination_by cs => cs.length

/-- Reads the rest of a block comment, `depth` openings deep: what follows it. A comment may hold
comments. -/
def skipComment : Nat → List Char → Option (List Char)
  | depth, '(' :: ';' :: rest => skipComment (depth + 1) rest
  | depth, ';' :: ')' :: rest => if depth ≤ 1 then some rest else skipComment (depth - 1) rest
  | depth, c :: rest => if isConfusing c then none else skipComment depth rest
  | _, [] => none

/-- Reads a line comment: what follows it. -/
def skipLine : List Char → Option (List Char)
  | [] => some []
  | c :: rest => if c = '\n' ∨ c = '\r' then some (c :: rest)
    else if isConfusing c then none else skipLine rest

/-- Whether a token would touch what follows. -/
def touches : List Char → Bool
  | c :: _ => isIdChar c || c == '"'
  | [] => false

/-- Cuts a text into tokens, in at most `fuel` steps. -/
def scan : Nat → List Char → Option (List Token)
  | _, [] => some []
  | 0, _ => none
  | fuel + 1, '(' :: ';' :: rest => do scan fuel (← skipComment 1 rest)
  | fuel + 1, ';' :: ';' :: rest => do scan fuel (← skipLine rest)
  | fuel + 1, '(' :: rest => do return opening :: (← scan fuel rest)
  | fuel + 1, ')' :: rest => do return closing :: (← scan fuel rest)
  | fuel + 1, '"' :: rest => do
    let (bytes, rest) ← readString rest
    if touches rest then none else return string bytes :: (← scan fuel rest)
  | fuel + 1, '$' :: '"' :: rest => do
    let (bytes, rest) ← readString rest
    let name ← (Text.decodeUtf8 bytes).toOption
    if touches rest ∨ name.isEmpty then none else return quotedId name :: (← scan fuel rest)
  | fuel + 1, c :: rest =>
    if isBlank c then scan fuel rest
    else if isIdChar c then do
      let chars := c :: rest.takeWhile isIdChar
      let rest := rest.dropWhile isIdChar
      if touches rest then none else return word (String.ofList chars) :: (← scan fuel rest)
    else none

/-- The tokens of a text, if it consists of tokens. -/
def ofText? (text : String) : Option (List Token) := scan (text.length + 1) text.toList

end Token

end WasmHost.Wat

import WasmHost.Text.Hex
import WasmHost.Text.Printable

/-!
# Quoted texts

`quoted` writes a text for a reader: invisible characters appear by number. `quotedJson` writes it
for a program: only what the format does not allow inside quotes is escaped.
-/

namespace WasmHost.Text

/-- How one character stands in a text quoted for a reader. -/
def shownChar (c : Char) : String :=
  if c = '"' then "\\\""
  else if c = '\\' then "\\\\"
  else if c = '\n' then "\\n"
  else if c = '\r' then "\\r"
  else if c = '\t' then "\\t"
  else if c = '\x00' then "\\0"
  else if isPrintable c then c.toString
  else "\\u\x7b" ++ hex c.toNat ++ "\x7d"

/-- A text quoted for a reader. -/
def quoted (s : String) : String := "\"" ++ String.join (s.toList.map shownChar) ++ "\""

/-- How one character stands in a text quoted for a program. -/
def jsonChar (c : Char) : String :=
  if c = '"' then "\\\""
  else if c = '\\' then "\\\\"
  else if c = '\n' then "\\n"
  else if c = '\r' then "\\r"
  else if c = '\t' then "\\t"
  else if c = '\x08' then "\\b"
  else if c = '\x0c' then "\\f"
  else if c.toNat < 0x20 then "\\u" ++ hexPadded 4 c.toNat
  else c.toString

/-- A text quoted for a program. -/
def quotedJson (s : String) : String := "\"" ++ String.join (s.toList.map jsonChar) ++ "\""

end WasmHost.Text

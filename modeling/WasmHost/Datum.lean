import WasmHost.Text.Quoted

/-!
# Settings as data

A `Datum` is what a settings text says before anyone asks what it means. Two text formats are read
into it. Reading stops at the first place that cannot be read, and the datum keeps everything before
that place and a `broken` mark at it: whoever walks the datum from the front meets its faults in the
order of the text.
-/

namespace WasmHost

/-- The content of a settings text. -/
inductive Datum where
  | null
  | bool (b : Bool)
  | int (n : Int)
  /-- A number with a fraction or an exponent, by the bits of its 64-bit format. -/
  | float (bits : Nat)
  | string (s : String)
  /-- A date or a time. -/
  | datetime (s : String)
  | seq (items : List Datum)
  /-- Keys are data too: only a string is a good key. -/
  | map (entries : List (Datum × Datum))
  /-- Well formed, but without a value: it can be passed over and not read. -/
  | skipOnly
  /-- The text cannot be read from here on. -/
  | broken
deriving BEq, Inhabited

namespace Datum

mutual

/-- Whether a datum can be passed over: nothing in it is broken. -/
def isWhole : Datum → Bool
  | seq items => itemsWhole items
  | map entries => entriesWhole entries
  | broken => false
  | _ => true

/-- Whether no item of a list is broken. -/
def itemsWhole : List Datum → Bool
  | [] => true
  | d :: ds => isWhole d && itemsWhole ds

/-- Whether no key and no value of a list is broken. -/
def entriesWhole : List (Datum × Datum) → Bool
  | [] => true
  | (k, v) :: es => isWhole k && isWhole v && entriesWhole es

end

/-- A map with string keys. -/
def object (fields : List (String × Datum)) : Datum :=
  map (fields.map fun (k, v) => (string k, v))

/-- A value that may be missing. -/
def optional (f : α → Datum) : Option α → Datum
  | none => null
  | some a => f a

mutual

/-- The compact text of a datum. Only the kinds of datum that settings are written with have
one. -/
def compact : Datum → String
  | null | skipOnly | broken | float _ => "null"
  | bool b => if b then "true" else "false"
  | int n => toString n
  | string s | datetime s => Text.quotedJson s
  | seq items => "[" ++ compactItems items ++ "]"
  | map entries => "\x7b" ++ compactEntries entries ++ "\x7d"

/-- The items of a list, with commas between them. -/
def compactItems : List Datum → String
  | [] => ""
  | [d] => compact d
  | d :: ds => compact d ++ "," ++ compactItems ds

/-- The entries of a map, with commas between them. -/
def compactEntries : List (Datum × Datum) → String
  | [] => ""
  | [(k, v)] => compact k ++ ":" ++ compact v
  | (k, v) :: es => compact k ++ ":" ++ compact v ++ "," ++ compactEntries es

end

end Datum

end WasmHost

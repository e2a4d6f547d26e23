import WasmHost.Datum
import WasmHost.Ieee.Notation

/-!
# Decoding data

A decoder asks a datum for a value of a type and either gets it or says why not. `Complaint` lists
the reasons; `Refusal` also holds the reason that the text itself is at fault. Records are decoded
by `Record.decode` from a map by name or from a list by position, by one description of their
fields.
-/

namespace WasmHost.Datum

/-- What was found where something else was expected. -/
inductive Found where
  | null | seq | map | unitVariant
  | bool (b : Bool)
  | int (n : Int)
  | float (bits : Nat)
  | string (s : String)
deriving DecidableEq

/-- Why a datum is no value of the wanted type. -/
inductive Complaint where
  | invalidType (found : Found) (expected : String)
  | invalidValue (n : Int) (expected : String)
  | invalidLength (n : Nat) (expected : String)
  | unknownVariant (name : String) (known : List String)
  | missingField (name : String)
  | duplicateField (name : String)
deriving DecidableEq

/-- Why a datum was not decoded. -/
inductive Refusal where
  /-- The datum does not fit. -/
  | complaint (c : Complaint)
  /-- The text is not well formed, or has a form that its format does not allow here. -/
  | malformed
deriving DecidableEq

/-- What the two formats treat differently. -/
structure Dialect where
  /-- How numbers with a fraction are shown in complaints. -/
  layout : Ieee.Layout
  /-- Whether items after the last field of a record are passed over. -/
  extraItems : Bool
  /-- Whether an empty map or list, and not a null, stands for no content. -/
  emptyForUnit : Bool
  /-- Whether a choice written as a map is counted before its name is looked at. -/
  countFirst : Bool

/-- The dialect of JSON. -/
def Dialect.json : Dialect := ⟨.scientific, false, false, false⟩

/-- The dialect of TOML. -/
def Dialect.toml : Dialect := ⟨.plain, true, true, true⟩

/-- How a complaint shows what was found. -/
def Found.text (l : Ieee.Layout) : Found → String
  | null => "null"
  | seq => "sequence"
  | map => "map"
  | unitVariant => "unit variant"
  | bool b => "boolean `" ++ (if b then "true" else "false") ++ "`"
  | int n => s!"integer `{n}`"
  | float bits => "floating point `" ++ Ieee.Format.double.text l bits ++ "`"
  | string s => "string " ++ Text.quoted s

/-- The text of a complaint. -/
def Complaint.message (l : Ieee.Layout) : Complaint → String
  | invalidType found expected => "invalid type: " ++ found.text l ++ ", expected " ++ expected
  | invalidValue n expected => s!"invalid value: integer `{n}`, expected {expected}"
  | invalidLength n expected => s!"invalid length {n}, expected {expected}"
  | unknownVariant name known =>
    "unknown variant `" ++ name ++ "`, expected one of "
      ++ ", ".intercalate (known.map fun k => "`" ++ k ++ "`")
  | missingField name => "missing field `" ++ name ++ "`"
  | duplicateField name => "duplicate field `" ++ name ++ "`"

/-- The result of decoding. -/
abbrev Decoded (α : Type) := Except Refusal α

/-- Refuses with a complaint. -/
def complain {α : Type} (c : Complaint) : Decoded α := .error (.complaint c)

/-- Refuses a datum of the wrong type; where there is no datum to speak of, the text is at fault. -/
def mismatch {α : Type} (expected : String) : Datum → Decoded α
  | null => complain (.invalidType .null expected)
  | bool b => complain (.invalidType (.bool b) expected)
  | int n => complain (.invalidType (.int n) expected)
  | float b => complain (.invalidType (.float b) expected)
  | string s => complain (.invalidType (.string s) expected)
  | seq _ => complain (.invalidType .seq expected)
  | map _ | datetime _ => complain (.invalidType .map expected)
  | skipOnly | broken => .error .malformed

/-- Passes over a datum. -/
def skip (d : Datum) : Decoded Unit := if d.isWhole then .ok () else .error .malformed

/-! ## Scalars -/

/-- A truth value. -/
def toBool : Datum → Decoded Bool
  | bool b => .ok b
  | d => mismatch "a boolean" d

/-- A text. -/
def toText : Datum → Decoded String
  | string s => .ok s
  | d => mismatch "a string" d

/-- A whole number up to `bound`; complaints call the type `name`. -/
def toNat (name : String) (bound : Nat) : Datum → Decoded Nat
  | int n =>
    if 0 ≤ n ∧ n ≤ bound then .ok n.toNat else complain (.invalidValue n name)
  | d => mismatch name d

/-- A value that may be missing: null is none. -/
def toOption {α : Type} (f : Datum → Decoded α) : Datum → Decoded (Option α)
  | null => .ok none
  | d => (f d).map some

/-! ## Lists and maps -/

/-- The key under which a date or a time is found where a map is wanted. -/
def datetimeKey : String := "$__toml_private_datetime"

/-- The entries of a datum that counts as a map. -/
def entries? : Datum → Option (List (Datum × Datum))
  | map es => some es
  | datetime s => some [(string datetimeKey, string s)]
  | _ => none

/-- A list. -/
def toList {α : Type} (f : Datum → Decoded α) : Datum → Decoded (List α)
  | seq items => items.mapM f
  | d => mismatch "a sequence" d

/-- A key: nothing but a string is one. -/
def toKey : Datum → Decoded String
  | string s => .ok s
  | _ => .error .malformed

/-- An entry put in the place that its key has in rising order; it replaces one of the same key. -/
def insertSorted {α : Type} (key : String) (a : α) : List (String × α) → List (String × α)
  | [] => [(key, a)]
  | (k, b) :: es =>
    if key < k then (key, a) :: (k, b) :: es
    else if key = k then (key, a) :: es
    else (k, b) :: insertSorted key a es

/-- A map from texts, in rising order of the keys; the last of two equal keys counts. -/
def toSortedMap {α : Type} (f : Datum → Decoded α) (d : Datum) :
    Decoded (List (String × α)) :=
  match d.entries? with
  | none => mismatch "a map" d
  | some es => es.foldlM (fun acc (k, v) => do
      let key ← toKey k
      return insertSorted key (← f v) acc) []

/-! ## Records -/

/-- A field of a record under construction: its name, and what its datum changes. -/
structure Field (α : Type) where
  name : String
  set : Datum → Decoded (α → α)

/-- A field that a decoder and a setter make up. -/
def Field.of {α β : Type} (name : String) (decode : Datum → Decoded β) (set : β → α → α) :
    Field α :=
  ⟨name, fun d => (decode d).map set⟩

/-- The description of a record: what complaints call it, and its fields in order. -/
structure Record (α : Type) where
  name : String
  fields : List (Field α)

namespace Record

variable {α : Type}

/-- The field of a name. -/
def field? (r : Record α) (name : String) : Option (Field α) := r.fields.find? (·.name == name)

/-- The expectation that complaints name. -/
def expectation (r : Record α) : String := "struct " ++ r.name

/-- Reads entries one after the other. Unknown fields are passed over; a known one may come once. -/
def decodeEntries (r : Record α) : List String → α → List (Datum × Datum) → Decoded α
  | _, a, [] => .ok a
  | seen, a, (k, v) :: es => do
    let key ← toKey k
    match r.field? key with
    | none => do
      skip v
      decodeEntries r seen a es
    | some f =>
      if key ∈ seen then complain (.duplicateField key)
      else do
        let change ← f.set v
        decodeEntries r (key :: seen) (change a) es

/-- Reads items into the fields in order, and returns the items that are left. -/
def decodeItems : List (Field α) → α → List Datum → Decoded (α × List Datum)
  | [], a, items => .ok (a, items)
  | _ :: _, a, [] => .ok (a, [])
  | f :: fs, a, d :: items => do
    let change ← f.set d
    decodeItems fs (change a) items

/-- Refuses items that are left, in a dialect that does so. -/
def checkRest (dialect : Dialect) (rest : List Datum) : Decoded Unit :=
  if dialect.extraItems ∨ rest.isEmpty then .ok () else .error .malformed

/-- A record that starts as `start`, from a map or from a list. -/
def decode (r : Record α) (dialect : Dialect) (start : α) (d : Datum) : Decoded α :=
  match d.entries?, d with
  | some es, _ => r.decodeEntries [] start es
  | none, seq items => do
    let (a, rest) ← decodeItems r.fields start items
    checkRest dialect rest
    return a
  | none, d => mismatch r.expectation d

end Record

/-! ## Choices -/

/-- A choice as it is written: a name, and its content if it has any. -/
structure Variant where
  name : String
  content : Option Datum

/-- The choice that a datum names: a string, or a map with one entry. The second result refuses a
map with more entries; it counts after the content of the first one. -/
def toVariant (dialect : Dialect) (known : List String) :
    Datum → Decoded (Variant × Decoded Unit)
  | string s =>
    if s ∈ known then .ok (⟨s, none⟩, .ok ()) else complain (.unknownVariant s known)
  | map ((k, v) :: rest) =>
    let atEnd : Decoded Unit := if rest.isEmpty then .ok () else .error .malformed
    if dialect.countFirst ∧ ¬rest.isEmpty then .error .malformed
    else match k with
      | string s =>
        if s ∈ known then .ok (⟨s, some v⟩, atEnd) else complain (.unknownVariant s known)
      | k => mismatch "variant identifier" k
  | _ => .error .malformed

/-- Checks that a choice has no content. -/
def checkUnit (dialect : Dialect) : Option Datum → Decoded Unit
  | none => .ok ()
  | some d =>
    if dialect.emptyForUnit then
      match d with
      | map [] | seq [] => .ok ()
      | _ => .error .malformed
    else
      match d with
      | null => .ok ()
      | d => mismatch "unit" d

/-- One of several names without content. -/
def toChoice {α : Type} (dialect : Dialect) (choices : List (String × α)) (d : Datum) :
    Decoded α := do
  let (v, rest) ← toVariant dialect (choices.map (·.1)) d
  match choices.lookup v.name with
  | none => complain (.unknownVariant v.name (choices.map (·.1)))
  | some a => do
    checkUnit dialect v.content
    rest
    return a

end WasmHost.Datum

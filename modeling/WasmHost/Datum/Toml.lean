import WasmHost.Datum.Toml.Scalar

/-!
# Reading data from TOML

A document is a tree of tables that headers and keys fill in. Each table remembers how it came to
be, because that decides whether it may still be extended: a table that only a longer header implied
may get a header of its own, one that dotted keys made may get more dotted keys, and nothing else
may be defined twice.
-/

namespace WasmHost.Datum.Toml

/-- How a table came to be. -/
inductive Origin where
  /-- By its own header. -/
  | header
  /-- As part of a longer header. -/
  | implied
  /-- By dotted keys. -/
  | dotted
deriving DecidableEq

/-- A node of the document. -/
inductive Node where
  | value (d : Datum)
  | table (origin : Origin) (entries : List (String × Node))
  | tables (items : List (List (String × Node)))

/-- The entries of a table, in the order in which they first appeared. -/
abbrev Entries := List (String × Node)

/-- The entry of a key. -/
def lookup (key : String) (es : Entries) : Option Node := (es.find? (·.1 == key)).map (·.2)

/-- The entries with the node of a key put in place, at the end if the key is new. -/
def put (key : String) (n : Node) : Entries → Entries
  | [] => [(key, n)]
  | (k, m) :: es => if k = key then (k, n) :: es else (k, m) :: put key n es

/-- Changes the table at a path. Tables that are missing on the way come to be with the given
origin; dotted keys pass only through tables without a header of their own, and end in a table that
dotted keys made. -/
def modifyAt (origin : Origin) (f : Origin → Entries → Option Entries) :
    List String → Origin → Entries → Option Entries
  | [], here, es => f here es
  | key :: path, _, es =>
    match lookup key es with
    | none => do
      return put key (.table origin (← modifyAt origin f path origin [])) es
    | some (.value _) => none
    | some (.table o inner) =>
      if origin = .dotted ∧ o = .header then none
      else do return put key (.table o (← modifyAt origin f path o inner)) es
    | some (.tables items) =>
      match items.reverse with
      | [] => none
      | last :: earlier => do
        return put key (.tables (earlier.reverse ++ [← modifyAt origin f path .header last])) es

/-- Defines a key that is not defined yet. A plain key does not reach into a table that dotted keys
made, and dotted keys reach into no other. -/
def define (isDotted : Bool) (key : String) (d : Datum) (o : Origin) (es : Entries) :
    Option Entries :=
  if (o = .dotted) ≠ isDotted then none
  else if (lookup key es).isSome then none
  else some (put key (.value d) es)

/-- Adds `path = value` to the table that the current header names. -/
def addValue (header : List String) (path : List String) (d : Datum) (root : Entries) :
    Option Entries := do
  let key ← path.getLast?
  let outer := path.dropLast
  modifyAt .implied
    (fun o es => modifyAt .dotted (define (!outer.isEmpty) key d) outer o es) header .header root

/-- Opens the table of a header. -/
def openTable (path : List String) (root : Entries) : Option Entries := do
  let key ← path.getLast?
  modifyAt .implied (fun _ es =>
    match lookup key es with
    | none => some (put key (.table .header []) es)
    | some (.table .implied inner) => some (put key (.table .header inner) es)
    | some _ => none) path.dropLast .header root

/-- Opens one more table of the array that a double header names. -/
def openArrayTable (path : List String) (root : Entries) : Option Entries := do
  let key ← path.getLast?
  modifyAt .implied (fun _ es =>
    match lookup key es with
    | none => some (put key (.tables [[]]) es)
    | some (.tables items) => some (put key (.tables (items ++ [[]])) es)
    | some _ => none) path.dropLast .header root

mutual

/-- The datum of a node. -/
def Node.toDatum : Node → Datum
  | .value d => d
  | .table _ es => map (entriesToDatum es)
  | .tables items => seq (itemsToDatum items)

/-- The entries of a table as data. -/
def entriesToDatum : List (String × Node) → List (Datum × Datum)
  | [] => []
  | (k, n) :: es => (string k, n.toDatum) :: entriesToDatum es

/-- The tables of an array as data. -/
def itemsToDatum : List (List (String × Node)) → List Datum
  | [] => []
  | es :: items => map (entriesToDatum es) :: itemsToDatum items

end

/-! ## The grammar -/

/-- The greatest nesting of values, and the greatest number of parts of a key, plus one. -/
def nestingBound : Nat := 80

/-- Characters of a bare key. -/
def isBareKeyChar (c : Char) : Bool :=
  c.isDigit || ('a' ≤ c && c ≤ 'z') || ('A' ≤ c && c ≤ 'Z') || c = '-' || c = '_'

/-- One part of a key. -/
def simpleKey : List Char → Option (String × List Char)
  | '"' :: rest => do
    let (cs, rest) ← basicString (rest.length + 1) rest
    return (String.ofList cs, rest)
  | '\'' :: rest => do
    let (cs, rest) ← literalString rest
    return (String.ofList cs, rest)
  | cs =>
    match cs.takeWhile isBareKeyChar with
    | [] => none
    | ks => some (String.ofList ks, cs.drop ks.length)

/-- A key: parts with points between them. -/
def keyParts : Nat → List Char → Option (List String × List Char)
  | 0, _ => none
  | fuel + 1, cs => do
    let (k, rest) ← simpleKey (skipBlanks cs)
    match skipBlanks rest with
    | '.' :: rest => do
      let (ks, rest) ← keyParts fuel rest
      return (k :: ks, rest)
    | rest => return ([k], rest)

/-- A key with fewer parts than the bound. -/
def readKey (cs : List Char) : Option (List String × List Char) := do
  let (ks, rest) ← keyParts (cs.length + 1) cs
  if ks.length < nestingBound then some (ks, rest) else none

/-- What follows a comment, if one stands here. -/
def skipComment : List Char → List Char
  | '#' :: cs => cs.dropWhile isTextChar
  | cs => cs

/-- What follows the blanks, line ends and comments inside an array. -/
def skipFiller : Nat → List Char → List Char
  | 0, cs => cs
  | fuel + 1, cs =>
    match skipBlanks cs with
    | '#' :: rest => skipFiller fuel (skipComment ('#' :: rest))
    | cs =>
      match lineEnd? cs with
      | some rest => skipFiller fuel rest
      | none => cs

mutual

/-- A value; `depth` is the nesting it stands in. -/
def value : Nat → Nat → List Char → Option (Datum × List Char)
  | 0, _, _ => none
  | fuel + 1, depth, cs =>
    match cs with
    | '"' :: _ | '\'' :: _ => do
      let (s, rest) ← readString cs
      return (string s, rest)
    | '[' :: rest => do
      if depth + 1 < nestingBound then
        let (ds, rest) ← arrayItems fuel (depth + 1) rest
        return (seq ds, rest)
      else none
    | '\x7b' :: rest => do
      if depth + 1 < nestingBound then
        match skipBlanks rest with
        | '\x7d' :: rest => return (map [], rest)
        | rest =>
          let (es, rest) ← inlinePairs fuel (depth + 1) rest []
          return (map (entriesToDatum es), rest)
      else none
    | 't' :: 'r' :: 'u' :: 'e' :: rest => some (bool true, rest)
    | 'f' :: 'a' :: 'l' :: 's' :: 'e' :: rest => some (bool false, rest)
    | _ =>
      match readDateTime cs with
      | some r => some r
      | none => readNumber cs

/-- The items of an array up to its closing bracket; a comma may follow the last one. -/
def arrayItems : Nat → Nat → List Char → Option (List Datum × List Char)
  | 0, _, _ => none
  | fuel + 1, depth, cs =>
    match skipFiller cs.length cs with
    | ']' :: rest => some ([], rest)
    | cs => do
      let (d, rest) ← value fuel depth cs
      match skipFiller rest.length rest with
      | ',' :: rest => do
        let (ds, rest) ← arrayItems fuel depth rest
        return (d :: ds, rest)
      | ']' :: rest => return ([d], rest)
      | _ => none

/-- The pairs of an inline table up to its closing brace; no comma follows the last one. -/
def inlinePairs : Nat → Nat → List Char → Entries → Option (Entries × List Char)
  | 0, _, _, _ => none
  | fuel + 1, depth, cs, es => do
    let (path, rest) ← readKey cs
    let rest ← after? '=' rest
    let (d, rest) ← value fuel depth (skipBlanks rest)
    let es ← addValue [] path d es
    match skipBlanks rest with
    | ',' :: rest => inlinePairs fuel depth rest es
    | '\x7d' :: rest => return (es, rest)
    | _ => none

end

/-- What follows the end of a line: a comment may stand before it, and the text may end instead. -/
def endOfLine (cs : List Char) : Option (List Char) :=
  match skipComment (skipBlanks cs) with
  | [] => some []
  | cs => lineEnd? cs

/-- Reads the lines of a document into the tables found so far. -/
def lines : Nat → List String → Entries → List Char → Option Entries
  | 0, _, root, cs => if cs.isEmpty then some root else none
  | fuel + 1, header, root, cs =>
    match skipBlanks cs with
    | [] => some root
    | '[' :: '[' :: rest => do
      let (path, rest) ← readKey rest
      let rest ← after? ']' (← after? ']' rest)
      lines fuel path (← openArrayTable path root) (← endOfLine rest)
    | '[' :: rest => do
      let (path, rest) ← readKey rest
      let rest ← after? ']' rest
      lines fuel path (← openTable path root) (← endOfLine rest)
    | c :: rest =>
      match endOfLine (c :: rest) with
      | some rest => lines fuel header root rest
      | none => do
        let (path, rest) ← readKey (c :: rest)
        let rest ← after? '=' rest
        let (d, rest) ← value (2 * rest.length + 2) 0 (skipBlanks rest)
        lines fuel header (← addValue header path d root) (← endOfLine rest)

/-- The datum of a document; a byte order mark may stand before it. -/
def read (text : String) : Option Datum := do
  let cs := match text.toList with
    | '\ufeff' :: cs => cs
    | cs => cs
  let root ← lines (cs.length + 1) [] [] cs
  return map (entriesToDatum root)

end WasmHost.Datum.Toml

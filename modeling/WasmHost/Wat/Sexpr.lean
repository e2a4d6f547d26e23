import WasmHost.Wat.Token

/-!
# Nested lists

The tokens of a text form a sequence of trees: a tree is a token that is no parenthesis, or a list
of trees between parentheses.
-/

namespace WasmHost.Wat

/-- A token or a parenthesised list. -/
inductive Sexpr where
  | word (chars : String)
  | quotedId (name : String)
  | string (bytes : List UInt8)
  | list (items : List Sexpr)
deriving Inhabited

namespace Sexpr

/-- Builds trees from tokens. `done` are the finished trees of the list at hand, in reverse; `open`
those of the lists around it. -/
def build (done : List Sexpr) (around : List (List Sexpr)) : List Token → Option (List Sexpr)
  | [] => if around.isEmpty then some done.reverse else none
  | .opening :: rest => build [] (done :: around) rest
  | .closing :: rest =>
    match around with
    | [] => none
    | outer :: around => build (list done.reverse :: outer) around rest
  | .word w :: rest => build (word w :: done) around rest
  | .quotedId n :: rest => build (quotedId n :: done) around rest
  | .string b :: rest => build (string b :: done) around rest

/-- The trees of a text. -/
def ofText? (text : String) : Option (List Sexpr) := do build [] [] (← Token.ofText? text)

/-- The identifier that a tree is, without its sign. -/
def id? : Sexpr → Option String
  | word w => if w.startsWith "$" ∧ 1 < w.length then some (w.drop 1).toString else none
  | quotedId n => some n
  | _ => none

/-- The items of a list that begins with a keyword. -/
def form? (keyword : String) : Sexpr → Option (List Sexpr)
  | list (word w :: items) => if w = keyword then some items else none
  | _ => none

end Sexpr

end WasmHost.Wat

import EventRules.Number.FloatText

/-!
JSON values and their texts. The members of an object stand in the order of their keys, each key once.
-/

namespace EventRules
set_option autoImplicit false

inductive Json where
  | null
  | boolean (b : Bool)
  | integer (n : Int)
  | float (x : Float)
  | text (s : String)
  | array (items : List Json)
  | object (members : List (String × Json))

namespace Json

open Number

/-- Floats in JSON texts: positional from 10 ^ -5 up to 10 ^ 16, always with a point. -/
def floatStyle : FloatStyle where
  plainFrom := -5
  plainBelow := 16
  pointZero := true
  expPlus := true
  tie := .even

/-- Members with a new one at the place of its key; an old member of that key goes. -/
def insert (key : String) (value : Json) : List (String × Json) → List (String × Json)
  | [] => [(key, value)]
  | (k, v) :: rest =>
    if key < k then (key, value) :: (k, v) :: rest
    else if key = k then (key, value) :: rest
    else (k, v) :: insert key value rest

/-- The object of members given in any order; the last one of a key counts. -/
def ofMembers (members : List (String × Json)) : Json :=
  .object (members.foldl (fun acc m => insert m.1 m.2 acc) [])

def hexDigit (n : Nat) : Char := "0123456789abcdef".toList.getD n '0'

/-- A character inside a quoted text. -/
def escape (c : Char) : List Char :=
  match c with
  | '"' => ['\\', '"']
  | '\\' => ['\\', '\\']
  | '\n' => ['\\', 'n']
  | '\r' => ['\\', 'r']
  | '\t' => ['\\', 't']
  | '\x08' => ['\\', 'b']
  | '\x0c' => ['\\', 'f']
  | c =>
    if c.toNat < 32 then
      ['\\', 'u', '0', '0', hexDigit (c.toNat / 16), hexDigit (c.toNat % 16)]
    else [c]

def quote (s : String) : String := String.ofList ('"' :: s.toList.flatMap escape ++ ['"'])

/-- How the items of a list are set off: what stands before the first one, between two, and behind
the last one. -/
structure Spacing where
  opening : String
  between : String
  closing : String
  colon : String

/-- No blanks, or one item a line, two blanks deeper than what it stands in. -/
def spacing (pretty : Bool) (depth : Nat) : Spacing :=
  let line (depth : Nat) := "\n" ++ String.ofList (List.replicate (2 * depth) ' ')
  if pretty then ⟨line (depth + 1), "," ++ line (depth + 1), line depth, ": "⟩ else ⟨"", ",", "", ":"⟩

/-- Rendered items between two brackets. -/
def enclose (open_ close : String) (sp : Spacing) (items : List String) : String :=
  if items.isEmpty then open_ ++ close
  else open_ ++ sp.opening ++ String.intercalate sp.between items ++ sp.closing ++ close

mutual

def renderAt (pretty : Bool) (depth : Nat) : Json → String
  | null => "null"
  | boolean b => if b then "true" else "false"
  | integer n => toString n
  | float x => if x.isFinite then floatStyle.render x else "null"
  | text s => quote s
  | array items => enclose "[" "]" (spacing pretty depth) (renderItems pretty (depth + 1) items)
  | object members =>
    enclose "\x7b" "\x7d" (spacing pretty depth)
      (renderMembers pretty (depth + 1) (spacing pretty depth).colon members)

def renderItems (pretty : Bool) (depth : Nat) : List Json → List String
  | [] => []
  | j :: js => renderAt pretty depth j :: renderItems pretty depth js

def renderMembers (pretty : Bool) (depth : Nat) (colon : String) : List (String × Json) → List String
  | [] => []
  | (k, j) :: ms =>
    (quote k ++ colon ++ renderAt pretty depth j) :: renderMembers pretty depth colon ms

end

/-- The text without any blanks. -/
def compact (j : Json) : String := renderAt false 0 j

/-- The text with one item a line. -/
def pretty (j : Json) : String := renderAt true 0 j

end Json

end EventRules

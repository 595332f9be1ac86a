import GraphInference.Json.Basic
import GraphInference.Sorted.Map

/-!
# Writing JSON

`Json.compact` writes a document without blanks, `Json.pretty` one item a line, indented by two.
`Json.sortFields` makes the text independent of the order of fields.
-/

namespace GraphInference

namespace JsonNumber

/-- The digits of a number; a double keeps a point. -/
def text : JsonNumber → String
  | .natural n => toString n
  | .negative n => toString n
  | .double d =>
    if d.isNaN || d.isInfinite then "null"
    else if d.text.toList.contains '.' then d.text
    else d.text ++ ".0"

end JsonNumber

namespace Json

/-- A digit in base sixteen. -/
def hexDigit (n : Nat) : Char :=
  Nat.digitChar (n % 16)

/-- A character inside a string. -/
def escapeChar (c : Char) : List Char :=
  if c = '"' then ['\\', '"']
  else if c = '\\' then ['\\', '\\']
  else if c = '\x08' then ['\\', 'b']
  else if c = '\x0c' then ['\\', 'f']
  else if c = '\n' then ['\\', 'n']
  else if c = '\r' then ['\\', 'r']
  else if c = '\t' then ['\\', 't']
  else if c.toNat < 0x20 then ['\\', 'u', '0', '0', hexDigit (c.toNat / 16), hexDigit c.toNat]
  else [c]

/-- A string in its quotes. -/
def quote (s : String) : String :=
  String.ofList ('"' :: s.toList.flatMap escapeChar ++ ['"'])

mutual

/-- The document with the fields of every object in the order of their names. -/
def sortFields : Json → Json
  | .array items => .array (sortItems items)
  | .object fields => .object (SortedMap.ofList (sortNamed fields)).entries
  | v => v

def sortItems : List Json → List Json
  | [] => []
  | v :: rest => sortFields v :: sortItems rest

def sortNamed : List (String × Json) → List (String × Json)
  | [] => []
  | (name, v) :: rest => (name, sortFields v) :: sortNamed rest

end

mutual

/-- The document without blanks. -/
def compact : Json → String
  | .null | .unreadable => "null"
  | .bool b => if b then "true" else "false"
  | .number n => n.text
  | .string s => quote s
  | .array items => "[" ++ ",".intercalate (compactItems items) ++ "]"
  | .object fields => "\x7b" ++ ",".intercalate (compactFields fields) ++ "\x7d"

def compactItems : List Json → List String
  | [] => []
  | v :: rest => compact v :: compactItems rest

def compactFields : List (String × Json) → List String
  | [] => []
  | (name, v) :: rest => (quote name ++ ":" ++ compact v) :: compactFields rest

end

/-- A line break and the indentation of a depth. -/
def newline (indent : Nat) : String :=
  String.ofList ('\n' :: List.replicate (2 * indent) ' ')

mutual

/-- The document one item a line, at an indentation. -/
def prettyAt (indent : Nat) : Json → String
  | .array (v :: rest) =>
    "[" ++ newline (indent + 1) ++
      ("," ++ newline (indent + 1)).intercalate (prettyItems (indent + 1) (v :: rest)) ++
      newline indent ++ "]"
  | .object (f :: rest) =>
    "\x7b" ++ newline (indent + 1) ++
      ("," ++ newline (indent + 1)).intercalate (prettyFields (indent + 1) (f :: rest)) ++
      newline indent ++ "\x7d"
  | .array [] => "[]"
  | .object [] => "\x7b\x7d"
  | .null | .unreadable => "null"
  | .bool b => if b then "true" else "false"
  | .number n => n.text
  | .string s => quote s

def prettyItems (indent : Nat) : List Json → List String
  | [] => []
  | v :: rest => prettyAt indent v :: prettyItems indent rest

def prettyFields (indent : Nat) : List (String × Json) → List String
  | [] => []
  | (name, v) :: rest => (quote name ++ ": " ++ prettyAt indent v) :: prettyFields indent rest

end

/-- The document one item a line. -/
def pretty (v : Json) : String :=
  prettyAt 0 v

end Json

end GraphInference

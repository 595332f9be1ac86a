import GraphInference.Number.Decimal

/-!
# JSON trees

A document as a tree. Numbers are kept as they are read: a natural below 2^64, a negative integer
down to -2^63, and any other number as a double.
-/

namespace GraphInference

/-- A JSON number. -/
inductive JsonNumber where
  | natural (n : Nat)
  | negative (n : Int)
  | double (d : Double)
deriving DecidableEq

/-- A JSON document. `unreadable` is a leaf of good form that names nothing: a number out of range,
or a string with half a surrogate pair. -/
inductive Json where
  | null
  | bool (b : Bool)
  | number (n : JsonNumber)
  | string (s : String)
  | array (items : List Json)
  | object (fields : List (String × Json))
  | unreadable

instance : Inhabited Json := ⟨.null⟩

namespace Json

/-- The value of an object's field, the last one of that name. -/
def field? (name : String) : Json → Option Json
  | .object fields => (fields.reverse.find? (·.1 = name)).map (·.2)
  | _ => none

def string? : Json → Option String
  | .string s => some s
  | _ => none

def natural? : Json → Option Nat
  | .number (.natural n) => some n
  | _ => none

def bool? : Json → Option Bool
  | .bool b => some b
  | _ => none

def array? : Json → Option (List Json)
  | .array items => some items
  | _ => none

def object? : Json → Option (List (String × Json))
  | .object fields => some fields
  | _ => none

mutual

/-- The number of brackets around the innermost leaf. -/
def depth : Json → Nat
  | .array items => depthItems items + 1
  | .object fields => depthFields fields + 1
  | _ => 0

def depthItems : List Json → Nat
  | [] => 0
  | v :: rest => max (depth v) (depthItems rest)

def depthFields : List (String × Json) → Nat
  | [] => 0
  | (_, v) :: rest => max (depth v) (depthFields rest)

end

end Json

end GraphInference

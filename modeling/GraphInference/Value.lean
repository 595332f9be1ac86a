import GraphInference.Number.Decimal

/-!
# Attribute values

A value is a text, an integer of 64 bits, a double or a truth value. Integers and doubles compare
with each other; values of other kinds compare only within their kind.
-/

namespace GraphInference

/-- The value of an attribute. Equality is of kind and content, for doubles of bits. -/
inductive Value where
  | string (s : String)
  | long (n : Int64)
  | double (d : Double)
  | boolean (b : Bool)
deriving DecidableEq, Inhabited

namespace Value

/-- The order of two values; none for kinds that do not compare and for NaN. -/
def compare? : Value → Value → Option Ordering
  | .string a, .string b => some (compare a b)
  | .long a, .long b => some (compare a.toInt b.toInt)
  | .double a, .double b => a.compare? b
  | .long a, .double b => (Double.ofInt a.toInt).compare? b
  | .double a, .long b => a.compare? (Double.ofInt b.toInt)
  | .boolean a, .boolean b => some (compare a b)
  | _, _ => none

/-- The value as text. -/
def text : Value → String
  | .string s => s
  | .long n => toString n.toInt
  | .double d => d.text
  | .boolean b => if b then "true" else "false"

/-- The value as it stands in a pattern, a string in quotes. -/
def literal : Value → String
  | .string s => "\"" ++ s ++ "\""
  | v => v.text

end Value

/-- How a value predicate compares. -/
inductive Comparison where
  | eq | neq | gt | gte | lt | lte | contains
deriving DecidableEq, Inhabited

namespace Comparison

def symbol : Comparison → String
  | .eq => "=="
  | .neq => "!="
  | .gt => ">"
  | .gte => ">="
  | .lt => "<"
  | .lte => "<="
  | .contains => "contains"

def all : List Comparison :=
  [.eq, .neq, .gt, .gte, .lt, .lte, .contains]

def ofSymbol? (symbol : String) : Option Comparison :=
  all.find? (·.symbol = symbol)

theorem ofSymbol?_symbol (c : Comparison) : ofSymbol? c.symbol = some c := by
  cases c <;> decide

/-- Whether the characters of `part` stand somewhere in `whole`, in order and together. -/
def occursIn (part : List Char) : List Char → Bool
  | [] => part.isEmpty
  | c :: cs => part.isPrefixOf (c :: cs) || occursIn part cs

/-- Whether an order of actual and expected value passes. -/
def accepts : Comparison → Ordering → Bool
  | .eq, o => o = .eq
  | .neq, o => o ≠ .eq
  | .gt, o => o = .gt
  | .gte, o => o ≠ .lt
  | .lt, o => o = .lt
  | .lte, o => o ≠ .gt
  | .contains, _ => false

/-- Whether `actual` stands in the relation to `expected`. Values that do not compare are only ever
different. -/
def test (c : Comparison) (actual expected : Value) : Bool :=
  match c with
  | .contains =>
    match actual, expected with
    | .string a, .string e => occursIn e.toList a.toList
    | _, _ => false
  | c =>
    match actual.compare? expected with
    | some o => c.accepts o
    | none => c = .neq

end Comparison

/-- A value predicate: a comparison with a literal. -/
structure Constraint where
  comparison : Comparison
  value : Value
deriving DecidableEq, Inhabited

namespace Constraint

/-- Equality with a value. -/
def eq (value : Value) : Constraint :=
  ⟨.eq, value⟩

def test (c : Constraint) (actual : Value) : Bool :=
  c.comparison.test actual c.value

/-- The predicate in a pattern; equality goes without its sign. -/
def text (c : Constraint) : String :=
  match c.comparison with
  | .eq => c.value.literal
  | op => op.symbol ++ " " ++ c.value.literal

end Constraint

end GraphInference

import GraphInference.Error
import GraphInference.Pattern.Syntax
import GraphInference.Text.Alphanumeric
import GraphInference.Text.Quoted
import GraphInference.Text.Scan

/-!
# Reading patterns

A pattern is one or more statements, a rule is a pattern, an arrow and a pattern:

    statement  := [variable] [relation] [property ("," property)*] ";"
    relation   := "(" player ("," player)* ")"
    player     := [label ":"] variable
    property   := "isa" (variable | label) | "has" label (variable | constraint)
                | "id" string | "val" constraint
    constraint := [comparison] literal

Blanks may stand between tokens and must follow a keyword and the label of a `has`. Tokens are as
long as they can be. A text that does not fit is refused with the place where reading stopped.
-/

namespace GraphInference

open Text

namespace Grammar

/-! ## Tokens -/

def isVarChar (c : Char) : Bool :=
  isAlphanumeric c || c = '_' || c = '-'

def isLabelChar (c : Char) : Bool :=
  isVarChar c || c = '@'

def label : Scanner Label := fun cs =>
  (scanRun isLabelChar cs).map fun (name, r) => (⟨String.ofList name⟩, r)

def var : Scanner Var := fun cs =>
  match cs with
  | '$' :: r => (scanRun isVarChar r).map fun (name, r) => (Var.ofName (String.ofList name), r)
  | _ => none

/-- Reads the characters up to a closing quote. -/
def untilQuote (quote : Char) : Scanner String := fun cs =>
  match cs.dropWhile (· ≠ quote) with
  | _ :: r => some (String.ofList (cs.takeWhile (· ≠ quote)), r)
  | [] => none

/-- Reads a string in single or double quotes. -/
def string : Scanner String := fun cs =>
  match cs with
  | '"' :: r => untilQuote '"' r
  | '\'' :: r => untilQuote '\'' r
  | _ => none

/-- The integer of a sign and digits, if it fits 64 signed bits. -/
def long? (negative : Bool) (digits : List Char) : Option Value :=
  let n : Nat := Double.digitsValue digits
  let i : Int := if negative then -(n : Int) else n
  if Int64.minValue.toInt ≤ i ∧ i ≤ Int64.maxValue.toInt then some (.long (Int64.ofInt i)) else none

/-- Reads an integer, or a double if digits follow a point. -/
def number : Scanner Value := fun cs =>
  let (negative, r) := match cs with
    | '-' :: r => (true, r)
    | r => (false, r)
  (scanRun Char.isDigit r).bind fun (whole, r) =>
    let fraction? : Option (List Char × List Char) := match r with
      | '.' :: r => scanRun Char.isDigit r
      | _ => none
    match fraction? with
    | some (fraction, r) =>
      some (.double (.ofMagnitude negative (Double.Decimal.mk whole fraction 0).magnitude), r)
    | none => (long? negative whole).map fun v => (v, r)

/-- Reads a word that stands for `a`. -/
def keyword {α : Type} (word : String) (a : α) : Scanner α := fun cs =>
  (afterWord? word.toList cs).map fun r => (a, r)

def literal : Scanner Value :=
  either (fun cs => (string cs).map fun (s, r) => (.string s, r)) <|
  either number <|
  either (keyword "true" (.boolean true)) (keyword "false" (.boolean false))

def comparison : Scanner Comparison :=
  either (keyword "!=" .neq) <|
  either (keyword ">=" .gte) <|
  either (keyword "<=" .lte) <|
  either (keyword "==" .eq) <|
  either (keyword ">" .gt) <|
  either (keyword "<" .lt) (keyword "contains" .contains)

/-! ## Properties -/

/-- Reads a literal with or without a comparison before it. -/
def constraint : Scanner Constraint :=
  either
    (fun cs => (padded comparison cs).bind fun (op, r) =>
      (literal r).map fun (v, r) => (⟨op, v⟩, r))
    (fun cs => (literal cs).map fun (v, r) => (.eq v, r))

/-- Reads by `s` after a keyword and blanks. -/
def after {α : Type} (word : String) (s : Scanner α) : Scanner α := fun cs =>
  ((afterWord? word.toList cs).bind someBlanks?).bind s

def typeRef : Scanner TypeRef :=
  either (fun cs => (var cs).map fun (v, r) => (.var v, r))
    (fun cs => (label cs).map fun (l, r) => (.label l, r))

def owned : Scanner WrittenOwned :=
  either (fun cs => (var cs).map fun (v, r) => (.var v, r))
    (fun cs => (constraint cs).map fun (c, r) => (.value c, r))

def property : Scanner WrittenProperty :=
  either (after "isa" fun cs => (typeRef cs).map fun (t, r) => (.isa t, r)) <|
  either (after "has" fun cs => (label cs).bind fun (l, r) =>
    ((someBlanks? r).bind owned).map fun (target, r) => (.has l target, r)) <|
  either (after "id" fun cs => (string cs).map fun (s, r) => (.identity ⟨s⟩, r))
    (after "val" fun cs => (constraint cs).map fun (c, r) => (.value c, r))

/-! ## Relations -/

def player : Scanner RolePlayer :=
  either
    (fun cs => (label cs).bind fun (role, r) =>
      ((afterMark? ':' r).bind var).map fun (v, r) => (⟨some role, v⟩, r))
    (fun cs => (var cs).map fun (v, r) => (⟨none, v⟩, r))

def relation : Scanner (List RolePlayer) := fun cs =>
  ((afterMark? '(' cs).bind (scanSeparated player)).bind fun (players, r) =>
    (afterMark? ')' r).map fun r => (players, r)

/-! ## Statements -/

/-- What was missing where reading stopped. -/
inductive Expected where
  /-- The end of a statement. -/
  | semicolon
  /-- A statement with a variable or relation and, for a lone variable, a property. -/
  | statement
  /-- The arrow of a rule. -/
  | arrow
  /-- The end of the text. -/
  | nothing
deriving DecidableEq

/-- The place where reading stopped and what was missing there. -/
structure Fault where
  rest : List Char
  expected : Expected
deriving DecidableEq

/-- Reads a statement with the blanks after it. -/
def statement (cs : List Char) : Except Fault (WrittenStatement × List Char) :=
  let (subject, r) := optional (padded var) cs
  let (players, r) := optional (padded relation) r
  let (properties, r) := optional (scanSeparated (padded property)) r
  let written : WrittenStatement := ⟨subject, players, properties.getD []⟩
  match afterMark? ';' r with
  | none => .error ⟨skipBlanks r, .semicolon⟩
  | some r => if written.isFounded then .ok (written, r) else .error ⟨cs, .statement⟩

/-- Reads up to `n` statements, as many as there are. -/
def moreStatements : Nat → List Char → List WrittenStatement × List Char
  | 0, cs => ([], cs)
  | n + 1, cs =>
    match statement cs with
    | .error _ => ([], cs)
    | .ok (s, r) =>
      let (rest, r) := moreStatements n r
      (s :: rest, r)

/-- Reads one or more statements. -/
def statements (cs : List Char) : Except Fault (List WrittenStatement × List Char) := do
  let (s, r) ← statement cs
  let (rest, r) := moreStatements r.length r
  return (s :: rest, r)

/-- Nothing but blanks is left. -/
def finish (cs : List Char) : Except Fault Unit :=
  match skipBlanks cs with
  | [] => .ok ()
  | r => .error ⟨r, .nothing⟩

/-- Reads a whole pattern. -/
def pattern (cs : List Char) : Except Fault (List WrittenStatement) := do
  let (written, r) ← statements (skipBlanks cs)
  finish r
  return written

/-- Reads a whole rule: its body and its head. -/
def rule (cs : List Char) : Except Fault (List WrittenStatement × List WrittenStatement) := do
  let (body, r) ← statements (skipBlanks cs)
  match afterWord? ['=', '>'] (skipBlanks r) with
  | none => .error ⟨skipBlanks r, .arrow⟩
  | some r =>
    let (head, r) ← statements (skipBlanks r)
    finish r
    return (body, head)

/-! ## Refusals -/

/-- The name of what was missing. -/
def Expected.name : Expected → String
  | .semicolon => "Char"
  | .statement => "MapRes"
  | .arrow => "Tag"
  | .nothing => "Eof"

/-- The refusal of a text that is no `what`. -/
def Fault.toError (what : String) (text : List Char) (f : Fault) : InferenceError :=
  .parse ("invalid " ++ what ++ " '" ++ String.ofList (trim text) ++
    "': Parsing Error: Error \x7b input: " ++ String.ofList (quoted f.rest) ++ ", code: " ++
    f.expected.name ++ " \x7d")

end Grammar

/-- The conjunction that a text stands for. -/
def Conjunction.ofText (text : String) : Attempt Conjunction :=
  match Grammar.pattern text.toList with
  | .ok written => Conjunction.ofWritten written
  | .error f => throw (f.toError "pattern" text.toList)

end GraphInference

import GraphInference.Answer
import GraphInference.Json.Printer
import GraphInference.Json.Reader

/-!
# Answers in JSON

An answer is written as an object with its number, binding, explanation and alternatives; an
explanation names its kind in the field `type`.
-/

namespace GraphInference

/-! ## Writing -/

namespace QuerySnapshot

def toJson (q : QuerySnapshot) : Json :=
  .object
    [("id", .number (.natural q.id.number)),
      ("pattern", .string q.pattern),
      ("family", .string q.family.tag),
      ("type_label", q.label.elim .null fun l => .string l.text),
      ("role_players", .object (q.players.entries.map fun (v, roles) =>
        (v.text, .array (roles.map .string))))]

end QuerySnapshot

def RuleRef.toJson (r : RuleRef) : Json :=
  .object [("id", .number (.natural r.id.index)), ("label", .string r.label)]

def Binding.toJson (b : Binding) : Json :=
  .object (b.entries.map fun (v, id) => (v.text, .string id.text))

mutual

def Explanation.toJson : Explanation → Json
  | .empty => .object [("type", .string "empty")]
  | .lookup q => .object [("type", .string "lookup"), ("query", q.toJson)]
  | .rule r q answers =>
    .object [("type", .string "rule"), ("rule", r.toJson), ("query", q.toJson),
      ("answers", .array (answersToJson answers))]
  | .join answers => .object [("type", .string "join"), ("answers", .array (answersToJson answers))]

def Answer.toJson : Answer → Json
  | .mk id b e es =>
    .object ([("id", .number (.natural id.number)), ("binding", Binding.toJson b),
      ("explanation", e.toJson)] ++
      if es.isEmpty then [] else [("alternatives", .array (explanationsToJson es))])

def answersToJson : List Answer → List Json
  | [] => []
  | a :: rest => a.toJson :: answersToJson rest

def explanationsToJson : List Explanation → List Json
  | [] => []
  | e :: rest => e.toJson :: explanationsToJson rest

end

/-! ## Reading -/

namespace QuerySnapshot

def playersOfJson? (v : Json) : Option (SortedMap Var (List String)) := do
  let fields ← v.object?
  let entries ← fields.mapM fun (name, roles) => do
    return (Var.ofName name, ← (← roles.array?).mapM Json.string?)
  return SortedMap.ofList entries

def labelOfJson? : Json → Option (Option Label)
  | .null => some none
  | .string s => some (some ⟨s⟩)
  | _ => none

def ofJson? (v : Json) : Option QuerySnapshot := do
  return {
    id := ⟨← (← v.field? "id").natural?⟩
    pattern := ← (← v.field? "pattern").string?
    family := ← AtomFamily.ofTag? (← (← v.field? "family").string?)
    label := ← labelOfJson? (← v.field? "type_label")
    players := ← playersOfJson? (← v.field? "role_players") }

end QuerySnapshot

def RuleRef.ofJson? (v : Json) : Option RuleRef := do
  return ⟨⟨← (← v.field? "id").natural?⟩, ← (← v.field? "label").string?⟩

def Binding.ofJson? (v : Json) : Option Binding := do
  let entries ← (← v.object?).mapM fun (name, id) => do
    return (Var.ofName name, ConceptId.mk (← id.string?))
  return SortedMap.ofList entries

/-- Reads an answer, its explanations by `explain?`. -/
def Answer.ofJsonWith? (explain? : Json → Option Explanation) (v : Json) : Option Answer := do
  let id ← (← v.field? "id").natural?
  let b ← Binding.ofJson? (← v.field? "binding")
  let e ← explain? (← v.field? "explanation")
  let es ← match v.field? "alternatives" with
    | none => pure []
    | some es => (← es.array?).mapM explain?
  return .mk ⟨id⟩ b e es

/-- Reads an explanation in which explanations are nested less than `n` deep. -/
def Explanation.ofJson? : Nat → Json → Option Explanation
  | 0, _ => none
  | n + 1, v => do
    let answers : Option (List Answer) := do
      (← (← v.field? "answers").array?).mapM (Answer.ofJsonWith? (ofJson? n))
    match ← (← v.field? "type").string? with
    | "empty" => return .empty
    | "lookup" => return .lookup (← QuerySnapshot.ofJson? (← v.field? "query"))
    | "rule" =>
      return .rule (← RuleRef.ofJson? (← v.field? "rule"))
        (← QuerySnapshot.ofJson? (← v.field? "query")) (← answers)
    | "join" => return .join (← answers)
    | _ => none

namespace Answer

/-- The answer that a tree stands for. -/
def ofJson? (v : Json) : Option Answer :=
  ofJsonWith? (Explanation.ofJson? v.depth) v

/-- The greatest number of brackets around a leaf of a document that is read. -/
def maxDocumentDepth : Nat := 127

/-- The answer as a document. -/
def document (a : Answer) : String :=
  a.toJson.pretty

/-- The answer of a document. -/
def ofDocument? (text : String) : Option Answer := do
  let v ← Json.ofText? text
  if v.depth ≤ maxDocumentDepth then ofJson? v else none

end Answer

end GraphInference

import GraphInference.Pattern.Reader

/-!
# Inference rules

A rule derives the one statement of its head from the conjunction of its body. The head may use
only user-defined variables of the body.
-/

namespace GraphInference

/-- A rule: whatever the body's statements bind makes the head hold. -/
structure Rule where
  label : String
  body : Conjunction
  head : Conjunction
deriving DecidableEq, Inhabited

/-- The place of a rule among the rules of a reasoner. -/
structure RuleId where
  index : Nat
deriving DecidableEq, Inhabited

def RuleId.text (id : RuleId) : String :=
  "R" ++ toString id.index

namespace Rule

/-- The user-defined variables of the head that the body does not have. -/
def undeclared (body head : Conjunction) : List Var :=
  (head.userVars.filter fun v => !body.userVars.contains v).toList

/-- The rule of a body and a head, if the body has a statement, the head has one and no more, and
no variable of the head is undeclared. -/
def ofParts? (label : String) (body head : Conjunction) : Except InferenceError Rule :=
  if body.statements.isEmpty then
    .error (.malformedPattern ("rule '" ++ label ++ "' has an empty body"))
  else if head.statements.length ≠ 1 then
    .error (.malformedPattern ("rule '" ++ label ++ "' head must be a single pattern, found " ++
      toString head.statements.length))
  else if ¬ (undeclared body head).isEmpty then
    .error (.undeclaredVariable ("rule '" ++ label ++ "' head uses " ++
      ", ".intercalate ((undeclared body head).map Var.text) ++ " not bound by its body"))
  else .ok ⟨label, body, head⟩

/-- The rule that a text stands for. -/
def ofText (label text : String) : Attempt Rule :=
  match Grammar.rule text.toList with
  | .error f => throw (f.toError "rule" text.toList)
  | .ok (body, head) => do
    let body ← Conjunction.ofWritten body
    let head ← Conjunction.ofWritten head
    liftExcept (ofParts? label body head)

def text (r : Rule) : String :=
  r.label ++ ": " ++ r.body.text ++ " => " ++ r.head.text

end Rule

end GraphInference

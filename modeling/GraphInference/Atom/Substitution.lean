import GraphInference.Atom
import GraphInference.Error

/-!
# Substitutions from statements

A statement that pins its variable to one value gives a substitution: the value is that of an
attribute, of a value predicate or of an identifier. A statement without such a source gives the
empty value; one with several is refused.
-/

namespace GraphInference.Substitution

/-- The values that a statement pins its variable to. -/
def sources (s : Statement) : List String :=
  s.ownerships.filterMap (fun (_, _, predicate) => predicate.map fun c => c.value.text) ++
    s.constraints.map (fun c => c.value.text) ++ s.ids.map ConceptId.text

def ofStatement (s : Statement) : Except InferenceError Substitution :=
  match sources s with
  | [] => .ok ⟨s.subject, "", none⟩
  | [value] => .ok ⟨s.subject, value, none⟩
  | many => .error (.ambiguousSubstitution (s.text ++ " has " ++ toString many.length ++
      " value sources"))

end GraphInference.Substitution

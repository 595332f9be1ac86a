import GraphInference.Query.Decomposition
import GraphInference.Rule

/-!
# Rule sets

The rules of a reasoner, decomposed against the schema, in the order in which they were added. One
rule depends on another if answers of the other's head may feed a query of its body; a rule that
depends on itself, directly or through others, is recursive.
-/

namespace GraphInference

/-- A rule with its head and body decomposed. -/
structure CompiledRule where
  id : RuleId
  rule : Rule
  head : AtomicQuery
  body : List AtomicQuery
deriving Inhabited

namespace CompiledRule

/-- The unifier of an atom with the head, if answers of the head can answer the atom. -/
def unify? (r : CompiledRule) (a : Atom) : Option Unifier :=
  let head := r.head.central
  if a.family ≠ head.family then none
  else if a.typeId?.isSome ∧ head.typeId? ≠ a.typeId? then none
  else (a.unifier head).toOption

/-- Whether answers of the other rule's head may feed a query of the body. -/
def dependsOn (r other : CompiledRule) : Bool :=
  let head := other.head.central
  r.body.any fun q =>
    q.central.family = head.family &&
      (q.central.typeId?.isNone || head.typeId? = q.central.typeId?)

end CompiledRule

/-- The rules of a reasoner; a rule's identifier is its place. -/
structure RuleSet where
  rules : List CompiledRule := []

namespace RuleSet

def size (s : RuleSet) : Nat :=
  s.rules.length

def get? (s : RuleSet) (id : RuleId) : Option CompiledRule :=
  s.rules[id.index]?

/-- The rules that a rule depends on, in order. -/
def dependenciesOf (s : RuleSet) (id : RuleId) : List RuleId :=
  match s.get? id with
  | none => []
  | some r => (s.rules.filter r.dependsOn).map CompiledRule.id

/-- The rules reached from a list by at most `n` dependency steps, those of the list included. -/
def reach (s : RuleSet) : Nat → List RuleId → List RuleId
  | 0, ids => ids
  | n + 1, ids =>
    reach s n (ids ++ (ids.flatMap s.dependenciesOf).eraseDups.filter fun id => id ∉ ids)

/-- Whether a rule reaches itself through one or more dependency steps. -/
def isRecursive (s : RuleSet) (id : RuleId) : Bool :=
  id ∈ s.reach s.size (s.dependenciesOf id)

/-- The rules that can answer an atom, each with its unifier. -/
def applicable (s : RuleSet) (a : Atom) : List (RuleId × Unifier) :=
  s.rules.filterMap fun r => (r.unify? a).map fun u => (r.id, u)

/-- The set with a rule, compiled against the schema. -/
def add (s : RuleSet) (t : Transaction) (r : Rule) : Attempt (RuleId × RuleSet) := do
  match (← Decomposition.ofConjunction t r.head).queries with
  | [head] =>
    let body := (← Decomposition.ofConjunction t r.body).queries
    let id : RuleId := ⟨s.size⟩
    return (id, ⟨s.rules ++ [⟨id, r, head, body⟩]⟩)
  | queries =>
    throw (.malformedPattern ("rule '" ++ r.label ++ "' head must be a single atom, found " ++
      toString queries.length))

end RuleSet

end GraphInference

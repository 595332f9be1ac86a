import GraphInference.Error
import GraphInference.Traversal.Fragment

/-!
# Traversal programs

A program is a list of planned fragments, run in turn over all assignments at once. Its answers are
the distinct bindings of variables to concepts, in order; castings are no concepts and are dropped.
-/

namespace GraphInference

/-- A binding of variables to concepts. -/
abbrev Binding := SortedMap Var ConceptId

/-- A fragment with the cost at which it was chosen. -/
structure PlannedStep where
  fragment : Fragment
  cost : Cost
  /-- The start variable was not bound before. -/
  startsTraversal : Bool
  description : String
deriving DecidableEq

/-- A list of planned fragments. -/
structure Program where
  steps : List PlannedStep
deriving DecidableEq

namespace Program

def fragments (p : Program) : List Fragment :=
  p.steps.map PlannedStep.fragment

def totalCost (p : Program) : Nat :=
  p.steps.foldr (fun s total => s.cost.weight + total) 0

def text (p : Program) : String :=
  ", ".intercalate (p.steps.map fun s => s.fragment.text ++ " (" ++ s.cost.text ++ ")") ++
    " [cost " ++ toString p.totalCost ++ "]"

/-- Whether no step takes a variable that neither `bound` nor an earlier step gives it. -/
def validFrom (bound : SortedSet Var) : List PlannedStep → Bool
  | [] => true
  | s :: rest =>
    let f := s.fragment
    f.dependencies.subset bound &&
      (bound.contains f.start || s.startsTraversal || f.isIndexed) &&
      validFrom (bound.union f.vars) rest

def isValid (p : Program) (bound : SortedSet Var) : Bool :=
  validFrom bound p.steps

/-- The assignments after a list of steps. -/
def runSteps (g : Graph) (states : List Assignment) : List PlannedStep → List Assignment
  | [] => states
  | s :: rest => runSteps g (states.flatMap (s.fragment.run g)) rest

/-- The concepts of an assignment. -/
def conceptBinding (a : Assignment) : Binding :=
  SortedMap.ofList (a.entries.filterMap fun (v, e) => e.conceptId?.map (v, ·))

/-- The assignment to start from, if the graph holds every concept of it. -/
def initial (g : Graph) (start : Binding) : Except InferenceError Assignment :=
  start.entries.foldlM (fun a (v, id) =>
    if (g.concept? id).isSome then .ok (a.insert v (g.element id))
    else .error (.unknownConcept id.text)) SortedMap.empty

/-- The distinct bindings that the program finds from a start. -/
def execute (p : Program) (g : Graph) (start : Binding) : Except InferenceError (List Binding) := do
  let a ← initial g start
  return (SortedSet.ofList ((runSteps g [a] p.steps).map conceptBinding)).toList

end Program

end GraphInference

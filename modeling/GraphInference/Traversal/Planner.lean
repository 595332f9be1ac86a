import GraphInference.Traversal.FragmentSet
import GraphInference.Traversal.Program

/-!
# Planning

A plan takes one fragment of each set, always the cheapest that can run next; of equally cheap ones
the first in the order of the sets. A fragment whose start is bound runs at its own cost, any other
one starts the traversal.
-/

namespace GraphInference

namespace Planner

/-- The step that a fragment of a set would make next. -/
def stepOf (bound : SortedSet Var) (set : FragmentSet) (f : Fragment) : PlannedStep :=
  let isBound := bound.contains f.start
  ⟨f, if isBound then f.cost else f.startCost, !isBound, set.description⟩

/-- The steps that can be made next, each with the sets that would be left. -/
def choices (bound : SortedSet Var) (before : List FragmentSet) :
    List FragmentSet → List (PlannedStep × List FragmentSet)
  | [] => []
  | set :: rest =>
    ((set.fragments.filter fun f => f.dependencies.subset bound).map fun f =>
        (stepOf bound set f, before ++ rest)) ++
      choices bound (before ++ [set]) rest

/-- The cheapest choice, the first of equally cheap ones. -/
def cheapest : List (PlannedStep × List FragmentSet) → Option (PlannedStep × List FragmentSet)
  | [] => none
  | c :: rest =>
    match cheapest rest with
    | none => some c
    | some d => if d.1.cost.rank < c.1.cost.rank then some d else some c

/-- The order in which `n` sets are run. -/
def order (bound : SortedSet Var) : Nat → List FragmentSet →
    Except InferenceError (List PlannedStep)
  | 0, _ => .ok []
  | n + 1, sets =>
    match cheapest (choices bound [] sets) with
    | none => .error (.planning ("no fragment can run next; pending: " ++
        "; ".intercalate (sets.map FragmentSet.text)))
    | some (step, rest) => do
      return step :: (← order (bound.union step.fragment.vars) n rest)

/-- The program for a conjunction whose `bound` variables have concepts. -/
def planWithBound (c : Conjunction) (bound : SortedSet Var) : Attempt Program := do
  let sets ← FragmentSet.ofConjunction c
  return ⟨← liftExcept (order bound sets.length sets)⟩

end Planner

end GraphInference

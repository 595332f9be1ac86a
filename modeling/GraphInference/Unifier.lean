import GraphInference.Error
import GraphInference.Json.Basic
import GraphInference.Sorted.Set

/-!
# Unifiers

A unifier renames variables: a list of pairs in the order in which they were added, with one target
for each source. A second target for a source is refused, never written over the first.
-/

namespace GraphInference

/-- A renaming of variables. -/
structure Unifier where
  pairs : List (Var × Var) := []
deriving DecidableEq, Inhabited

namespace Unifier

/-- The target of a variable. -/
def get? (u : Unifier) (v : Var) : Option Var :=
  (u.pairs.find? fun p => p.1 = v).map (·.2)

/-- The target of a variable, or the variable itself if it has none. -/
def apply (u : Unifier) (v : Var) : Var :=
  (u.get? v).getD v

def contains (u : Unifier) (v : Var) : Bool :=
  (u.get? v).isSome

def sources (u : Unifier) : List Var :=
  u.pairs.map (·.1)

def targets (u : Unifier) : List Var :=
  u.pairs.map (·.2)

def text (u : Unifier) : String :=
  "\x7b" ++ ", ".intercalate (u.pairs.map fun p => p.1.text ++ " -> " ++ p.2.text) ++ "\x7d"

/-- The unifier with one more pair, unless its source has another target. -/
def add (u : Unifier) (source target : Var) : Except InferenceError Unifier :=
  match u.get? source with
  | none => .ok ⟨u.pairs ++ [(source, target)]⟩
  | some old =>
    if old = target then .ok u
    else .error (.unifierConflict (source.text ++ " cannot map to both " ++ old.text ++ " and " ++
      target.text))

/-- The unifier with the pairs of a list added in turn. -/
def addAll (u : Unifier) (pairs : List (Var × Var)) : Except InferenceError Unifier :=
  pairs.foldlM (fun u p => u.add p.1 p.2) u

def ofPairs (pairs : List (Var × Var)) : Except InferenceError Unifier :=
  addAll {} pairs

/-- The pairs of both unifiers, unless they give one source two targets. -/
def merge (u w : Unifier) : Except InferenceError Unifier :=
  u.addAll w.pairs

/-- First `u`, then `w`; variables that come back to themselves are left out. -/
def compose (u w : Unifier) : Unifier :=
  ⟨((u.pairs.map fun p => (p.1, w.apply p.2)) ++ w.pairs.filter fun p => !u.contains p.1).filter
    fun p => p.1 ≠ p.2⟩

/-- The pairs turned around, those before `done` first, unless two have one target. -/
def invertOnto (done : Unifier) : List (Var × Var) → Except InferenceError Unifier
  | [] => .ok done
  | (source, target) :: rest =>
    if done.contains target then
      .error (.unifierConflict (target.text ++ " is the target of more than one variable"))
    else invertOnto ⟨done.pairs ++ [(target, source)]⟩ rest

/-- Every pair turned around. -/
def inverse (u : Unifier) : Except InferenceError Unifier :=
  invertOnto {} u.pairs

/-- The pairs whose sources are in a set. -/
def restrict (u : Unifier) (vars : SortedSet Var) : Unifier :=
  ⟨u.pairs.filter fun p => vars.contains p.1⟩

/-! ## Documents -/

def toJson (u : Unifier) : Json :=
  .object [("mappings", .array (u.pairs.map fun p => .array [.string p.1.text, .string p.2.text]))]

/-- The pair of two variable texts. -/
def pairOfJson? : Json → Option (Var × Var)
  | .array [.string s, .string t] => some (.ofName s, .ofName t)
  | _ => none

def ofJson? (v : Json) : Option Unifier :=
  ((v.field? "mappings").bind Json.array?).bind fun items =>
    (items.mapM pairOfJson?).map fun pairs => ⟨pairs⟩

end Unifier

end GraphInference

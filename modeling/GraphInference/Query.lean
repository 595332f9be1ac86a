import GraphInference.Atom.Unification
import GraphInference.Graph.Transaction
import GraphInference.Traversal.Program

/-!
# Atomic queries

An atomic query asks for one central atom, an `isa` or a relation, under predicates on its
variables. Queries are equivalent when their central atoms are and their predicates pair off, each
with an equivalent one at the same position.
-/

namespace GraphInference

open Text

/-- A central atom with its predicates, all parts of the query of one number. -/
structure AtomicQuery where
  id : QueryId
  central : Atom
  predicates : List Atom
deriving Inhabited

/-- What an explanation keeps of a query. -/
structure QuerySnapshot where
  id : QueryId
  pattern : String
  family : AtomFamily
  label : Option Label
  /-- The roles of each player of a relation. -/
  players : SortedMap Var (List String)
deriving DecidableEq, Inhabited

namespace AtomicQuery

def atoms (q : AtomicQuery) : List Atom :=
  q.central :: q.predicates

/-- The query with its atoms under another number. -/
def renumber (q : AtomicQuery) (id : QueryId) : AtomicQuery :=
  ⟨id, q.central.withQuery id, q.predicates.map (·.withQuery id)⟩

/-- A query under a new number. -/
def make (central : Atom) (predicates : List Atom) : Fresh AtomicQuery :=
  return renumber ⟨default, central, predicates⟩ (← Fresh.queryId)

/-- The same query under a new number. -/
def fork (q : AtomicQuery) : Fresh AtomicQuery :=
  return q.renumber (← Fresh.queryId)

def typeId? (q : AtomicQuery) : Option ConceptId :=
  q.central.typeId?

def vars (q : AtomicQuery) : SortedSet Var :=
  SortedSet.ofList (q.atoms.flatMap fun a => a.vars.toList)

def userVars (q : AtomicQuery) : SortedSet Var :=
  q.vars.filter Var.userDefined

/-! ## Equivalence -/

def hash (q : AtomicQuery) : UInt64 :=
  let hashes := (q.predicates.map Atom.hash).mergeSort fun a b => a ≤ b
  hashes.foldl hashCombine q.central.hash

/-- The list without its first member that passes `p`; none if there is no such member. -/
def eraseFirst? {α : Type} (p : α → Bool) : List α → Option (List α)
  | [] => none
  | a :: rest => if p a then some rest else (eraseFirst? p rest).map (a :: ·)

/-- Pairs each of `ps` with the first of `qs` that is left and matches, until both are used up. -/
def pairOff {α β : Type} (matching : α → β → Bool) : List α → List β → Bool
  | [], qs => qs.isEmpty
  | p :: ps, qs =>
    match eraseFirst? (matching p) qs with
    | some rest => pairOff matching ps rest
    | none => false

/-- Whether the queries ask the same but for the names of their variables. -/
def isEquivalent (q r : AtomicQuery) : Bool :=
  q.central.isEquivalent r.central &&
    pairOff (fun p p' => p.isEquivalent p' &&
      r.central.position? p'.var = q.central.position? p.var) q.predicates r.predicates

/-- The unifier of the central atoms, which also maps an anchor that is not user-defined. -/
def unifier (q parent : AtomicQuery) : Except InferenceError Unifier := do
  let u ← q.central.unifier parent.central
  if q.central.var ≠ parent.central.var ∧ ¬ u.contains q.central.var then
    u.add q.central.var parent.central.var
  else return u

def rename (q : AtomicQuery) (u : Unifier) : AtomicQuery :=
  ⟨q.id, q.central.rename u, q.predicates.map (·.rename u)⟩

/-! ## Text -/

/-- The conjunction that a look-up of the query runs. -/
def toConjunction (q : AtomicQuery) : Conjunction :=
  ⟨q.atoms.flatMap Atom.toStatements⟩

def text (q : AtomicQuery) : String :=
  q.toConjunction.text

def snapshot (q : AtomicQuery) : QuerySnapshot where
  id := q.id
  pattern := q.text
  family := q.central.family
  label := q.central.label?
  players := match q.central with
    | .relation r => r.rolesByPlayer
    | _ => .empty

/-! ## Admission -/

/-- Whether a concept bound to the predicate's variable satisfies it. -/
def satisfies (t : Transaction) (id : ConceptId) : Atom → Except InferenceError Bool
  | .identity p => .ok (p.id = id)
  | .substitution s => .ok (s.value = id.text)
  | .value p => do
    let c ← t.fetch id
    return (c.bind (·.value)).any p.constraint.test
  | _ => .ok true

/-- Whether a binding satisfies every predicate of a list; an unbound variable satisfies none. -/
def admitsAll (t : Transaction) (b : Binding) : List Atom → Except InferenceError Bool
  | [] => .ok true
  | p :: rest =>
    match b.find? p.var with
    | none => .ok false
    | some id => do
      if ← satisfies t id p then admitsAll t b rest else return false

/-- Whether a binding satisfies the predicates of the query. -/
def admits (q : AtomicQuery) (t : Transaction) (b : Binding) : Except InferenceError Bool :=
  admitsAll t b q.predicates

end AtomicQuery

end GraphInference

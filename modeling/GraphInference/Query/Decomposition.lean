import GraphInference.Query

/-!
# Decomposition

A conjunction is split into atomic queries. Relations and owned attributes become relation atoms,
types become `isa` atoms; values and identifiers become predicates, attached to every atomic query
that has their variable. A variable with nothing but predicates gets an untyped atom.
-/

namespace GraphInference

/-- A conjunction with its atomic queries. -/
structure DecomposedQuery where
  pattern : Conjunction
  queries : List AtomicQuery

namespace Decomposition

/-- The schema concept of a label that has to be defined. -/
def resolve (t : Transaction) (l : Label) : Except InferenceError ConceptId := do
  match ← t.resolveLabel l with
  | some id => return id
  | none => .error (.unknownSchemaConcept ("'" ++ l.text ++ "' is not defined in the schema"))

/-- A variable with the type that a statement gives it. -/
def anchor (t : Transaction) (v : Var) (type : Option TypeRef) : Attempt Anchor := do
  match type with
  | some (.label l) =>
    let id ← liftExcept (resolve t l)
    let typeVar ← (Fresh.var : Fresh _)
    return ⟨v, typeVar, some ⟨typeVar, id, none⟩, some l, none⟩
  | some (.var typeVar) => return ⟨v, typeVar, none, none, none⟩
  | none => return ⟨v, .empty, none, none, none⟩

def relationAtom (t : Transaction) (s : Statement) (players : List RolePlayer) : Attempt Atom := do
  let a ← anchor t s.subject s.type?
  for p in players do
    if let some role := p.role then
      let _ ← liftExcept (resolve t role)
  return .relation ⟨a, players.map fun p => (.ofLabel? p.role, p.player)⟩

/-- The ownership of an attribute as a relation of its implicit type. -/
def hasAtom (t : Transaction) (owner : Var) (owned : Label) (value : Var) : Attempt Atom := do
  match resolve t owned.ownership with
  | .error _ =>
    throw (.unknownSchemaConcept ("'" ++ owned.text ++ "' is not an attribute type"))
  | .ok id =>
    let typeVar ← (Fresh.var : Fresh _)
    let relation ← (Fresh.var : Fresh _)
    return .relation
      ⟨⟨relation, typeVar, some ⟨typeVar, id, none⟩, some owned.ownership, none⟩,
        [(.known owned.ownerRole, owner), (.known owned.valueRole, value)]⟩

/-- The central atoms of a statement. -/
def centralAtoms (t : Transaction) (s : Statement) : Attempt (List Atom) := do
  if s.properties.isEmpty then
    throw (.malformedPattern (s.subject.text ++ " has no properties"))
  let first ← match s.players?, s.type? with
    | some players, _ => pure [← relationAtom t s players]
    | none, some type => pure [.isa (← anchor t s.subject (some type))]
    | none, none => pure []
  let owned ← s.ownerships.mapM fun (owned, value, _) => hasAtom t s.subject owned value
  return first ++ owned

/-- The predicates of a statement: on its attributes, on its value, on its identifier. -/
def predicates (s : Statement) : List Atom :=
  s.ownerships.filterMap (fun (_, v, predicate) => predicate.map fun c => .value ⟨v, c, none⟩) ++
    s.constraints.map (fun c => .value ⟨s.subject, c, none⟩) ++
    s.ids.map fun id => .identity ⟨s.subject, id, none⟩

/-- The atoms with an untyped one for each predicate whose variable none of them has. -/
def cover (central : List Atom) : List Atom → List Atom
  | [] => central
  | p :: rest =>
    if central.any fun a => a.vars.contains p.var then cover central rest
    else cover (central ++ [.untyped p.var]) rest

/-- The atomic query of an atom, with the predicates on its variables. -/
def attach (predicates : List Atom) (a : Atom) : Fresh AtomicQuery :=
  AtomicQuery.make a (predicates.filter fun p => a.vars.contains p.var)

/-- Splits a conjunction against the schema. -/
def ofConjunction (t : Transaction) (c : Conjunction) : Attempt DecomposedQuery := do
  if c.statements.isEmpty then throw (.malformedPattern "empty pattern")
  let central := (← c.statements.mapM (centralAtoms t)).flatten
  let predicates := c.statements.flatMap predicates
  let queries ← ((cover central predicates).mapM (attach predicates) : Fresh _)
  return ⟨c, queries⟩

end Decomposition

end GraphInference

import GraphInference.Error
import GraphInference.Traversal.Fragment

/-!
# Fragment sets

Each constraint of a conjunction becomes sets of alternative fragments, such as the two directions
of one edge; a plan takes one fragment of each set. The players of a relation stand in distinct
castings. Owning an attribute is playing a role of its implicit relation.
-/

namespace GraphInference

/-- Alternative fragments for one constraint, with a description of it. -/
structure FragmentSet where
  description : String
  fragments : List Fragment
deriving DecidableEq

namespace FragmentSet

def text (s : FragmentSet) : String :=
  s.description ++ " \x7b" ++ " | ".intercalate (s.fragments.map Fragment.text) ++ "\x7d"

/-- The set of one label. -/
def only (l : Label) : SortedSet Label :=
  SortedSet.ofList [l]

/-- The step between a thing and its type, in both directions. -/
def isaStep (description : String) (thing type : Var) : FragmentSet :=
  ⟨description, [.outIsa thing type, .inIsa type thing]⟩

/-- The type of a thing; a label is looked up for a variable of its own. -/
def ofIsa (thing : Var) (type : TypeRef) : Fresh (List FragmentSet) := do
  let description := thing.text ++ " isa " ++ type.text
  match type with
  | .label label =>
    let v ← Fresh.var
    return [⟨description, [.labelled v label]⟩, isaStep description thing v]
  | .var v => return [isaStep description thing v]

/-- The step between a relation and a player, in both directions. -/
def ofLink (description : String) (link : RoleLink) : FragmentSet :=
  ⟨description, [.outPlayer link, .inPlayer link]⟩

/-- Every two of a list, the earlier one first. -/
def pairs {α : Type} : List α → List (α × α)
  | [] => []
  | a :: rest => rest.map (a, ·) ++ pairs rest

/-- The players of a relation, each in a casting of its own. -/
def ofPlayers (description : String) (relation : Var) (types : Option (SortedSet Label))
    (players : List RolePlayer) : Fresh (List FragmentSet) := do
  let links ← players.mapM fun p => do
    return RoleLink.mk relation (← Fresh.var) p.player (p.role.map only) types
  let distinct := (pairs (links.map RoleLink.casting)).map fun (l, r) =>
    ⟨relation.text ++ " distinct castings", [.neq l r]⟩
  return links.map (ofLink description) ++ distinct

/-- The ownership of an attribute: a relation of its implicit type between owner and value. -/
def ofHas (description : String) (owner : Var) (owned : Label) (value : Var)
    (predicate : Option Constraint) : Fresh (List FragmentSet) := do
  let relation ← Fresh.var
  let isa ← ofIsa relation (.label owned.ownership)
  let link (player : Var) (role : Label) : Fresh FragmentSet := do
    return ofLink description
      ⟨relation, ← Fresh.var, player, some (only role), some (only owned.ownership)⟩
  let ownerLink ← link owner owned.ownerRole
  let valueLink ← link value owned.valueRole
  let filter := predicate.toList.map fun p => ⟨description, [.valued value p]⟩
  return isa ++ [ownerLink, valueLink] ++ filter

/-- The sets of one property of a statement. -/
def ofProperty (s : Statement) (p : Property) : Fresh (List FragmentSet) :=
  let description := s.subject.text ++ " " ++ p.text
  match p with
  | .isa type => ofIsa s.subject type
  | .relation players =>
    let types := match s.type? with
      | some (.label label) => some (only label)
      | _ => none
    ofPlayers description s.subject types players
  | .has owned var predicate => ofHas description s.subject owned var predicate
  | .value predicate => pure [⟨description, [.valued s.subject predicate]⟩]
  | .identity id => pure [⟨description, [.identity s.subject id]⟩]

def ofStatement (s : Statement) : Fresh (List FragmentSet) :=
  return (← s.properties.mapM (ofProperty s)).flatten

/-- The sets of a conjunction; a statement that gives none is refused. -/
def ofStatements : List Statement → Attempt (List FragmentSet)
  | [] => pure []
  | s :: rest => do
    let sets ← (ofStatement s : Fresh _)
    if sets.isEmpty then
      throw (.noApplicableFragments ("no traversal fragment applies to '" ++ s.text ++ "'"))
    return sets ++ (← ofStatements rest)

def ofConjunction (c : Conjunction) : Attempt (List FragmentSet) :=
  ofStatements c.statements

end FragmentSet

end GraphInference

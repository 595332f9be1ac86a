import GraphInference.Pattern
import GraphInference.Sorted.Map
import GraphInference.Text.Checksum

/-!
# Atoms

An atom is one constraint of a decomposed pattern: the type of a thing, a relation with its players,
or a predicate on one variable. Atoms are equal when they have the same variables and the same
contents; the label that their type was written with and the query they belong to do not count.

Two atoms are equivalent when they can stand for each other whatever their variables are called:
they are of one family, have the same type and the same roles grouped by player, and their
anchor variables are both user-defined or both not. Equivalent atoms have the same hash.
-/

namespace GraphInference

open Text

/-! ## Families -/

/-- The families of atoms. -/
inductive AtomFamily where
  | isa | relation | valuePredicate | idPredicate | substitution
deriving DecidableEq, Inhabited

namespace AtomFamily

def text : AtomFamily → String
  | .isa => "isa"
  | .relation => "relation"
  | .valuePredicate => "value-predicate"
  | .idPredicate => "id-predicate"
  | .substitution => "substitution"

/-- The name of the family in documents. -/
def tag : AtomFamily → String
  | .isa => "Isa"
  | .relation => "Relation"
  | .valuePredicate => "ValuePredicate"
  | .idPredicate => "IdPredicate"
  | .substitution => "Substitution"

def ofTag? (tag : String) : Option AtomFamily :=
  [isa, relation, valuePredicate, idPredicate, substitution].find? (·.tag = tag)

theorem ofTag?_tag (f : AtomFamily) : ofTag? f.tag = some f := by
  cases f <;> decide

end AtomFamily

/-- The role of a player in a relation atom, which may be left open. -/
inductive Role where
  | known (l : Label)
  | unstated
deriving DecidableEq, Inhabited

namespace Role

def label? : Role → Option Label
  | .known l => some l
  | .unstated => none

def ofLabel? : Option Label → Role
  | some l => .known l
  | none => .unstated

def text : Role → String
  | .known l => l.text
  | .unstated => "EMPTY-ROLE"

end Role

/-! ## Predicates -/

/-- The variable stands for the concept of an identifier. -/
structure IdPredicate where
  var : Var
  id : ConceptId
  query : Option QueryId := none
deriving Inhabited

/-- The value of the variable passes a predicate. -/
structure ValuePredicate where
  var : Var
  constraint : Constraint
  query : Option QueryId := none
deriving Inhabited

/-- The variable is bound to a fixed value. -/
structure Substitution where
  var : Var
  value : String
  query : Option QueryId := none
deriving Inhabited

instance : BEq IdPredicate := ⟨fun a b => a.var = b.var && a.id = b.id⟩

instance : BEq ValuePredicate := ⟨fun a b => a.var = b.var && a.constraint = b.constraint⟩

instance : BEq Substitution := ⟨fun a b => a.var = b.var && a.value = b.value⟩

namespace IdPredicate

def text (p : IdPredicate) : String :=
  p.var.text ++ " id \"" ++ p.id.text ++ "\""

def toStatement (p : IdPredicate) : Statement :=
  ⟨p.var, [.identity p.id]⟩

def hash (p : IdPredicate) : UInt64 :=
  hashCombine hashSeed (checksum p.id.text)

def isEquivalent (p q : IdPredicate) : Bool :=
  p.id = q.id

end IdPredicate

namespace ValuePredicate

def text (p : ValuePredicate) : String :=
  p.var.text ++ " val " ++ p.constraint.text

def toStatement (p : ValuePredicate) : Statement :=
  ⟨p.var, [.value p.constraint]⟩

def hash (p : ValuePredicate) : UInt64 :=
  hashCombine hashSeed (checksum p.constraint.text)

def isEquivalent (p q : ValuePredicate) : Bool :=
  p.constraint = q.constraint

end ValuePredicate

namespace Substitution

def text (s : Substitution) : String :=
  s.var.text ++ " = " ++ s.value

def toStatement (s : Substitution) : Statement :=
  ⟨s.var, [.identity ⟨s.value⟩]⟩

def hash (s : Substitution) : UInt64 :=
  hashCombine hashSeed (checksum s.value)

def isEquivalent (s t : Substitution) : Bool :=
  s.value = t.value

end Substitution

/-! ## Typed anchors -/

/-- A variable with its type: the variable of the type, the type itself if it is known, and the
label that it was written with. -/
structure Anchor where
  var : Var
  typeVar : Var
  typePredicate : Option IdPredicate
  label : Option Label := none
  query : Option QueryId := none
deriving Inhabited

instance : BEq Anchor :=
  ⟨fun a b => a.var = b.var && a.typeVar = b.typeVar && a.typePredicate == b.typePredicate⟩

namespace Anchor

def typeId? (a : Anchor) : Option ConceptId :=
  a.typePredicate.map IdPredicate.id

def hash (a : Anchor) : UInt64 :=
  hashCombine hashSeed (a.typeId?.elim 0 fun id => checksum id.text)

def isEquivalent (a b : Anchor) : Bool :=
  a.var.userDefined = b.var.userDefined && a.typeId? = b.typeId?

/-- The variables that answers are told apart by. -/
def answerVars (a : Anchor) : List Var :=
  (if a.var.userDefined then [a.var] else []) ++ if a.typeVar.isEmpty then [] else [a.typeVar]

def vars (a : Anchor) : List Var :=
  [a.var, a.typeVar].filter fun v => !v.isEmpty

/-- A statement about the anchor with its type, and the statement of the type where it is named by
a variable. -/
def typed (a : Anchor) (s : Statement) : List Statement :=
  match a.label, a.typeVar.userDefined with
  | some label, false => [s.withProperty (.isa (.label label))]
  | _, _ =>
    if a.typeVar.isEmpty then [s]
    else s.withProperty (.isa (.var a.typeVar)) ::
      a.typePredicate.toList.map IdPredicate.toStatement

end Anchor

/-! ## Relations -/

/-- A relation with its players in the order in which they were written. -/
structure RelationAtom where
  anchor : Anchor
  players : List (Role × Var)
deriving Inhabited, BEq

namespace RelationAtom

/-- The roles of each player. -/
def rolesByPlayer (r : RelationAtom) : SortedMap Var (List String) :=
  r.players.foldl (fun m p => m.alter p.2 fun roles => roles.getD [] ++ [p.1.text]) .empty

/-- The roles grouped by player, with whether the player is user-defined, in an order that does not
depend on names. -/
def shape (r : RelationAtom) : List (List String × Bool) :=
  let _ : Ord (List String × Bool) := lexOrd
  (r.rolesByPlayer.entries.map fun (player, roles) =>
    (roles.mergeSort fun a b => (compare a b).isLE, player.userDefined)).mergeSort
      fun a b => (compare a b).isLE

def hash (r : RelationAtom) : UInt64 :=
  r.shape.foldl (fun h e => hashCombine h (checksum ("+".intercalate e.1))) r.anchor.hash

def isEquivalent (r s : RelationAtom) : Bool :=
  r.anchor.isEquivalent s.anchor && r.shape = s.shape

def toStatements (r : RelationAtom) : List Statement :=
  r.anchor.typed ⟨r.anchor.var, [.relation (r.players.map fun p => ⟨p.1.label?, p.2⟩)]⟩

def text (r : RelationAtom) : String :=
  "; ".intercalate (r.toStatements.map Statement.text)

end RelationAtom

/-! ## Atoms -/

/-- Where a variable stands in an atom, whatever it is called. -/
inductive VarPosition where
  | anchor
  | type
  | player (role : String)
deriving DecidableEq

/-- An atom. -/
inductive Atom where
  | isa (anchor : Anchor)
  | relation (r : RelationAtom)
  | value (p : ValuePredicate)
  | identity (p : IdPredicate)
  | substitution (s : Substitution)
deriving Inhabited, BEq

namespace Atom

/-- A variable of any type. -/
def untyped (v : Var) : Atom :=
  .isa ⟨v, .empty, none, none, none⟩

def family : Atom → AtomFamily
  | .isa _ => .isa
  | .relation _ => .relation
  | .value _ => .valuePredicate
  | .identity _ => .idPredicate
  | .substitution _ => .substitution

/-- The typed anchor of an atom that has one. -/
def anchor? : Atom → Option Anchor
  | .isa a => some a
  | .relation r => some r.anchor
  | _ => none

def relation? : Atom → Option RelationAtom
  | .relation r => some r
  | _ => none

/-- The variable that the atom is about. -/
def var : Atom → Var
  | .isa a => a.var
  | .relation r => r.anchor.var
  | .value p => p.var
  | .identity p => p.var
  | .substitution s => s.var

def query? : Atom → Option QueryId
  | .isa a => a.query
  | .relation r => r.anchor.query
  | .value p => p.query
  | .identity p => p.query
  | .substitution s => s.query

def typeId? (a : Atom) : Option ConceptId :=
  a.anchor?.bind Anchor.typeId?

def typePredicate? (a : Atom) : Option IdPredicate :=
  a.anchor?.bind Anchor.typePredicate

/-- What the atom says of identifiers: all of it, or that of its type. -/
def idPredicates : Atom → List IdPredicate
  | .identity p => [p]
  | a => a.typePredicate?.toList

def label? (a : Atom) : Option Label :=
  a.anchor?.bind Anchor.label

def players : Atom → List (Role × Var)
  | .relation r => r.players
  | _ => []

def isPredicate : Atom → Bool
  | .isa _ | .relation _ => false
  | _ => true

def isRelation : Atom → Bool
  | .relation _ => true
  | _ => false

/-- The variables that tell the atom's answers apart: a user-defined anchor, the type's variable
and the players. -/
def answerVars (a : Atom) : SortedSet Var :=
  SortedSet.ofList <| match a with
    | .isa a => a.answerVars
    | .relation r => r.anchor.answerVars ++ r.players.map (·.2)
    | a => [a.var]

/-- Every variable of the atom. -/
def vars (a : Atom) : SortedSet Var :=
  SortedSet.ofList <| match a with
    | .isa a => a.vars
    | .relation r => r.anchor.vars ++ r.players.map (·.2)
    | a => [a.var]

/-- Where a variable stands first in the atom. -/
def position? (a : Atom) (v : Var) : Option VarPosition :=
  if a.var = v then some .anchor
  else if a.anchor?.any fun c => !c.typeVar.isEmpty && c.typeVar = v then some .type
  else (a.players.find? fun p => p.2 = v).map fun p => .player p.1.text

def hash : Atom → UInt64
  | .isa a => a.hash
  | .relation r => r.hash
  | .value p => p.hash
  | .identity p => p.hash
  | .substitution s => s.hash

/-- Whether the atoms can stand for each other. -/
def isEquivalent : Atom → Atom → Bool
  | .isa a, .isa b => a.isEquivalent b
  | .relation r, .relation s => r.isEquivalent s
  | .value p, .value q => p.isEquivalent q
  | .identity p, .identity q => p.isEquivalent q
  | .substitution s, .substitution t => s.isEquivalent t
  | _, _ => false

/-- The statements that say what the atom says; an untyped variable says nothing. -/
def toStatements : Atom → List Statement
  | .isa a => if a.typeVar.isEmpty then [] else a.typed ⟨a.var, []⟩
  | .relation r => r.toStatements
  | .value p => [p.toStatement]
  | .identity p => [p.toStatement]
  | .substitution s => [s.toStatement]

def text (a : Atom) : String :=
  if a.toStatements.isEmpty then a.var.text
  else "; ".intercalate (a.toStatements.map Statement.text)

/-- The atom as a part of a query. -/
def withQuery (a : Atom) (q : QueryId) : Atom :=
  let claim (p : IdPredicate) : IdPredicate := { p with query := some q }
  let claimAnchor (c : Anchor) : Anchor :=
    { c with typePredicate := c.typePredicate.map claim, query := some q }
  match a with
  | .isa c => .isa (claimAnchor c)
  | .relation r => .relation { r with anchor := claimAnchor r.anchor }
  | .value p => .value { p with query := some q }
  | .identity p => .identity (claim p)
  | .substitution s => .substitution { s with query := some q }

end Atom

end GraphInference

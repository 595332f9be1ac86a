import GraphInference.Concept
import GraphInference.Sorted.Set
import GraphInference.Var

/-!
# Patterns

A conjunction is a list of statements; a statement attaches properties to one variable. Every part
has a text, the form in which patterns are read.
-/

namespace GraphInference

/-- The target of an `isa` property. -/
inductive TypeRef where
  | label (l : Label)
  | var (v : Var)
deriving DecidableEq, Inhabited

/-- A role player of a relation; the role may be left out. -/
structure RolePlayer where
  role : Option Label
  player : Var
deriving DecidableEq, Inhabited

/-- What a statement says about its variable. -/
inductive Property where
  /-- It is of a type or of a subtype. -/
  | isa (type : TypeRef)
  /-- It is a relation with these players, in distinct places. -/
  | relation (players : List RolePlayer)
  /-- It owns the attribute that `var` stands for, of a value that passes the predicate. -/
  | has (owned : Label) (var : Var) (predicate : Option Constraint)
  /-- Its value passes the predicate. -/
  | value (predicate : Constraint)
  /-- It is the concept of this identifier. -/
  | identity (id : ConceptId)
deriving DecidableEq, Inhabited

/-- One variable with its properties. -/
structure Statement where
  subject : Var
  properties : List Property
deriving DecidableEq, Inhabited

/-- Statements that all hold. -/
structure Conjunction where
  statements : List Statement
deriving DecidableEq, Inhabited

/-! ## Text -/

def TypeRef.text : TypeRef → String
  | .label l => l.text
  | .var v => v.text

def RolePlayer.text (p : RolePlayer) : String :=
  match p.role with
  | some role => role.text ++ ": " ++ p.player.text
  | none => p.player.text

def playersText (players : List RolePlayer) : String :=
  "(" ++ ", ".intercalate (players.map RolePlayer.text) ++ ")"

def Property.text : Property → String
  | .isa type => "isa " ++ type.text
  | .relation players => playersText players
  | .has owned _ (some predicate) => "has " ++ owned.text ++ " " ++ predicate.text
  | .has owned var none => "has " ++ owned.text ++ " " ++ var.text
  | .value predicate => "val " ++ predicate.text
  | .identity id => "id \"" ++ id.text ++ "\""

namespace Property

def isRelation : Property → Bool
  | .relation _ => true
  | _ => false

def type? : Property → Option TypeRef
  | .isa type => some type
  | _ => none

def players? : Property → Option (List RolePlayer)
  | .relation players => some players
  | _ => none

def id? : Property → Option ConceptId
  | .identity id => some id
  | _ => none

def value? : Property → Option Constraint
  | .value predicate => some predicate
  | _ => none

def has? : Property → Option (Label × Var × Option Constraint)
  | .has owned var predicate => some (owned, var, predicate)
  | _ => none

/-- The variables that the property names. -/
def vars : Property → List Var
  | .isa (.var v) => [v]
  | .relation players => players.map RolePlayer.player
  | .has _ var _ => [var]
  | _ => []

end Property

namespace Statement

/-- The first type that the statement gives. -/
def type? (s : Statement) : Option TypeRef :=
  s.properties.findSome? Property.type?

/-- The players of the first relation property. -/
def players? (s : Statement) : Option (List RolePlayer) :=
  s.properties.findSome? Property.players?

def isRelation (s : Statement) : Bool :=
  s.players?.isSome

def ids (s : Statement) : List ConceptId :=
  s.properties.filterMap Property.id?

def constraints (s : Statement) : List Constraint :=
  s.properties.filterMap Property.value?

/-- Attribute, variable and predicate of each `has` property. -/
def ownerships (s : Statement) : List (Label × Var × Option Constraint) :=
  s.properties.filterMap Property.has?

/-- Every variable of the statement but the absent one. -/
def vars (s : Statement) : SortedSet Var :=
  (SortedSet.ofList (s.subject :: s.properties.flatMap Property.vars)).filter fun v => !v.isEmpty

/-- The statement: variable, players, then the other properties with commas between them. -/
def text (s : Statement) : String :=
  let players := s.players?.elim "" fun ps => " " ++ playersText ps
  let others := (s.properties.filter fun p => !p.isRelation).map Property.text
  let listed := if others.isEmpty then "" else " " ++ ", ".intercalate others
  s.subject.text ++ players ++ listed

/-- The statement with one more property. -/
def withProperty (s : Statement) (p : Property) : Statement :=
  { s with properties := s.properties ++ [p] }

/-- The properties with a player added to the first relation among them. -/
def addPlayer? (player : RolePlayer) : List Property → Option (List Property)
  | [] => none
  | .relation players :: rest => some (.relation (players ++ [player]) :: rest)
  | p :: rest => (addPlayer? player rest).map (p :: ·)

/-- The statement with one more player, in its first relation if it has one. -/
def withPlayer (s : Statement) (player : RolePlayer) : Statement :=
  match addPlayer? player s.properties with
  | some properties => { s with properties }
  | none => s.withProperty (.relation [player])

end Statement

namespace Conjunction

def text (c : Conjunction) : String :=
  " ".intercalate (c.statements.map fun s => s.text ++ ";")

def vars (c : Conjunction) : SortedSet Var :=
  SortedSet.ofList (c.statements.flatMap fun s => s.vars.toList)

def userVars (c : Conjunction) : SortedSet Var :=
  c.vars.filter Var.userDefined

/-- The statements about a variable. -/
def statementsOf (c : Conjunction) (v : Var) : List Statement :=
  c.statements.filter fun s => s.subject = v

end Conjunction

end GraphInference

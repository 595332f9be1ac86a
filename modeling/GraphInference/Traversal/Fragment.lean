import GraphInference.Graph
import GraphInference.Pattern

/-!
# Traversal fragments

A fragment is one step of a traversal, from a start variable to an end variable if it has one. It
takes a partial assignment of elements to variables and gives every extension of it that makes the
step. Each fragment has a cost class.

A step between a relation and a player finds the player in either form of a relation: in the
castings of a relation vertex, or at the owner's or the value's end of an ownership edge.
-/

namespace GraphInference

/-! ## Costs -/

/-- The cost class of a fragment, the cheapest first. -/
inductive Cost where
  | idLookup
  | labelLookup
  | filter
  | isa
  | playersPerRole
  | playersPerRelation
  | instancesOfType
  | scan
deriving DecidableEq, Inhabited

namespace Cost

/-- The place of a class in the order of costs. -/
def rank : Cost → Nat
  | idLookup => 0
  | labelLookup => 1
  | filter => 2
  | isa => 3
  | playersPerRole => 4
  | playersPerRelation => 5
  | instancesOfType => 6
  | scan => 7

/-- What a class adds to the estimate for a program. -/
def weight : Cost → Nat
  | idLookup => 1
  | labelLookup => 1
  | filter => 2
  | isa => 4
  | playersPerRole => 8
  | playersPerRelation => 16
  | instancesOfType => 32
  | scan => 128

def text : Cost → String
  | idLookup => "id-lookup"
  | labelLookup => "label-lookup"
  | filter => "filter"
  | isa => "isa"
  | playersPerRole => "role-players-per-role"
  | playersPerRelation => "role-players-per-relation"
  | instancesOfType => "instances-of-type"
  | scan => "scan"

theorem weight_le_weight {a b : Cost} (h : a.rank ≤ b.rank) : a.weight ≤ b.weight := by
  revert h
  cases a <;> cases b <;> decide

end Cost

/-! ## Steps -/

/-- The link between a relation and one of its players. -/
structure RoleLink where
  relation : Var
  casting : Var
  player : Var
  /-- The roles that are accepted, any if not stated. -/
  roles : Option (SortedSet Label)
  /-- The types of which the relation must be, or be a subtype of one; any if not stated. -/
  relationTypes : Option (SortedSet Label)
deriving DecidableEq

/-- One step of a traversal. -/
inductive Fragment where
  | identity (var : Var) (id : ConceptId)
  | labelled (var : Var) (label : Label)
  | valued (var : Var) (predicate : Constraint)
  /-- From an instance to its types. -/
  | outIsa (thing type : Var)
  /-- From a type to its instances. -/
  | inIsa (type thing : Var)
  /-- From a relation to a player. -/
  | outPlayer (link : RoleLink)
  /-- From a player to a relation. -/
  | inPlayer (link : RoleLink)
  /-- Two variables stand for different elements. -/
  | neq (left right : Var)
deriving DecidableEq

/-- The side from which a fragment walks its edge. -/
inductive Direction where
  | outward | inward
deriving DecidableEq

def Direction.name : Direction → String
  | outward => "Out"
  | inward => "In"

/-- The elements that a fragment can start on. -/
inductive Applicability where
  | vertex | edge | both
deriving DecidableEq

def Applicability.name : Applicability → String
  | vertex => "Vertex"
  | edge => "Edge"
  | both => "Both"

/-- A partial assignment of elements to variables. -/
abbrev Assignment := SortedMap Var Element

namespace RoleLink

def acceptsRole (link : RoleLink) (role : Label) : Bool :=
  match link.roles with
  | some roles => roles.contains role
  | none => true

/-- Whether a relation is of an accepted type. -/
def acceptsRelation (link : RoleLink) (g : Graph) (relation : ConceptId) : Bool :=
  match link.relationTypes with
  | none => true
  | some types =>
    match (g.concept? relation).bind (·.typeId) with
    | none => false
    | some type => (g.supertypes type).any fun t =>
      ((g.concept? t).bind (·.label)).any types.contains

def cost (link : RoleLink) : Cost :=
  if link.roles.isSome then .playersPerRole else .playersPerRelation

def roleNames (link : RoleLink) : String :=
  match link.roles with
  | some roles => "|".intercalate (roles.toList.map Label.text)
  | none => "*"

end RoleLink

namespace Fragment

def start : Fragment → Var
  | .identity v _ | .labelled v _ | .valued v _ => v
  | .outIsa thing _ => thing
  | .inIsa type _ => type
  | .outPlayer link => link.relation
  | .inPlayer link => link.player
  | .neq left _ => left

def finish? : Fragment → Option Var
  | .outIsa _ type => some type
  | .inIsa _ thing => some thing
  | .outPlayer link => some link.player
  | .inPlayer link => some link.relation
  | _ => none

/-- The variables bound once the fragment has run. -/
def vars (f : Fragment) : SortedSet Var :=
  let others := match f with
    | .outPlayer link | .inPlayer link => [link.casting]
    | .neq _ right => [right]
    | _ => []
  SortedSet.ofList (f.start :: f.finish?.toList ++ others)

/-- The variables that must be bound before the fragment can run. -/
def dependencies : Fragment → SortedSet Var
  | .neq left right => SortedSet.ofList [left, right]
  | _ => .empty

/-- The link that the fragment walks, if it is one to a player. -/
def link? : Fragment → Option RoleLink
  | outPlayer link | inPlayer link => some link
  | _ => none

def direction : Fragment → Direction
  | .inIsa _ _ | .inPlayer _ => .inward
  | _ => .outward

def applicability : Fragment → Applicability
  | .labelled _ _ | .valued _ _ | .inPlayer _ => .vertex
  | _ => .both

/-- Whether the fragment can start a traversal from an index. -/
def isIndexed : Fragment → Bool
  | .identity _ _ | .labelled _ _ | .valued _ _ => true
  | _ => false

/-- The cost when the start variable is bound. -/
def cost : Fragment → Cost
  | .identity _ _ => .idLookup
  | .labelled _ _ => .labelLookup
  | .valued _ _ => .filter
  | .outIsa _ _ => .isa
  | .inIsa _ _ => .instancesOfType
  | .outPlayer link | .inPlayer link => link.cost
  | .neq _ _ => .filter

/-- The cost when the fragment has to start the traversal. -/
def startCost : Fragment → Cost
  | .identity _ _ => .idLookup
  | .labelled _ _ => .labelLookup
  | .valued _ _ => .instancesOfType
  | _ => .scan

/-- The step without its variables. -/
def name : Fragment → String
  | .identity _ id => "[id:" ++ id.text ++ "]"
  | .labelled _ label => "[label:" ++ label.text ++ "]"
  | .valued _ predicate => "[value:" ++ predicate.text ++ "]"
  | .outIsa _ _ => "-[isa]->"
  | .inIsa _ _ => "<-[isa]-"
  | .outPlayer link => "-[role-player:" ++ link.roleNames ++ "]->"
  | .inPlayer link => "<-[role-player:" ++ link.roleNames ++ "]-"
  | .neq _ _ => "[neq]"

def text (f : Fragment) : String :=
  match f with
  | .neq left right => left.text ++ f.name ++ right.text
  | f => f.start.text ++ f.name ++ f.finish?.elim "" Var.text

end Fragment

/-! ## Running a step -/

/-- The assignment with every binding added, if none contradicts what is bound. -/
def Assignment.bind? (a : Assignment) : List (Var × Element) → Option Assignment
  | [] => some a
  | (v, e) :: rest =>
    match a.find? v with
    | some old => if old = e then bind? a rest else none
    | none => bind? (a.insert v e) rest

namespace Fragment

/-- Whether the concept at an element has a value that passes the predicate. -/
def valuePasses (g : Graph) (predicate : Constraint) (e : Element) : Bool :=
  ((e.conceptId?.bind g.concept?).bind (·.value)).any predicate.test

/-- The castings that an ownership edge stands for, with their players. -/
def edgeCastings (edge : HasEdge) : List Casting :=
  [⟨edge.id, edge.owned.ownerRole, edge.owner⟩, ⟨edge.id, edge.owned.valueRole, edge.value⟩]

/-- The castings of a relation in either form. -/
def castingsAt (g : Graph) : Element → List Casting
  | .vertex id => g.castingsOf id
  | .edge id => (g.edge? id).elim [] edgeCastings
  | .casting _ => []

/-- The castings in which a concept plays, each with the element of its relation. -/
def castingsOfPlayer (g : Graph) (player : ConceptId) : List (Element × Casting) :=
  (g.castingsBy player).map (fun c => (.vertex c.relation, c)) ++
    (g.edgesFrom player).map (fun e => (.edge e.id, ⟨e.id, e.owned.ownerRole, player⟩)) ++
    (g.edgesTo player).map fun e => (.edge e.id, ⟨e.id, e.owned.valueRole, player⟩)

/-- What the step binds from an assignment that has its start variable, or that it can start on:
one list of bindings for each way to make the step. -/
def bindings (f : Fragment) (g : Graph) (a : Assignment) : List (List (Var × Element)) :=
  match f with
  | .identity v id => if (g.concept? id).isSome then [[(v, g.element id)]] else []
  | .labelled v label => (g.labelled? label).toList.map fun type => [(v, .vertex type)]
  | .valued v predicate =>
    match a.find? v with
    | some e => if valuePasses g predicate e then [[]] else []
    | none => (g.elements.filter (valuePasses g predicate)).map fun e => [(v, e)]
  | .outIsa thing type =>
    match (((a.find? thing).bind Element.conceptId?).bind g.concept?).bind (·.typeId) with
    | some t => (g.supertypes t).map fun t => [(type, .vertex t)]
    | none => []
  | .inIsa type thing =>
    match (a.find? type).bind Element.conceptId? with
    | some t => ((g.subtypes t).flatMap g.instances).map fun i => [(thing, g.element i)]
    | none => []
  | .outPlayer link =>
    match a.find? link.relation with
    | some e =>
      if e.conceptId?.any (link.acceptsRelation g) then
        ((castingsAt g e).filter fun c => link.acceptsRole c.role).map fun c =>
          [(link.casting, .casting c), (link.player, g.element c.player)]
      else []
    | none => []
  | .inPlayer link =>
    match (a.find? link.player).bind Element.conceptId? with
    | some player =>
      ((castingsOfPlayer g player).filter fun (_, c) =>
        link.acceptsRole c.role && link.acceptsRelation g c.relation).map fun (e, c) =>
          [(link.relation, e), (link.casting, .casting c)]
    | none => []
  | .neq left right =>
    match a.find? left, a.find? right with
    | some l, some r => if l = r then [] else [[]]
    | _, _ => []

/-- The extensions of an assignment by the step. -/
def extend (f : Fragment) (g : Graph) (a : Assignment) : List Assignment :=
  (f.bindings g a).filterMap a.bind?

/-- The extensions of an assignment by the step, every element tried for an unbound start. -/
def run (f : Fragment) (g : Graph) (a : Assignment) : List Assignment :=
  if a.contains f.start || f.isIndexed then f.extend g a
  else if f.dependencies.toList.isEmpty then
    g.elements.flatMap fun e => f.extend g (a.insert f.start e)
  else []

end Fragment

end GraphInference

import GraphInference.Concept
import GraphInference.Sorted.Map

/-!
# Graphs

A graph holds its concepts, role castings and ownership edges in the order in which they were made,
and the supertype of each type that has one. Look-ups are views of these lists: the instances of a
type, the castings of a relation or of a player, the edges of an owner or of a value.

A relation stands in the graph in one of two forms. An ordinary relation is a vertex with one
casting for each role player; the ownership of an attribute is one edge from owner to value.
-/

namespace GraphInference

/-- A role player of a relation vertex. -/
structure Casting where
  relation : ConceptId
  role : Label
  player : ConceptId
deriving DecidableEq, Inhabited

/-- The ownership of an attribute; `id` is the implicit relation itself. -/
structure HasEdge where
  id : ConceptId
  owned : Label
  owner : ConceptId
  value : ConceptId
deriving DecidableEq, Inhabited

/-- Where a traversal can stand. -/
inductive Element where
  | vertex (id : ConceptId)
  | edge (id : ConceptId)
  | casting (c : Casting)
deriving DecidableEq, Inhabited

namespace Element

/-- The concept at the element; a casting is none. -/
def conceptId? : Element → Option ConceptId
  | .vertex id | .edge id => some id
  | .casting _ => none

def isEdge : Element → Bool
  | .edge _ => true
  | _ => false

end Element

/-- A graph. -/
structure Graph where
  concepts : List Concept := []
  castings : List Casting := []
  edges : List HasEdge := []
  parents : SortedMap ConceptId ConceptId := .empty
  /-- How many identifiers have been given out. -/
  lastId : Nat := 0

namespace Graph

/-! ## Look-ups -/

def concept? (g : Graph) (id : ConceptId) : Option Concept :=
  g.concepts.find? (·.id = id)

/-- The schema concept of a label. -/
def labelled? (g : Graph) (l : Label) : Option ConceptId :=
  (g.concepts.find? (·.label = some l)).map (·.id)

def edge? (g : Graph) (id : ConceptId) : Option HasEdge :=
  g.edges.find? (·.id = id)

/-- The direct instances of a type, ownership edges among them. -/
def instances (g : Graph) (type : ConceptId) : List ConceptId :=
  (g.concepts.filter (·.typeId = some type)).map (·.id)

/-- The castings of a relation vertex. -/
def castingsOf (g : Graph) (relation : ConceptId) : List Casting :=
  g.castings.filter (·.relation = relation)

/-- The castings that a concept plays in. -/
def castingsBy (g : Graph) (player : ConceptId) : List Casting :=
  g.castings.filter (·.player = player)

def edgesFrom (g : Graph) (owner : ConceptId) : List HasEdge :=
  g.edges.filter (·.owner = owner)

def edgesTo (g : Graph) (value : ConceptId) : List HasEdge :=
  g.edges.filter (·.value = value)

/-- The instance vertices, in the order in which they were made. -/
def things (g : Graph) : List ConceptId :=
  (g.concepts.filter fun c => c.kind.isThing && (g.edge? c.id).isNone).map (·.id)

/-- The edges in the order of their identifiers. -/
def edgeIds (g : Graph) : List ConceptId :=
  (SortedMap.ofList (g.edges.map fun e => (e.id, ()))).keys

/-- The element of a concept. -/
def element (g : Graph) (id : ConceptId) : Element :=
  if (g.edge? id).isSome then .edge id else .vertex id

/-- Every element a scan visits: the instance vertices, then the edges. -/
def elements (g : Graph) : List Element :=
  g.things.map .vertex ++ g.edgeIds.map .edge

/-! ## The type hierarchy -/

/-- The chain of parents from `type` on, up to the first type in it that stands in `seen`; at most
`n` long. -/
def parentChain (g : Graph) : Nat → List ConceptId → ConceptId → List ConceptId
  | 0, _, _ => []
  | n + 1, seen, type =>
    match g.parents.find? type with
    | none => []
    | some parent =>
      if parent ∈ seen then [] else parent :: parentChain g n (parent :: seen) parent

/-- A type and its supertypes, the nearest first. -/
def supertypes (g : Graph) (type : ConceptId) : List ConceptId :=
  type :: g.parentChain g.parents.size [type] type

/-- The direct subtypes of `type` that are not in `seen`, in the order of their identifiers. -/
def newChildren (g : Graph) (seen : List ConceptId) (type : ConceptId) : List ConceptId :=
  (g.parents.entries.filter fun e => e.2 = type && e.1 ∉ seen).map (·.1)

/-- The types below those in `queue`, breadth first, with `seen` already met; at most `n` types are
taken from the queue. -/
def descend (g : Graph) : Nat → List ConceptId → List ConceptId → List ConceptId
  | 0, _, _ => []
  | _, _, [] => []
  | n + 1, seen, type :: queue =>
    let children := g.newChildren seen type
    children ++ descend g n (seen ++ children) (queue ++ children)

/-- A type and its subtypes, breadth first. -/
def subtypes (g : Graph) (type : ConceptId) : List ConceptId :=
  type :: g.descend (g.parents.size + 1) [type] [type]

end Graph

end GraphInference

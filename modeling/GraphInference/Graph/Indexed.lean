import GraphInference.Graph.Define

/-!
# Indexed graphs

A graph kept in one map for each way to look something up in it, with updates in place. An update
writes to several maps one after the other, and what it has written stays if it fails afterwards; so
every check has to stand before the first write.
-/

namespace GraphInference

/-- A graph with an index for each look-up. -/
structure IndexedGraph where
  concepts : SortedMap ConceptId Concept := .empty
  labels : SortedMap Label ConceptId := .empty
  parents : SortedMap ConceptId ConceptId := .empty
  /-- The direct instances of each type. -/
  instances : SortedMap ConceptId (List ConceptId) := .empty
  /-- The castings of each relation. -/
  castings : SortedMap ConceptId (List Casting) := .empty
  castingsByPlayer : SortedMap ConceptId (List Casting) := .empty
  edges : SortedMap ConceptId HasEdge := .empty
  edgesByOwner : SortedMap ConceptId (List ConceptId) := .empty
  edgesByValue : SortedMap ConceptId (List ConceptId) := .empty
  /-- The instance vertices in the order in which they were made. -/
  things : List ConceptId := []
  /-- How many identifiers have been given out. -/
  lastId : Nat := 0

namespace IndexedGraph

/-! ## Look-ups -/

/-- The list at a key, empty if there is none. -/
def listAt {α : Type} (m : SortedMap ConceptId (List α)) (k : ConceptId) : List α :=
  (m.find? k).getD []

/-- The map with a value more at the end of the list at a key. -/
def push {α : Type} (m : SortedMap ConceptId (List α)) (k : ConceptId) (a : α) :
    SortedMap ConceptId (List α) :=
  m.insert k (listAt m k ++ [a])

def instancesOf (s : IndexedGraph) (type : ConceptId) : List ConceptId :=
  listAt s.instances type

def castingsOf (s : IndexedGraph) (relation : ConceptId) : List Casting :=
  listAt s.castings relation

def castingsBy (s : IndexedGraph) (player : ConceptId) : List Casting :=
  listAt s.castingsByPlayer player

def edgesFrom (s : IndexedGraph) (owner : ConceptId) : List HasEdge :=
  (listAt s.edgesByOwner owner).filterMap s.edges.find?

def edgesTo (s : IndexedGraph) (value : ConceptId) : List HasEdge :=
  (listAt s.edgesByValue value).filterMap s.edges.find?

/-- The instance of an attribute type with a value. -/
def attribute? (s : IndexedGraph) (type : ConceptId) (value : Value) : Option ConceptId :=
  (s.instancesOf type).find? fun id => (s.concepts.find? id).bind (·.value) = some value

/-- The label of an attribute's type. -/
def attributeLabel? (s : IndexedGraph) (id : ConceptId) : Option Label := do
  let c ← s.concepts.find? id
  if c.kind = .attr then (← s.concepts.find? (← c.typeId)).label else none

end IndexedGraph

/-- An update in place, which may fail; what it wrote before stays written. -/
abbrev Update := ExceptT InferenceError (StateM IndexedGraph)

namespace Update

/-- Gives out an identifier. -/
def newId (letter : Char) : Update ConceptId := do
  modify fun s => { s with lastId := s.lastId + 1 }
  return ⟨String.ofList (letter :: Nat.toDigits 10 (← get).lastId)⟩

/-! ## Schema -/

/-- The concept of a label, made with the given kind if there is none. -/
def define (kind : Kind) (label : Label) : Update ConceptId := do
  match (← get).labels.find? label with
  | some id => return id
  | none =>
    let id ← newId 'T'
    modify fun s => { s with concepts := s.concepts.insert id ⟨id, kind, some label, none, none⟩ }
    modify fun s => { s with labels := s.labels.insert label id }
    return id

def defineEntityType (label : Label) : Update ConceptId :=
  define .entityType label

def defineRole (label : Label) : Update ConceptId :=
  define .role label

/-- Defines a relation type after the roles that it relates. -/
def defineRelationType (label : Label) (roles : List Label) : Update ConceptId := do
  roles.forM fun role => do
    let _ ← defineRole role
  define .relationType label

/-- Defines an attribute type after the roles and the relation type of its ownership. -/
def defineAttributeType (label : Label) : Update ConceptId := do
  let _ ← defineRole label.ownerRole
  let _ ← defineRole label.valueRole
  let _ ← define .relationType label.ownership
  define .attributeType label

/-- Makes one type the parent of another, in place of any parent before. -/
def setSupertype (sub sup : Label) : Update Unit := do
  let find (l : Label) : Update ConceptId := do
    match (← get).labels.find? l with
    | some id => return id
    | none => throw (.unknownSchemaConcept ("no type labelled '" ++ l.text ++ "'"))
  let sub ← find sub
  let sup ← find sup
  modify fun s => { s with parents := s.parents.insert sub sup }

/-- The concept of a label, if it is of the kind. -/
def ofKind (kind : Kind) (label : Label) : Update ConceptId := do
  let s ← get
  match (s.labels.find? label).filter fun id => (s.concepts.find? id).map (·.kind) = some kind with
  | some id => return id
  | none =>
    throw (.unknownSchemaConcept ("no " ++ kind.name ++ " labelled '" ++ label.text ++ "'"))

/-! ## Instances -/

/-- Fails unless the graph holds a concept. -/
def require (id : ConceptId) : Update Unit := do
  unless (← get).concepts.contains id do
    throw (.unknownConcept id.text)

/-- Adds an instance vertex. -/
def addThing (type : ConceptId) (kind : Kind) (value : Option Value) : Update ConceptId := do
  let id ← newId 'V'
  modify fun s => { s with concepts := s.concepts.insert id ⟨id, kind, none, some type, value⟩ }
  modify fun s => { s with instances := IndexedGraph.push s.instances type id }
  modify fun s => { s with things := s.things ++ [id] }
  return id

def addEntity (type : Label) : Update ConceptId := do
  addThing (← ofKind .entityType type) .entity none

/-- Files a casting under its relation and under its player. -/
def addCasting (c : Casting) : Update Unit := do
  modify fun s => { s with castings := IndexedGraph.push s.castings c.relation c }
  modify fun s => { s with castingsByPlayer := IndexedGraph.push s.castingsByPlayer c.player c }

/-- Adds a relation with its role players; one player may take several places. -/
def addRelation (type : Label) (players : List (Label × ConceptId)) : Update ConceptId := do
  let type ← ofKind .relationType type
  players.forM fun (role, player) => do
    let _ ← ofKind .role role
    require player
  let id ← addThing type .relation none
  players.forM fun (role, player) => addCasting ⟨id, role, player⟩
  return id

/-- The attribute of a type and value, added if the graph does not hold it. -/
def addAttribute (type : Label) (value : Value) : Update ConceptId := do
  let type ← ofKind .attributeType type
  match (← get).attribute? type value with
  | some id => return id
  | none => addThing type .attr (some value)

/-- Makes a concept the owner of an attribute. -/
def addHas (owner value : ConceptId) : Update ConceptId := do
  require owner
  match (← get).attributeLabel? value with
  | none => throw (.unknownConcept value.text)
  | some owned =>
    let type ← ofKind .relationType owned.ownership
    let id ← newId 'E'
    modify fun s => { s with concepts := s.concepts.insert id ⟨id, .relation, none, some type, none⟩ }
    modify fun s => { s with instances := IndexedGraph.push s.instances type id }
    modify fun s => { s with edges := s.edges.insert id ⟨id, owned, owner, value⟩ }
    modify fun s => { s with edgesByOwner := IndexedGraph.push s.edgesByOwner owner id }
    modify fun s => { s with edgesByValue := IndexedGraph.push s.edgesByValue value id }
    return id

end Update

end GraphInference

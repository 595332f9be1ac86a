import GraphInference.Error
import GraphInference.Graph

/-!
# Building graphs

Defining types and roles and adding instances. A label is defined once: defining it again gives the
concept that has it. A step that fails leaves the graph as it was.
-/

namespace GraphInference.Graph

/-- An identifier not given out before: a letter and a number. -/
def nextId (g : Graph) (letter : Char) : ConceptId :=
  ⟨String.ofList (letter :: Nat.toDigits 10 (g.lastId + 1))⟩

/-- The graph with a concept more, under the identifier that `nextId` gives for the letter. -/
def addConcept (g : Graph) (letter : Char) (kind : Kind) (label : Option Label)
    (typeId : Option ConceptId) (value : Option Value) : ConceptId × Graph :=
  let id := g.nextId letter
  (id, { g with
    concepts := g.concepts ++ [⟨id, kind, label, typeId, value⟩]
    lastId := g.lastId + 1 })

/-! ## Schema -/

/-- The concept of a label, made with the given kind if there is none. -/
def define (g : Graph) (kind : Kind) (label : Label) : ConceptId × Graph :=
  match g.labelled? label with
  | some id => (id, g)
  | none => g.addConcept 'T' kind (some label) none none

def defineEntityType (g : Graph) (label : Label) : ConceptId × Graph :=
  g.define .entityType label

def defineRole (g : Graph) (label : Label) : ConceptId × Graph :=
  g.define .role label

/-- Defines a relation type after the roles that it relates. -/
def defineRelationType (g : Graph) (label : Label) (roles : List Label) : ConceptId × Graph :=
  (roles.foldl (fun g role => (g.defineRole role).2) g).define .relationType label

/-- Defines an attribute type after the roles and the relation type of its ownership. -/
def defineAttributeType (g : Graph) (label : Label) : ConceptId × Graph :=
  let g := (g.defineRole label.ownerRole).2
  let g := (g.defineRole label.valueRole).2
  let g := (g.define .relationType label.ownership).2
  g.define .attributeType label

/-- Makes one type the parent of another, in place of any parent before. -/
def setSupertype (g : Graph) (sub sup : Label) : Except InferenceError Graph := do
  let find (l : Label) : Except InferenceError ConceptId :=
    match g.labelled? l with
    | some id => .ok id
    | none => .error (.unknownSchemaConcept ("no type labelled '" ++ l.text ++ "'"))
  let sub ← find sub
  let sup ← find sup
  return { g with parents := g.parents.insert sub sup }

/-- The concept of a label, if it is of the kind. -/
def ofKind (g : Graph) (kind : Kind) (label : Label) : Except InferenceError ConceptId :=
  match (g.labelled? label).bind g.concept? with
  | some c =>
    if c.kind = kind then .ok c.id
    else .error (.unknownSchemaConcept ("no " ++ kind.name ++ " labelled '" ++ label.text ++ "'"))
  | none => .error (.unknownSchemaConcept ("no " ++ kind.name ++ " labelled '" ++ label.text ++ "'"))

/-! ## Instances -/

/-- Fails unless the graph holds a concept. -/
def require (g : Graph) (id : ConceptId) : Except InferenceError Unit :=
  if (g.concept? id).isSome then .ok () else .error (.unknownConcept id.text)

def addEntity (g : Graph) (type : Label) : Except InferenceError (ConceptId × Graph) := do
  let type ← g.ofKind .entityType type
  return g.addConcept 'V' .entity none (some type) none

/-- Adds a relation with its role players; one player may take several places. -/
def addRelation (g : Graph) (type : Label) (players : List (Label × ConceptId)) :
    Except InferenceError (ConceptId × Graph) := do
  let type ← g.ofKind .relationType type
  players.forM fun (role, player) => do
    let _ ← g.ofKind .role role
    g.require player
  let (id, g) := g.addConcept 'V' .relation none (some type) none
  return (id, { g with castings := g.castings ++ players.map fun p => ⟨id, p.1, p.2⟩ })

/-- The instance of an attribute type with a value. -/
def attribute? (g : Graph) (type : ConceptId) (value : Value) : Option ConceptId :=
  (g.concepts.find? fun c => c.typeId = some type && c.value = some value).map (·.id)

/-- The attribute of a type and value, added if the graph does not hold it. -/
def addAttribute (g : Graph) (type : Label) (value : Value) :
    Except InferenceError (ConceptId × Graph) := do
  let type ← g.ofKind .attributeType type
  match g.attribute? type value with
  | some id => return (id, g)
  | none => return g.addConcept 'V' .attr none (some type) (some value)

/-- The label of an attribute's type. -/
def attributeLabel? (g : Graph) (id : ConceptId) : Option Label := do
  let c ← g.concept? id
  if c.kind = .attr then (← g.concept? (← c.typeId)).label else none

/-- Makes a concept the owner of an attribute. -/
def addHas (g : Graph) (owner value : ConceptId) : Except InferenceError (ConceptId × Graph) := do
  g.require owner
  match g.attributeLabel? value with
  | none => .error (.unknownConcept value.text)
  | some owned =>
    let type ← g.ofKind .relationType owned.ownership
    let (id, g) := g.addConcept 'E' .relation none (some type) none
    return (id, { g with edges := g.edges ++ [⟨id, owned, owner, value⟩] })

end GraphInference.Graph

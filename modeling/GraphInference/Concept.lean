import GraphInference.Value

/-!
# Concepts

Identifiers, schema labels and the concepts of a graph. Ownership of an attribute is an implicit
relation; its type and its two roles have labels made from the attribute's.
-/

namespace GraphInference

/-- The identifier of a concept. -/
structure ConceptId where
  text : String
deriving DecidableEq, Inhabited

/-- The label of a schema concept. -/
structure Label where
  text : String
deriving DecidableEq, Inhabited

instance : Ord ConceptId := ⟨compareOn ConceptId.text⟩

instance : Ord Label := ⟨compareOn Label.text⟩

instance : Std.TransOrd ConceptId := inferInstanceAs (Std.TransCmp (compareOn ConceptId.text))

instance : Std.TransOrd Label := inferInstanceAs (Std.TransCmp (compareOn Label.text))

instance : Std.LawfulEqOrd ConceptId where
  compare_self {a} := @Std.ReflCmp.compare_self String compare _ a.text
  eq_of_compare {a b} h := by
    have h : compare a.text b.text = .eq := h
    cases a; cases b
    exact congrArg ConceptId.mk (Std.LawfulEqCmp.eq_of_compare h)

instance : Std.LawfulEqOrd Label where
  compare_self {a} := @Std.ReflCmp.compare_self String compare _ a.text
  eq_of_compare {a b} h := by
    have h : compare a.text b.text = .eq := h
    cases a; cases b
    exact congrArg Label.mk (Std.LawfulEqCmp.eq_of_compare h)

namespace Label

/-- Implicit labels belong to attribute ownership. -/
def isImplicit (l : Label) : Bool :=
  l.text.toList.head? = some '@'

/-- The relation type that links owners to values of an attribute. -/
def ownership (owned : Label) : Label :=
  ⟨"@has-" ++ owned.text⟩

/-- The role of the owner. -/
def ownerRole (owned : Label) : Label :=
  ⟨"@has-" ++ owned.text ++ "-owner"⟩

/-- The role of the value. -/
def valueRole (owned : Label) : Label :=
  ⟨"@has-" ++ owned.text ++ "-value"⟩

end Label

/-- What a concept is. -/
inductive Kind where
  | entity | relation | attr
  | entityType | relationType | attributeType
  | role | rule
deriving DecidableEq, Inhabited

namespace Kind

/-- Whether concepts of the kind are instances. -/
def isThing : Kind → Bool
  | .entity | .relation | .attr => true
  | _ => false

def isType : Kind → Bool
  | .entityType | .relationType | .attributeType => true
  | _ => false

def isSchema (k : Kind) : Bool :=
  !k.isThing

/-- The name of the kind in messages. -/
def name : Kind → String
  | .entity => "Entity"
  | .relation => "Relation"
  | .attr => "Attribute"
  | .entityType => "EntityType"
  | .relationType => "RelationType"
  | .attributeType => "AttributeType"
  | .role => "Role"
  | .rule => "Rule"

/-- The name of the kind in documents. -/
def tag : Kind → String
  | .entity => "ENTITY"
  | .relation => "RELATION"
  | .attr => "ATTRIBUTE"
  | .entityType => "ENTITY_TYPE"
  | .relationType => "RELATION_TYPE"
  | .attributeType => "ATTRIBUTE_TYPE"
  | .role => "ROLE"
  | .rule => "RULE"

def all : List Kind :=
  [.entity, .relation, .attr, .entityType, .relationType, .attributeType, .role, .rule]

def ofTag? (tag : String) : Option Kind :=
  all.find? (·.tag = tag)

theorem ofTag?_tag (k : Kind) : ofTag? k.tag = some k := by
  cases k <;> decide

end Kind

/-- A concept: schema concepts have labels, instances a direct type, attributes a value. -/
structure Concept where
  id : ConceptId
  kind : Kind
  label : Option Label
  typeId : Option ConceptId
  value : Option Value
deriving DecidableEq, Inhabited

end GraphInference

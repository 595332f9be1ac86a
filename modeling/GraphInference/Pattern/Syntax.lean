import GraphInference.Pattern

/-!
# Written patterns

A statement as it is written: its variable may be left out, and the value of an attribute may stand
where its variable would. `toStatement` gives each of the missing variables a generated one.
-/

namespace GraphInference

/-- What stands after the label of a `has` property. -/
inductive WrittenOwned where
  | var (v : Var)
  | value (predicate : Constraint)
deriving DecidableEq

/-- A property as written. -/
inductive WrittenProperty where
  | isa (type : TypeRef)
  | has (owned : Label) (target : WrittenOwned)
  | identity (id : ConceptId)
  | value (predicate : Constraint)
deriving DecidableEq

/-- A statement as written. -/
structure WrittenStatement where
  subject : Option Var
  players : Option (List RolePlayer)
  properties : List WrittenProperty
deriving DecidableEq

namespace WrittenProperty

def toProperty : WrittenProperty → Fresh Property
  | .isa type => pure (.isa type)
  | .has owned (.var v) => pure (.has owned v none)
  | .has owned (.value predicate) => return .has owned (← Fresh.var) (some predicate)
  | .identity id => pure (.identity id)
  | .value predicate => pure (.value predicate)

end WrittenProperty

namespace WrittenStatement

/-- Whether the statement starts with a variable or a relation and says something of it. -/
def isFounded (s : WrittenStatement) : Bool :=
  s.players.isSome || s.subject.isSome && !s.properties.isEmpty

def toStatement (s : WrittenStatement) : Fresh Statement := do
  let properties ← s.properties.mapM WrittenProperty.toProperty
  let subject ← match s.subject with
    | some v => pure v
    | none => Fresh.var
  return ⟨subject, (s.players.map Property.relation).toList ++ properties⟩

end WrittenStatement

/-- The conjunction of written statements. -/
def Conjunction.ofWritten (statements : List WrittenStatement) : Fresh Conjunction :=
  return ⟨← statements.mapM WrittenStatement.toStatement⟩

end GraphInference

import GraphInference.Var

/-!
# Errors

What can go wrong between a pattern and its answers. A constructor names the cause and carries the
detail that its message ends with.
-/

namespace GraphInference

/-- A failure of parsing, decomposition, unification, planning or resolution. -/
inductive InferenceError where
  /-- Atoms of two families, or role players without counterparts. -/
  | incompatibleAtoms (detail : String)
  /-- A pattern that pins its variable to more than one value. -/
  | ambiguousSubstitution (detail : String)
  /-- A label that the schema does not define. -/
  | unknownSchemaConcept (detail : String)
  /-- An identifier that the graph does not hold. -/
  | unknownConcept (detail : String)
  /-- A rule head over variables that its body does not bind. -/
  | undeclaredVariable (detail : String)
  /-- A pattern or rule of the wrong shape. -/
  | malformedPattern (detail : String)
  /-- A pattern that no traversal step realizes. -/
  | noApplicableFragments (detail : String)
  /-- One variable with two targets, or two variables with one where an inverse is asked for. -/
  | unifierConflict (detail : String)
  /-- Text that is no pattern or no rule. -/
  | parse (detail : String)
  /-- Work on a closed transaction. -/
  | transactionClosed (detail : String)
  /-- A plan that cannot be completed. -/
  | planning (detail : String)
  /-- A configuration that cannot be read or used. -/
  | config (detail : String)
deriving DecidableEq, Inhabited

/-- Who has to act on an error. -/
inductive ErrorClass where
  | malformedInput
  | schemaInconsistency
  | closedResource
  | internal
deriving DecidableEq

def ErrorClass.name : ErrorClass → String
  | malformedInput => "MalformedInput"
  | schemaInconsistency => "SchemaInconsistency"
  | closedResource => "ClosedResource"
  | internal => "Internal"

namespace InferenceError

def detail : InferenceError → String
  | incompatibleAtoms d | ambiguousSubstitution d | unknownSchemaConcept d | unknownConcept d
  | undeclaredVariable d | malformedPattern d | noApplicableFragments d | unifierConflict d
  | parse d | transactionClosed d | planning d | config d => d

/-- What the message of an error starts with. -/
def heading : InferenceError → String
  | incompatibleAtoms _ => "Incompatible atomic types for unification: "
  | ambiguousSubstitution _ => "Ambiguous substitution source: "
  | unknownSchemaConcept _ => "Unknown schema concept: "
  | unknownConcept _ => "Unknown concept: "
  | undeclaredVariable _ => "Undeclared variable: "
  | malformedPattern _ => "Malformed pattern: "
  | noApplicableFragments _ => "No applicable fragments: "
  | unifierConflict _ => "Conflicting unifier mapping: "
  | parse _ => "Parse error: "
  | transactionClosed _ => "Transaction is closed: "
  | planning _ => "Planning error: "
  | config _ => "Configuration error: "

def message (e : InferenceError) : String :=
  e.heading ++ e.detail

def errorClass : InferenceError → ErrorClass
  | unknownSchemaConcept _ | unknownConcept _ => .schemaInconsistency
  | transactionClosed _ => .closedResource
  | planning _ | config _ => .internal
  | _ => .malformedInput

end InferenceError

/-- A computation that may fail and draws from the supply, what it drew staying drawn. -/
abbrev Attempt := ExceptT InferenceError Fresh

end GraphInference

import GraphInference.Answer.Json
import GraphInference.Atom.Substitution
import GraphInference.Proofs.Resolution.Cleanness
import GraphInference.Proofs.Resolution.Closure
import GraphInference.Proofs.Traversal.Transparency
import GraphInference.Value.Json
import GraphInference.Var.Renumbering
import GraphInference.Proofs.Query.Retyping
import GraphInference.Proofs.Resolution.Recursion
import GraphInference.Proofs.Query.Names
import GraphInference.Proofs.Unification.Completeness
import GraphInference.Proofs.Unification.Targets
import GraphInference.Proofs.Resolution.Failure
import GraphInference.Proofs.Resolution.FurtherRules
import GraphInference.Proofs.Resolution.History
import GraphInference.Proofs.Resolution.PlayerOrder
import GraphInference.Proofs.Resolution.TypeHierarchy
import GraphInference.Proofs.Resolution.Configurations
import GraphInference.Proofs.Resolution.RuleNames
import GraphInference.Proofs.Graph.Record
import GraphInference.Proofs.Pattern.Relations
import GraphInference.Proofs.Answer.Explanations
import GraphInference.Proofs.Resolution.Explanations
import GraphInference.Proofs.Traversal.Validity
import GraphInference.Proofs.Graph.Consistency
import GraphInference.Proofs.Pattern.RoundTrip
import GraphInference.Proofs.Graph.Loops
import GraphInference.Proofs.Traversal.Scans
import GraphInference.Proofs.Query.Admission
import GraphInference.Proofs.Unification.Composition
import GraphInference.Proofs.Answer.NaturalJoin
import GraphInference.Proofs.Answer.Derivations
import GraphInference.Proofs.Graph.Definitions
import GraphInference.Proofs.Unification.Involution
import GraphInference.Proofs.Unification.Union
import GraphInference.Proofs.Answer.Keys
import GraphInference.Proofs.Answer.Documents

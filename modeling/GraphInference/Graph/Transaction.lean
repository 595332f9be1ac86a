import GraphInference.Graph.Define

/-!
# Transactions

A transaction is the graph as it stands, open until it is closed. Reading through a closed one
fails.
-/

namespace GraphInference

/-- A graph, the name of the access to it, and whether it may be read. -/
structure Transaction where
  name : String
  graph : Graph
  isOpen : Bool := true

namespace Transaction

def close (t : Transaction) : Transaction :=
  { t with isOpen := false }

/-- Fails on a closed transaction. -/
def ensureOpen (t : Transaction) : Except InferenceError Unit :=
  if t.isOpen then .ok ()
  else .error (.transactionClosed ("transaction " ++ t.name ++ " is closed"))

/-- The schema concept of a label. -/
def resolveLabel (t : Transaction) (l : Label) : Except InferenceError (Option ConceptId) := do
  t.ensureOpen
  return t.graph.labelled? l

def fetch (t : Transaction) (id : ConceptId) : Except InferenceError (Option Concept) := do
  t.ensureOpen
  return t.graph.concept? id

end Transaction

end GraphInference

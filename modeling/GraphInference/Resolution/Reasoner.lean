import GraphInference.Resolution.Stream

/-!
# Reasoners

A reasoner answers patterns by its rules. It splits a pattern into atomic queries, drains a stream
of answers for each and joins them; what it has planned and found stays known for later.
-/

namespace GraphInference

/-- A configuration with rules and with the knowledge gathered so far. -/
structure Reasoner where
  config : Config
  rules : RuleSet
  knowledge : Knowledge

namespace Reasoner

/-- A reasoner without rules and knowledge, if the configuration is valid. -/
def make (config : Config) : Except InferenceError Reasoner := do
  let config ← config.validate
  return ⟨config, {}, { programs := .ofCapacity config.planCacheCapacity }⟩

def setting (r : Reasoner) (t : Transaction) : Setting :=
  ⟨t, r.config, r.rules⟩

/-- The outcome of some work, and the reasoner with what the work made known. -/
def perform {α : Type} (r : Reasoner) (w : Work α) : Fresh (α × Reasoner) := do
  let (a, knowledge) ← w.run r.knowledge
  return (a, { r with knowledge })

/-- Adds a rule. Known answers are dropped, as the rule may add to them. -/
def addRule (r : Reasoner) (t : Transaction) (rule : Rule) : Attempt (RuleId × Reasoner) := do
  let (id, rules) ← r.rules.add t rule
  return (id, { r with rules, knowledge := { r.knowledge with known := {} } })

/-- The program for a conjunction. -/
def plan (c : Conjunction) : Resolve Program :=
  Resolve.plan c

/-- The stream of answers to an atomic query. -/
def stream (q : AtomicQuery) : AnswerStream :=
  { query := q, path := [] }

/-- The rows of answers to every query that agree, none once there are none. -/
def joinAll (s : Setting) (rows : List JoinRow) : List AtomicQuery → Resolve (List JoinRow)
  | [] => return rows
  | q :: rest => do
    let answers ← (stream q).drain s
    let rows := JoinRow.join rows answers
    if rows.isEmpty then return [] else joinAll s rows rest

/-- The answers to a conjunction, with its user-defined variables bound. -/
def resolve (s : Setting) (c : Conjunction) : Resolve (List Answer) := do
  let d ← Resolve.ofAttempt (Decomposition.ofConjunction s.transaction c)
  let vars := c.userVars.toList
  let answers ← match d.queries with
    | [q] => (stream q).drain s
    | queries => do
      let rows ← joinAll s [.empty] queries
      rows.mapM fun row => (Answer.make row.binding (.join row.answers) : Fresh _)
  return (AnswerSet.ofList (answers.map (·.project vars))).answers

end Reasoner

end GraphInference

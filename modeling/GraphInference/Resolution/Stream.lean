import GraphInference.Answer.Cache
import GraphInference.Config
import GraphInference.Rule.Set
import GraphInference.Traversal.ProgramCache

/-!
# Answer streams

The answers to an atomic query come one by one. A stream first looks the query up in the graph and
then applies the rules whose heads unify with it, in rounds for as long as a recursive rule adds
answers:

    unresolved → lookup attempted → resolved by lookup
                                  → needs rule expansion → resolved by rule
    unresolved → exhausted

To apply a rule is to resolve the queries of its body and to join their answers. The queries under
expansion make up a path. A query that is equivalent to one of them, or that would make the path
longer than its bound, is not expanded: it is exhausted by the answers that are known already.

A stream works in steps, each one look-up or one application of a rule, and asks before every step
whether the transaction is still open.
-/

namespace GraphInference

/-! ## Computations -/

/-- What earlier work leaves for later: planned programs and known answers. -/
structure Knowledge where
  programs : ProgramCache
  known : AnswerCache := {}

/-- What a resolution does not change. -/
structure Setting where
  transaction : Transaction
  config : Config
  rules : RuleSet

/-- Work on the knowledge of a reasoner. -/
abbrev Work := StateT Knowledge Fresh

/-- Work that may fail; what it learnt before stays known. -/
abbrev Resolve := ExceptT InferenceError Work

namespace Resolve

def ofAttempt {α : Type} (x : Attempt α) : Resolve α :=
  ExceptT.mk (x.run : Fresh _)

/-- The program for a conjunction. -/
def plan (c : Conjunction) : Resolve Program :=
  ExceptT.mk do
    let k ← get
    let (r, programs) ← (ProgramCache.plan c k.programs : Fresh _)
    set { k with programs }
    return r

/-- The known answers of a query. -/
def knownAnswers (q : AtomicQuery) : Resolve (List Answer) :=
  return ((← get).known.get? q).getD []

/-- Makes answers of a query known. -/
def record (q : AtomicQuery) (answers : List Answer) : Resolve Unit :=
  modify fun k => { k with known := (k.known.record q answers).2 }

/-- The answers to a query that are found in the graph. -/
def lookup (s : Setting) (q : AtomicQuery) : Resolve (List Answer) := do
  let c := q.toConjunction
  if c.statements.isEmpty then return []
  let p ← plan c
  let bindings ← liftExcept do
    s.transaction.ensureOpen
    p.execute s.transaction.graph .empty
  let snapshot := q.snapshot
  let vars := q.userVars.toList
  bindings.mapM fun b => do
    return (← (Answer.make b (.lookup snapshot) : Fresh _)).project vars

end Resolve

/-! ## Paths -/

/-- The queries under expansion, the last one first. -/
abbrev ResolutionPath := List AtomicQuery

/-- Whether a query equivalent to `q` is under expansion. -/
def ResolutionPath.meets (path : ResolutionPath) (q : AtomicQuery) : Bool :=
  path.any fun r => r.isEquivalent q

/-! ## Streams -/

/-- How far a stream has come. -/
inductive Stage where
  | unresolved
  | lookupAttempted
  | resolvedByLookup
  | needsRuleExpansion
  | resolvedByRule
  | exhausted
deriving DecidableEq

namespace Stage

def isTerminal : Stage → Bool
  | resolvedByLookup | resolvedByRule | exhausted => true
  | _ => false

def text : Stage → String
  | unresolved => "unresolved"
  | lookupAttempted => "lookup-attempted"
  | resolvedByLookup => "resolved-by-lookup"
  | needsRuleExpansion => "needs-rule-expansion"
  | resolvedByRule => "resolved-by-rule"
  | exhausted => "exhausted"

end Stage

/-- A stream of answers to a query. -/
structure AnswerStream where
  query : AtomicQuery
  /-- The queries under expansion for whose sake this one is resolved. -/
  path : ResolutionPath
  stage : Stage := .unresolved
  /-- Answers found but not yet yielded. -/
  pending : List Answer := []
  /-- Every answer found, with all its explanations. -/
  answers : AnswerSet := {}
  rules : List (RuleId × Unifier) := []
  /-- The rules not yet applied in this round. -/
  rulesLeft : List (RuleId × Unifier) := []
  recursive : Bool := false
  /-- The number of rounds completed. -/
  round : Nat := 0
  /-- Whether this round found a new binding. -/
  roundAdded : Bool := false
  failed : Bool := false

namespace AnswerStream

/-- The stream with an answer, which is yielded if its binding is new. -/
def emit (st : AnswerStream) (a : Answer) : AnswerStream :=
  let (isNew, answers) := st.answers.insert a
  if isNew then { st with answers, pending := st.pending ++ [a], roundAdded := true }
  else { st with answers }

def emitAll (st : AnswerStream) (answers : List Answer) : AnswerStream :=
  answers.foldl emit st

/-- How the answers to a query of a rule's body are found. -/
abbrev Resolver := ResolutionPath → AtomicQuery → Resolve (List Answer)

/-- The rows extended by the answers to each query in turn, until none is left. -/
def joinBody (resolve : Resolver) (path : ResolutionPath) (rows : List JoinRow) :
    List AtomicQuery → Resolve (List JoinRow)
  | [] => return rows
  | q :: rest => do
    let answers ← resolve path (← (q.fork : Fresh _))
    let rows := JoinRow.join rows answers
    if rows.isEmpty then return [] else joinBody resolve path rows rest

/-- The binding of the query's variables by what the rule's variables are bound to. -/
def pullBack (q : AtomicQuery) (u : Unifier) (b : Binding) : Binding :=
  SortedMap.ofList (q.vars.toList.filterMap fun v => (b.find? (u.apply v)).map (v, ·))

/-- The answers of a rule among the joined rows: those that bind every user-defined variable of the
query and satisfy its predicates. -/
def derive (s : Setting) (q : AtomicQuery) (rule : RuleRef) (u : Unifier) (rows : List JoinRow) :
    Resolve (List Answer) := do
  let snapshot := q.snapshot
  let vars := q.userVars.toList
  let answers ← rows.mapM fun row => do
    let b := pullBack q u row.binding
    if vars.all b.contains then
      if ← liftExcept (q.admits s.transaction b) then
        let a ← (Answer.make b (.rule rule snapshot row.answers) : Fresh _)
        return some (a.project vars)
    return none
  return answers.filterMap id

/-- The answers that a rule gives to the query. -/
def applyRule (resolve : Resolver) (s : Setting) (st : AnswerStream) (id : RuleId) (u : Unifier) :
    Resolve (List Answer) := do
  match s.rules.get? id with
  | none => throw (.planning ("rule " ++ id.text ++ " is not registered"))
  | some r =>
    let rows ← joinBody resolve (st.query :: st.path) [.empty] r.body
    derive s st.query ⟨r.id, r.rule.label⟩ u rows

/-- One step of a stream that is not in a terminal stage. -/
def step (resolve : Resolver) (s : Setting) (st : AnswerStream) : Resolve AnswerStream := do
  match st.stage with
  | .unresolved =>
    if st.path.meets st.query ∨ s.config.maxRecursionDepth ≤ st.path.length then
      let st := st.emitAll (← Resolve.knownAnswers st.query)
      return { st with stage := .exhausted }
    else
      let st := st.emitAll (← Resolve.lookup s st.query)
      Resolve.record st.query st.answers.answers
      return { st with stage := .lookupAttempted }
  | .lookupAttempted =>
    let isAnswered := s.config.lookupPolicy = .closedWorld ∧ ¬ st.answers.answers.isEmpty
    let rules := s.rules.applicable st.query.central
    if ¬ s.config.reasoningEnabled ∨ isAnswered ∨ rules.isEmpty then
      return { st with stage := .resolvedByLookup }
    else
      return { st with
        stage := .needsRuleExpansion
        rules
        rulesLeft := rules
        recursive := rules.any fun r => s.rules.isRecursive r.1
        roundAdded := false }
  | .needsRuleExpansion =>
    match st.rulesLeft with
    | (id, u) :: rulesLeft =>
      let st := { st with rulesLeft }.emitAll (← applyRule resolve s st id u)
      Resolve.record st.query st.answers.answers
      return st
    | [] =>
      let round := st.round + 1
      if st.recursive ∧ st.roundAdded ∧ round < s.config.maxFixpointIterations then
        return { st with round, rulesLeft := st.rules, roundAdded := false }
      else return { st with round, stage := .resolvedByRule }
  | _ => return st

/-- The number of steps after which a stream is in a terminal stage or has failed. -/
def stepBound (s : Setting) : Nat :=
  2 + s.config.maxFixpointIterations * (s.rules.size + 1)

/-- The error of a transaction that is closed before a step. -/
def interrupted (st : AnswerStream) : InferenceError :=
  .transactionClosed ("transaction closed while resolving " ++ st.query.text)

/-- The next answer or error, after at most `n` steps; nothing at the end. -/
def nextWithin (resolve : Resolver) (s : Setting) :
    Nat → AnswerStream → Work (Option (Except InferenceError Answer) × AnswerStream)
  | n, st =>
    match st.pending with
    | a :: pending => return (some (.ok a), { st with pending })
    | [] =>
      if st.failed ∨ st.stage.isTerminal then return (none, st)
      else if ¬ s.transaction.isOpen then
        return (some (.error st.interrupted), { st with failed := true })
      else
        match n with
        | 0 => return (none, st)
        | n + 1 => do
          match ← (step resolve s st).run with
          | .ok st => nextWithin resolve s n st
          | .error e => return (some (.error e), { st with failed := true })

/-- The stream at its end or at its first error, after at most `n` steps. -/
def finishWithin (resolve : Resolver) (s : Setting) : Nat → AnswerStream → Resolve AnswerStream
  | n, st =>
    if st.failed ∨ st.stage.isTerminal then return st
    else if ¬ s.transaction.isOpen then throw st.interrupted
    else
      match n with
      | 0 => return st
      | n + 1 => do finishWithin resolve s n (← step resolve s st)

/-- Every answer of a stream, with all explanations. -/
def drainWith (resolve : Resolver) (s : Setting) (st : AnswerStream) : Resolve (List Answer) :=
  return (← finishWithin resolve s (stepBound s) st).answers.answers

/-- Every answer to a query on a path that can grow by `n` more queries. -/
def resolveWithin (s : Setting) : Nat → Resolver
  | 0, path, q => drainWith (fun _ _ => return []) s { query := q, path }
  | n + 1, path, q => drainWith (resolveWithin s n) s { query := q, path }

/-- The resolver for the rules that a stream applies. -/
def bodyResolver (s : Setting) (st : AnswerStream) : Resolver :=
  resolveWithin s (s.config.maxRecursionDepth - (st.path.length + 1))

/-- The next answer or error of a stream; nothing at its end. -/
def next (s : Setting) (st : AnswerStream) :
    Work (Option (Except InferenceError Answer) × AnswerStream) :=
  nextWithin (bodyResolver s st) s (stepBound s) st

/-- Every answer of a stream. -/
def drain (s : Setting) (st : AnswerStream) : Resolve (List Answer) :=
  drainWith (bodyResolver s st) s st

end AnswerStream

end GraphInference

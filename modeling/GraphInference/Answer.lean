import GraphInference.Query
import GraphInference.Rule

/-!
# Answers

An answer is a binding with the explanation of how it was found, and the alternative explanations
of the same binding. Explanations hold copies of the answers they were made from, so they form a
tree. A provenance key identifies a derivation whatever numbers its answers have.
-/

namespace GraphInference

/-- The rule of a derivation. -/
structure RuleRef where
  id : RuleId
  label : String
deriving DecidableEq, Inhabited

mutual

/-- How a binding was found. -/
inductive Explanation where
  | empty
  /-- In the graph. -/
  | lookup (query : QuerySnapshot)
  /-- By a rule, from an answer to each query of its body. -/
  | rule (rule : RuleRef) (query : QuerySnapshot) (answers : List Answer)
  /-- From an answer to each atomic query of a pattern. -/
  | join (answers : List Answer)

/-- A binding with its provenance. -/
inductive Answer where
  | mk (id : AnswerId) (binding : Binding) (explanation : Explanation)
    (alternatives : List Explanation)

end

instance : Inhabited Explanation := ⟨.empty⟩

instance : Inhabited Answer := ⟨.mk default default .empty []⟩

namespace Answer

def id : Answer → AnswerId
  | mk id _ _ _ => id

def binding : Answer → Binding
  | mk _ binding _ _ => binding

def explanation : Answer → Explanation
  | mk _ _ explanation _ => explanation

def alternatives : Answer → List Explanation
  | mk _ _ _ alternatives => alternatives

end Answer

/-! ## Equality -/

mutual

def Explanation.beq : Explanation → Explanation → Bool
  | .empty, .empty => true
  | .lookup q, .lookup q' => q = q'
  | .rule r q as, .rule r' q' as' => r = r' && q = q' && answersBEq as as'
  | .join as, .join as' => answersBEq as as'
  | _, _ => false

def Answer.beq : Answer → Answer → Bool
  | .mk i b e es, .mk i' b' e' es' => i = i' && b = b' && e.beq e' && explanationsBEq es es'

def answersBEq : List Answer → List Answer → Bool
  | [], [] => true
  | a :: as, b :: bs => a.beq b && answersBEq as bs
  | _, _ => false

def explanationsBEq : List Explanation → List Explanation → Bool
  | [], [] => true
  | e :: es, f :: fs => e.beq f && explanationsBEq es fs
  | _, _ => false

end

instance : BEq Explanation := ⟨Explanation.beq⟩

instance : BEq Answer := ⟨Answer.beq⟩

/-! ## Explanations -/

/-- The binding as a part of a key. -/
def Binding.key (b : Binding) : String :=
  " ".intercalate (b.entries.map fun (v, id) => v.text ++ "=" ++ id.text)

mutual

/-- The key of a derivation. -/
def Explanation.key : Explanation → String
  | .empty => "empty"
  | .lookup _ => "lookup"
  | .rule r _ answers => "rule:" ++ r.id.text ++ "[" ++ ",".intercalate (contributorKeys answers) ++ "]"
  | .join answers => "join[" ++ ",".intercalate (contributorKeys answers) ++ "]"

/-- The key of an answer that a derivation was made from. -/
def Answer.contributorKey : Answer → String
  | .mk _ b e _ => Binding.key b ++ "<" ++ e.key ++ ">"

def contributorKeys : List Answer → List String
  | [] => []
  | a :: rest => a.contributorKey :: contributorKeys rest

end

namespace Explanation

def isLookup : Explanation → Bool
  | lookup _ => true
  | _ => false

def isRule : Explanation → Bool
  | rule .. => true
  | _ => false

def query? : Explanation → Option QuerySnapshot
  | lookup q | rule _ q _ => some q
  | _ => none

def rule? : Explanation → Option RuleRef
  | rule r _ _ => some r
  | _ => none

/-- The answers that a derivation was made from, in order. -/
def answers : Explanation → List Answer
  | rule _ _ answers | join answers => answers
  | _ => []

def text : Explanation → String
  | empty => "empty"
  | lookup q => "lookup of " ++ q.pattern
  | rule r _ answers => "rule " ++ r.label ++ " from " ++ toString answers.length ++ " answers"
  | join answers => "join of " ++ toString answers.length ++ " answers"

end Explanation

mutual

/-- The relation queries of an explanation tree, each with whether a rule answered it. -/
def Explanation.relations : Explanation → List (QuerySnapshot × Bool)
  | .empty => []
  | .lookup q => if q.family = .relation then [(q, false)] else []
  | .rule _ q answers =>
    (if q.family = .relation then [(q, true)] else []) ++ relationsOfAll answers
  | .join answers => relationsOfAll answers

def Answer.relations : Answer → List (QuerySnapshot × Bool)
  | .mk _ _ e _ => e.relations

def relationsOfAll : List Answer → List (QuerySnapshot × Bool)
  | [] => []
  | a :: rest => a.relations ++ relationsOfAll rest

end

/-! ## Answers -/

namespace Answer

/-- A new answer without alternatives. -/
def make (b : Binding) (e : Explanation) : Fresh Answer :=
  return mk (← Fresh.answerId) b e []

/-- Every explanation, the first one first. -/
def explanations (a : Answer) : List Explanation :=
  a.explanation :: a.alternatives

def isInferred (a : Answer) : Bool :=
  a.explanation.isRule

/-- The answer with another binding. -/
def withBinding (a : Answer) (b : Binding) : Answer :=
  mk a.id b a.explanation a.alternatives

/-- The answer with nothing bound but variables of a list. -/
def project (a : Answer) (vars : List Var) : Answer :=
  a.withBinding (SortedMap.ofList (vars.filterMap fun v => (a.binding.find? v).map (v, ·)))

/-- The answer with its variables renamed. -/
def rename (a : Answer) (u : Unifier) : Answer :=
  a.withBinding (SortedMap.ofList (a.binding.entries.map fun (v, id) => (u.apply v, id)))

/-- The answer with one more explanation, unless it has one of that key. -/
def addExplanation (a : Answer) (e : Explanation) : Answer :=
  let key := e.key
  if a.explanations.any fun f => f.key = key then a
  else mk a.id a.binding a.explanation (a.alternatives ++ [e])

end Answer

/-! ## Joins -/

/-- Both bindings as one, if they agree wherever both bind. -/
def Binding.merge? (left right : Binding) : Option Binding :=
  right.entries.foldlM (fun b (v, id) =>
    match b.find? v with
    | some old => if old = id then some b else none
    | none => some (b.insert v id)) left

/-- A joined binding with the answers that it was joined from. -/
structure JoinRow where
  binding : Binding
  answers : List Answer

namespace JoinRow

/-- The row of no answers. -/
def empty : JoinRow :=
  ⟨.empty, []⟩

/-- The rows extended by the answers to one more query, as far as they agree. -/
def join (rows : List JoinRow) (answers : List Answer) : List JoinRow :=
  rows.flatMap fun row => answers.filterMap fun a =>
    (Binding.merge? row.binding a.binding).map fun b => ⟨b, row.answers ++ [a]⟩

end JoinRow

/-! ## Sets of answers -/

/-- Answers with one for each binding, in the order in which the bindings came. -/
structure AnswerSet where
  answers : List Answer := []

namespace AnswerSet

def get? (s : AnswerSet) (b : Binding) : Option Answer :=
  s.answers.find? fun a => a.binding = b

def contains (s : AnswerSet) (b : Binding) : Bool :=
  (s.get? b).isSome

/-- The set with an answer, and whether its binding is new. The explanations of a binding that is
not new become alternatives. -/
def insert (s : AnswerSet) (a : Answer) : Bool × AnswerSet :=
  if s.contains a.binding then
    (false, ⟨s.answers.map fun b =>
      if b.binding = a.binding then a.explanations.foldl Answer.addExplanation b else b⟩)
  else (true, ⟨s.answers ++ [a]⟩)

/-- The set of a list of answers. -/
def ofList (answers : List Answer) : AnswerSet :=
  answers.foldl (fun s a => (s.insert a).2) {}

end AnswerSet

end GraphInference

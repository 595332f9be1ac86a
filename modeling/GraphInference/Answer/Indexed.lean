import GraphInference.Answer

/-!
# Indexed sets of answers

A set of answers kept in a list, and beside it where in the list the answer of each binding stands. Answers
are changed in place and never removed, so a position stays right once it is written.
-/

namespace GraphInference

/-- Answers with one for each binding, in the order in which the bindings came, and their positions. -/
structure IndexedAnswerSet where
  answers : List Answer := []
  /-- Where the answer of a binding stands. -/
  index : SortedMap Binding Nat := .empty

namespace IndexedAnswerSet

def get? (s : IndexedAnswerSet) (b : Binding) : Option Answer :=
  (s.index.find? b).bind fun i => s.answers[i]?

def contains (s : IndexedAnswerSet) (b : Binding) : Bool :=
  s.index.contains b

/-- The set with an answer, and whether its binding is new. The explanations of a binding that is
not new become alternatives of the answer at its position. -/
def insert (s : IndexedAnswerSet) (a : Answer) : Bool × IndexedAnswerSet :=
  match s.index.find? a.binding with
  | some i => (false, { s with answers := s.answers.modify i (a.explanations.foldl Answer.addExplanation) })
  | none => (true, ⟨s.answers ++ [a], s.index.insert a.binding s.answers.length⟩)

/-- The set of a list of answers. -/
def ofList (answers : List Answer) : IndexedAnswerSet :=
  answers.foldl (fun s a => (s.insert a).2) {}

end IndexedAnswerSet

end GraphInference

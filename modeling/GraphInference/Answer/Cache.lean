import GraphInference.Answer

/-!
# Known answers

The answers to atomic queries, one set for each class of equivalent queries. They are kept in the
variables of the first query of the class and renamed on the way in and out.
-/

namespace GraphInference

/-- The answers of one class, in the variables of its first query. -/
structure AnswerClass where
  query : AtomicQuery
  answers : AnswerSet

/-- The answers that are known, class by class. -/
structure AnswerCache where
  classes : List AnswerClass := []

namespace AnswerCache

def class? (c : AnswerCache) (q : AtomicQuery) : Option AnswerClass :=
  c.classes.find? fun e => e.query.isEquivalent q

def contains (c : AnswerCache) (q : AtomicQuery) : Bool :=
  (c.class? q).isSome

def size (c : AnswerCache) : Nat :=
  c.classes.length

/-- The set with renamed answers, and how many of their bindings are new. -/
def insertRenamed (u : Unifier) (s : AnswerSet) (answers : List Answer) : Nat × AnswerSet :=
  answers.foldl (fun (n, s) a =>
    let (isNew, s) := s.insert (a.rename u)
    (if isNew then n + 1 else n, s)) (0, s)

/-- The class with answers to a query of it, and how many of their bindings are new; answers that
cannot be renamed are left out. -/
def recordIn (e : AnswerClass) (q : AtomicQuery) (answers : List Answer) : Nat × AnswerClass :=
  match q.unifier e.query with
  | .error _ => (0, e)
  | .ok u =>
    let (n, s) := insertRenamed u e.answers answers
    (n, { e with answers := s })

/-- The classes with answers recorded in the first that has an equivalent query, or in a new one. -/
def recordAmong (q : AtomicQuery) (answers : List Answer) :
    List AnswerClass → Nat × List AnswerClass
  | [] =>
    let (n, e) := recordIn ⟨q, {}⟩ q answers
    (n, [e])
  | e :: rest =>
    if e.query.isEquivalent q then
      let (n, e) := recordIn e q answers
      (n, e :: rest)
    else
      let (n, rest) := recordAmong q answers rest
      (n, e :: rest)

/-- Adds answers to the class of a query; also gives how many of their bindings are new there. -/
def record (c : AnswerCache) (q : AtomicQuery) (answers : List Answer) : Nat × AnswerCache :=
  let (n, classes) := recordAmong q answers c.classes
  (n, ⟨classes⟩)

/-- The known answers of a query's class in the query's variables. -/
def get? (c : AnswerCache) (q : AtomicQuery) : Option (List Answer) := do
  let e ← c.class? q
  let u ← (q.unifier e.query).toOption
  let inverse ← u.inverse.toOption
  return e.answers.answers.map (·.rename inverse)

end AnswerCache

end GraphInference

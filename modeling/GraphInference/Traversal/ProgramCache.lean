import GraphInference.Traversal.Planner

/-!
# Kept programs

A planner keeps the programs of the conjunctions it planned last, under their text.
-/

namespace GraphInference

/-- Programs kept by the text of their patterns, the least recently used one last, and how often
one was found and was not. -/
structure ProgramCache where
  capacity : Nat
  entries : List (String × Program) := []
  hits : Nat := 0
  misses : Nat := 0

namespace ProgramCache

/-- A cache without programs, for at least one. -/
def ofCapacity (n : Nat) : ProgramCache :=
  { capacity := max n 1 }

/-- The program under a key, which is now the most recently used one. -/
def get (c : ProgramCache) (key : String) : Option Program × ProgramCache :=
  match c.entries.find? (·.1 = key) with
  | some e =>
    (some e.2, { c with
      entries := e :: c.entries.filter (·.1 ≠ key)
      hits := c.hits + 1 })
  | none => (none, { c with misses := c.misses + 1 })

/-- The cache with a program under a key, in place of any before, and of the least recently used
one if there is no room. -/
def insert (c : ProgramCache) (key : String) (p : Program) : ProgramCache :=
  { c with entries := ((key, p) :: c.entries.filter (·.1 ≠ key)).take c.capacity }

def clear (c : ProgramCache) : ProgramCache :=
  { c with entries := [] }

def size (c : ProgramCache) : Nat :=
  c.entries.length

/-- The program for a conjunction, found under its text or else planned and kept. -/
def plan (c : Conjunction) (cache : ProgramCache) :
    Fresh (Except InferenceError Program × ProgramCache) := do
  match cache.get c.text with
  | (some p, cache) => return (.ok p, cache)
  | (none, cache) =>
    match ← (Planner.planWithBound c .empty).run with
    | .ok p => return (.ok p, cache.insert c.text p)
    | .error e => return (.error e, cache)

end ProgramCache

end GraphInference

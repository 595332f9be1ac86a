/-!
# Variables

User-defined variables appear in answers; system variables do not. A supply hands out system
variables, query numbers and answer numbers that were not handed out before.
-/

namespace GraphInference

/-- A query variable. The empty name stands for an absent variable. -/
structure Var where
  name : String
  userDefined : Bool
deriving DecidableEq, Inhabited

/-- Variables are ordered by name, then system before user-defined. -/
instance : Ord Var :=
  ⟨compareLex (compareOn Var.name) (compareOn Var.userDefined)⟩

instance : Std.TransOrd Var :=
  inferInstanceAs (Std.TransCmp (compareLex (compareOn Var.name) (compareOn Var.userDefined)))

instance : Std.LawfulEqOrd Var where
  compare_self {a} := @Std.ReflCmp.compare_self Var
    (compareLex (compareOn Var.name) (compareOn Var.userDefined)) _ a
  eq_of_compare {a b} h := by
    have h : compareLex (compareOn Var.name) (compareOn Var.userDefined) a b = .eq := h
    rw [compareLex_eq_eq] at h
    cases a; cases b
    exact Var.mk.injEq .. ▸ ⟨Std.LawfulEqCmp.eq_of_compare h.1, Std.LawfulEqCmp.eq_of_compare h.2⟩

namespace Var

/-- A name without the dollar sign that may lead it. -/
def bareName (name : String) : String :=
  match name.toList with
  | '$' :: cs => String.ofList cs
  | _ => name

/-- A user-defined variable. -/
def named (name : String) : Var :=
  ⟨bareName name, true⟩

/-- The absent variable. -/
def empty : Var :=
  ⟨"", false⟩

/-- The variable that a name in a pattern stands for: a leading underscore makes it a system
variable. -/
def ofName (name : String) : Var :=
  let bare := bareName name
  ⟨bare, bare ≠ "" ∧ bare.toList.head? ≠ some '_'⟩

def isEmpty (v : Var) : Bool :=
  v.name = ""

/-- The variable in a pattern; nothing for the absent one. -/
def text (v : Var) : String :=
  if v.isEmpty then "" else "$" ++ v.name

/-- The name of the `k`-th generated variable: an underscore and at least thirty-two digits in base
sixteen. -/
def generatedName (k : Nat) : String :=
  let digits := Nat.toDigits 16 k
  String.ofList ('_' :: List.replicate (32 - digits.length) '0' ++ digits)

/-- The `k`-th generated variable. -/
def generated (k : Nat) : Var :=
  ⟨generatedName k, false⟩

end Var

/-- The number of a query. -/
structure QueryId where
  number : Nat
deriving DecidableEq, Inhabited

/-- The number of an answer. -/
structure AnswerId where
  number : Nat
deriving DecidableEq, Inhabited

/-- How many variables, queries and answers have been numbered. -/
structure Supply where
  vars : Nat := 0
  queries : Nat := 0
  answers : Nat := 0
deriving DecidableEq, Inhabited

/-- A computation that draws from the supply. -/
abbrev Fresh := StateM Supply

namespace Fresh

/-- A system variable that was not generated before. -/
def var : Fresh Var :=
  modifyGet fun s => (.generated s.vars, { s with vars := s.vars + 1 })

def queryId : Fresh QueryId :=
  modifyGet fun s => (⟨s.queries + 1⟩, { s with queries := s.queries + 1 })

def answerId : Fresh AnswerId :=
  modifyGet fun s => (⟨s.answers + 1⟩, { s with answers := s.answers + 1 })

end Fresh

end GraphInference

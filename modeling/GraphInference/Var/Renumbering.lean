import GraphInference.Var

/-!
# Texts up to generated names

All that a generated name says is which of its uses belong together. Renumbering replaces each by
its place in the order in which the names appear, so that texts which differ in generated names
only become equal.
-/

namespace GraphInference

/-- A computation over the generated names met so far, the first one first. -/
abbrev Renumbering := StateM (Array String)

namespace Renumbering

/-- The digits of the generated name that a text starts with. -/
def generatedDigits? : List Char → Option String
  | '_' :: cs =>
    let digits := cs.take 32
    let isDigit (c : Char) : Bool := c.isDigit || ('a' ≤ c && c ≤ 'f')
    if digits.length = 32 && digits.all isDigit then some (String.ofList digits) else none
  | _ => none

/-- The place of a name among those met so far. -/
def number (name : String) : Renumbering Nat :=
  modifyGet fun names =>
    match names.findIdx? (· == name) with
    | some k => (k, names)
    | none => (names.size, names.push name)

/-- Renumbers after the next `skip` characters, onto the text `done` in reverse. -/
def onto (done : List Char) : (skip : Nat) → List Char → Renumbering (List Char)
  | _, [] => return done.reverse
  | skip + 1, _ :: cs => onto done skip cs
  | 0, c :: cs => do
    match generatedDigits? (c :: cs) with
    | none => onto (c :: done) 0 cs
    | some digits =>
      let k ← number digits
      onto ((Nat.toDigits 10 k).reverse ++ ('#' :: '_' :: done)) 32 cs

/-- The text with each generated name as `_#k`, its place. -/
def text (s : String) : Renumbering String := do
  return String.ofList (← onto [] 0 s.toList)

end Renumbering

end GraphInference

import GraphInference.Text.Blank

/-!
# Reading from the start of a text

A scanner takes a text and gives what it read with the rest, or nothing. Here are the scanners for
words, runs of characters and optional or separated parts.
-/

namespace GraphInference.Text

/-- A reader of the start of a text. -/
abbrev Scanner (α : Type) := List Char → Option (α × List Char)

/-- The text after a word that it starts with. -/
def afterWord? (word cs : List Char) : Option (List Char) :=
  if word.isPrefixOf cs then some (cs.drop word.length) else none

/-- Reads one or more characters of a class. -/
def scanRun (p : Char → Bool) : Scanner (List Char) := fun cs =>
  let run := cs.takeWhile p
  if run.isEmpty then none else some (run, cs.dropWhile p)

/-- Skips one or more blanks. -/
def someBlanks? (cs : List Char) : Option (List Char) :=
  (scanRun isBlank cs).map (·.2)

/-- Reads with blanks on either side. -/
def padded {α : Type} (s : Scanner α) : Scanner α := fun cs =>
  (s (skipBlanks cs)).map fun (a, r) => (a, skipBlanks r)

/-- Skips a character with blanks on either side. -/
def afterMark? (mark : Char) (cs : List Char) : Option (List Char) :=
  match skipBlanks cs with
  | c :: r => if c = mark then some (skipBlanks r) else none
  | [] => none

/-- Reads if it can, and otherwise nothing from the same place. -/
def optional {α : Type} (s : Scanner α) (cs : List Char) : Option α × List Char :=
  match s cs with
  | some (a, r) => (some a, r)
  | none => (none, cs)

/-- Reads by the first scanner, or else by the second from the same place. -/
def either {α : Type} (s t : Scanner α) : Scanner α := fun cs =>
  (s cs).or (t cs)

/-- Reads up to `n` parts, each after a comma; a comma without a part is left in place. -/
def scanFollowers {α : Type} (s : Scanner α) : Nat → List Char → List α × List Char
  | 0, cs => ([], cs)
  | n + 1, cs =>
    match (afterMark? ',' cs).bind s with
    | none => ([], cs)
    | some (a, r) =>
      let (rest, r) := scanFollowers s n r
      (a :: rest, r)

/-- Reads one or more parts with commas between them. -/
def scanSeparated {α : Type} (s : Scanner α) : Scanner (List α) := fun cs =>
  (s cs).map fun (a, r) =>
    let (rest, r) := scanFollowers s r.length r
    (a :: rest, r)

end GraphInference.Text

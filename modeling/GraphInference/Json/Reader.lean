import GraphInference.Json.Number
import GraphInference.Text.Scan

/-!
# Reading JSON

`Json.ofText?` reads one document with nothing but blanks around it. Each reader takes the text at
its start and gives what it read with the rest of the text.
-/

namespace GraphInference.Json

open Text

/-! ## Strings -/

/-- The value of four hexadecimal digits. -/
def hexValue? (cs : List Char) : Option Nat :=
  cs.foldlM (fun n c =>
    if c.isDigit then some (n * 16 + (c.toNat - '0'.toNat))
    else if 'a' ≤ c ∧ c ≤ 'f' then some (n * 16 + 10 + (c.toNat - 'a'.toNat))
    else if 'A' ≤ c ∧ c ≤ 'F' then some (n * 16 + 10 + (c.toNat - 'A'.toNat))
    else none) 0

/-- The character of a one-letter escape. -/
def escape? (c : Char) : Option Char :=
  match c with
  | '"' => some '"'
  | '\\' => some '\\'
  | '/' => some '/'
  | 'b' => some '\x08'
  | 'f' => some '\x0c'
  | 'n' => some '\n'
  | 'r' => some '\r'
  | 't' => some '\t'
  | _ => none

/-- Reads the inside of a string up to its closing quote, as code points and surrogate halves. -/
def readUnits : List Char → Option (List Nat × List Char)
  | [] => none
  | '"' :: r => some ([], r)
  | '\\' :: 'u' :: a :: b :: c :: d :: r =>
    (hexValue? [a, b, c, d]).bind fun n => (readUnits r).map fun (us, r) => (n :: us, r)
  | '\\' :: c :: r =>
    (escape? c).bind fun e => (readUnits r).map fun (us, r) => (e.toNat :: us, r)
  | c :: r =>
    if c.toNat < 0x20 then none else (readUnits r).map fun (us, r) => (c.toNat :: us, r)

def isHighHalf (n : Nat) : Bool := 0xd800 ≤ n && n < 0xdc00

def isLowHalf (n : Nat) : Bool := 0xdc00 ≤ n && n < 0xe000

/-- The characters of code points and surrogate halves, each high half joined to the low half after
it; none if a half is left over. -/
def joinHalves? : List Nat → Option (List Char)
  | [] => some []
  | [n] => if isHighHalf n || isLowHalf n then none else some [Char.ofNat n]
  | n :: m :: rest =>
    if isHighHalf n then
      if isLowHalf m then
        (joinHalves? rest).map (Char.ofNat (0x10000 + (n - 0xd800) * 0x400 + (m - 0xdc00)) :: ·)
      else none
    else if isLowHalf n then none
    else (joinHalves? (m :: rest)).map (Char.ofNat n :: ·)

/-- Reads a string after its opening quote; none inside for a string with a lone half. -/
def readString (cs : List Char) : Option (Option String × List Char) :=
  (readUnits cs).map fun (units, r) => ((joinHalves? units).map String.ofList, r)

/-! ## Numbers -/

/-- Reads the digits before the point: a lone zero, or digits that start with no zero. -/
def readWhole (cs : List Char) : Option (List Char × List Char) :=
  match cs with
  | '0' :: r => some (['0'], r)
  | r =>
    let digits := r.takeWhile Char.isDigit
    if digits.isEmpty then none else some (digits, r.dropWhile Char.isDigit)

/-- Reads at least one digit. -/
def readDigits (cs : List Char) : Option (List Char × List Char) :=
  let digits := cs.takeWhile Char.isDigit
  if digits.isEmpty then none else some (digits, cs.dropWhile Char.isDigit)

def readFraction (cs : List Char) : Option (Option (List Char) × List Char) :=
  match cs with
  | '.' :: r => (readDigits r).map fun (ds, r) => (some ds, r)
  | r => some (none, r)

def readExponent (cs : List Char) : Option (Option (Bool × List Char) × List Char) :=
  match cs with
  | c :: r =>
    if c = 'e' ∨ c = 'E' then
      let (negative, r) := match r with
        | '-' :: r => (true, r)
        | '+' :: r => (false, r)
        | r => (false, r)
      (readDigits r).map fun (ds, r) => (some (negative, ds), r)
    else some (none, cs)
  | [] => some (none, [])

/-- Reads a number. -/
def readNumber (cs : List Char) : Option (Json × List Char) := do
  let (negative, r) := match cs with
    | '-' :: r => (true, r)
    | r => (false, r)
  let (whole, r) ← readWhole r
  let (fraction, r) ← readFraction r
  let (exponent, r) ← readExponent r
  some ((NumberSpelling.mk negative whole fraction exponent).value, r)

/-! ## Documents -/

mutual

/-- Reads a value, brackets nested at most half of `fuel` deep. -/
def readValue : Nat → List Char → Option (Json × List Char)
  | 0, _ => none
  | fuel + 1, cs =>
    match skipBlanks cs with
    | [] => none
    | '[' :: r =>
      match skipBlanks r with
      | ']' :: r => some (.array [], r)
      | r => (readItems fuel r).map fun (items, r) => (.array items, r)
    | '\x7b' :: r =>
      match skipBlanks r with
      | '\x7d' :: r => some (.object [], r)
      | r => (readFields fuel r).map fun (fields, r) => (.object fields, r)
    | '"' :: r => (readString r).map fun (s, r) => (s.elim .unreadable .string, r)
    | 't' :: r => (afterWord? ['r', 'u', 'e'] r).map fun r => (.bool true, r)
    | 'f' :: r => (afterWord? ['a', 'l', 's', 'e'] r).map fun r => (.bool false, r)
    | 'n' :: r => (afterWord? ['u', 'l', 'l'] r).map fun r => (.null, r)
    | r => readNumber r

/-- Reads the items of an array up to its closing bracket. -/
def readItems : Nat → List Char → Option (List Json × List Char)
  | 0, _ => none
  | fuel + 1, cs =>
    (readValue fuel cs).bind fun (v, r) =>
      match skipBlanks r with
      | ',' :: r => (readItems fuel r).map fun (vs, r) => (v :: vs, r)
      | ']' :: r => some ([v], r)
      | _ => none

/-- Reads the fields of an object up to its closing brace. -/
def readFields : Nat → List Char → Option (List (String × Json) × List Char)
  | 0, _ => none
  | fuel + 1, cs =>
    match skipBlanks cs with
    | '"' :: r =>
      (readString r).bind fun (name?, r) => name?.bind fun name =>
        match skipBlanks r with
        | ':' :: r =>
          (readValue fuel r).bind fun (v, r) =>
            match skipBlanks r with
            | ',' :: r => (readFields fuel r).map fun (fs, r) => ((name, v) :: fs, r)
            | '\x7d' :: r => some ([(name, v)], r)
            | _ => none
        | _ => none
    | _ => none

end

/-- The document that a text holds. -/
def ofText? (text : String) : Option Json :=
  let cs := text.toList
  (readValue (2 * cs.length + 2) cs).bind fun (v, r) =>
    if (skipBlanks r).isEmpty then some v else none

end GraphInference.Json

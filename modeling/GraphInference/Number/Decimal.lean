import GraphInference.Number.Double

/-!
# Decimal notation of doubles

Reading: a decimal is the double nearest to its value. Writing: a finite number is written in
positional notation with the fewest significant digits that read back as it, the nearest such
decimal, of two equally near ones the greater; whole numbers have no point.
-/

namespace GraphInference.Double

/-! ## Reading -/

/-- The value of decimal digits. -/
def digitsValue (cs : List Char) : Nat :=
  cs.foldl (fun n c => n * 10 + (c.toNat - '0'.toNat)) 0

/-- The number of decimal digits; zero has none. -/
def decimalLength (n : Nat) : Nat :=
  if n = 0 then 0 else (Nat.toDigits 10 n).length

/-- The magnitude nearest to `m · 10^e`. -/
def roundDecimal (m : Nat) (e : Int) : Nat :=
  if m = 0 then 0
  else if decimalLength m + e > 400 then infinityBits
  else if decimalLength m + e < -400 then 0
  else if e ≥ 0 then roundRatio (m * Nat.pow 10 e.toNat) 1
  else roundRatio m (Nat.pow 10 (-e).toNat)

/-- A decimal number: digits with or without a point, and a power of ten. -/
structure Decimal where
  whole : List Char
  fraction : List Char
  exponent : Int

/-- The magnitude that a decimal names. -/
def Decimal.magnitude (d : Decimal) : Nat :=
  roundDecimal (digitsValue (d.whole ++ d.fraction)) (d.exponent - d.fraction.length)

/-- Reads an exponent part or nothing. -/
def readExponent : List Char → Option Int
  | [] => some 0
  | c :: cs =>
    if c = 'e' ∨ c = 'E' then
      let (negative, digits) := match cs with
        | '-' :: r => (true, r)
        | '+' :: r => (false, r)
        | r => (false, r)
      if digits.isEmpty ∨ !digits.all Char.isDigit then none
      else
        let n := digitsValue digits
        some (if negative then -(n : Int) else n)
    else none

/-- Reads digits with an optional point and exponent; a digit must stand beside the point. -/
def readUnsigned (cs : List Char) : Option Decimal :=
  let whole := cs.takeWhile Char.isDigit
  let rest := cs.dropWhile Char.isDigit
  let (fraction, rest) := match rest with
    | '.' :: r => (r.takeWhile Char.isDigit, r.dropWhile Char.isDigit)
    | r => ([], r)
  if whole.isEmpty ∧ fraction.isEmpty then none
  else (readExponent rest).map fun e => ⟨whole, fraction, e⟩

/-- Reads a number: a sign or none, then a decimal, an infinity or a NaN in any case. -/
def ofText? (cs : List Char) : Option Double :=
  let (negative, body) := match cs with
    | '-' :: r => (true, r)
    | '+' :: r => (false, r)
    | r => (false, r)
  match readUnsigned body with
  | some d => some (ofMagnitude negative d.magnitude)
  | none =>
    let word := String.ofList (body.map Char.toLower)
    if word = "nan" then some (ofMagnitude negative nan.magnitude)
    else if word = "inf" ∨ word = "infinity" then some (infinity negative)
    else none

/-! ## Writing -/

/-- The number of decimal places before the point: `10^(p-1) ≤ num/den < 10^p`. -/
def decimalPlaces (num den : Nat) : Int :=
  if den ≤ num then decimalLength (num / den)
  else 1 - (decimalLength ((den + num - 1) / num - 1) : Int)

/-- The decimals next to `num / den` on the grid of step `10^k`, from below and from above. -/
def neighbours (num den : Nat) (k : Int) : Nat × Nat :=
  let (n, d) := if k ≥ 0 then (num, den * Nat.pow 10 k.toNat) else (num * Nat.pow 10 (-k).toNat, den)
  (n / d, (n + d - 1) / d)

/-- Whether `num / den` lies nearer to `low` than to `high` on the grid of step `10^k`. -/
def nearerLow (num den low high : Nat) (k : Int) : Bool :=
  let (n, d) := if k ≥ 0 then (num, den * Nat.pow 10 k.toNat) else (num * Nat.pow 10 (-k).toNat, den)
  2 * n < (low + high) * d

/-- The decimal of step `10^k` that reads back as `magnitude`, if the grid has one. -/
def gridDecimal? (magnitude num den : Nat) (k : Int) : Option Nat :=
  let (low, high) := neighbours num den k
  let lowReads := roundDecimal low k = magnitude
  let highReads := roundDecimal high k = magnitude
  if lowReads ∧ highReads then some (if nearerLow num den low high k then low else high)
  else if lowReads then some low
  else if highReads then some high
  else none

/-- The first grid, from `n` digits on, that holds a decimal reading back as `magnitude`. -/
def shortestFrom (magnitude num den : Nat) (places : Int) : Nat → Nat → Nat × Int
  | n, 0 => ((neighbours num den (places - n)).1, places - n)
  | n, more + 1 =>
    match gridDecimal? magnitude num den (places - n) with
    | some m => (m, places - n)
    | none => shortestFrom magnitude num den places (n + 1) more

/-- The decimal `m · 10^k` of a nonzero finite magnitude, `m` no multiple of ten. -/
def shortest (magnitude : Nat) : Nat × Int :=
  let (num, den) := ratio magnitude
  let (m, k) := shortestFrom magnitude num den (decimalPlaces num den) 1 17
  -- a number just below a power of ten is found as ten steps of the grid below it
  if m % 10 = 0 then (m / 10, k + 1) else (m, k)

/-- `m · 10^k` in positional notation. -/
def positional (m : Nat) (k : Int) : List Char :=
  let digits := Nat.toDigits 10 m
  if k ≥ 0 then digits ++ List.replicate k.toNat '0'
  else
    let places := (-k).toNat
    let padded := List.replicate (places + 1 - digits.length) '0' ++ digits
    padded.take (padded.length - places) ++ '.' :: padded.drop (padded.length - places)

/-- The text of a number. -/
def text (d : Double) : String :=
  if d.isNaN then "NaN"
  else
    let body :=
      if d.isInfinite then ['i', 'n', 'f']
      else if d.magnitude = 0 then ['0']
      else
        let (m, k) := shortest d.magnitude
        positional m k
    String.ofList (if d.isNegative then '-' :: body else body)

end GraphInference.Double

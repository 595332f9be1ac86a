import GraphInference.Json.Basic

/-!
# The value of a JSON number

An integer in range is exact. Any other number is a double found in two roundings: the leading
digits that fit 64 bits are rounded first, and the result is then multiplied or divided by a power
of ten.
-/

namespace GraphInference

/-- The spelling of a JSON number: digits before the point, after it, and a signed exponent. -/
structure NumberSpelling where
  negative : Bool
  whole : List Char
  fraction : Option (List Char)
  exponent : Option (Bool × List Char)

namespace NumberSpelling

/-- The digits that fit 64 bits, appended to `n`, and those from the first on that does not. -/
def leading (n : Nat) : List Char → Nat × List Char
  | [] => (n, [])
  | c :: cs =>
    let m := n * 10 + (c.toNat - '0'.toNat)
    if m < UInt64.size then leading m cs else (n, c :: cs)

/-- The double nearest to `10^k`. -/
def powerOfTen (k : Nat) : Double :=
  .ofMagnitude false (Double.roundDecimal 1 k)

/-- `f` divided by `10^k`, by at most 308 powers at a time. -/
def divPower (f : Double) (k : Nat) : Double :=
  if k ≤ 308 then f.div (powerOfTen k)
  else if f.magnitude = 0 then f
  else divPower (f.div (powerOfTen 308)) (k - 308)
termination_by k

/-- `significand · 10^e` in two roundings; none beyond the finite range. -/
def scaleByTen? (significand : Nat) (e : Int) : Option Double :=
  let f := Double.ofInt significand
  if e < 0 then some (divPower f (-e).toNat)
  else if e ≤ 308 then
    let r := f.mul (powerOfTen e.toNat)
    if r.isInfinite then none else some r
  else if significand = 0 then some f
  else none

/-- The greatest exponent that is not taken for infinite. -/
def maxExponent : Nat := 0x7fffffff

/-- The number as a double. -/
def double? (s : NumberSpelling) : Option Double :=
  let (n, dropped) := leading 0 s.whole
  let fraction := s.fraction.getD []
  let (significand, ignored) := leading n fraction
  let shift : Int := dropped.length - (fraction.length - ignored.length : Nat)
  let scaled? : Option Double :=
    match s.exponent with
    | none => scaleByTen? significand shift
    | some (negative, digits) =>
      let e := Double.digitsValue digits
      if maxExponent < e then
        if significand ≠ 0 ∧ ¬ negative then none else some (.ofMagnitude false 0)
      else scaleByTen? significand (if negative then shift - e else shift + e)
  scaled?.map fun d => if s.negative then d.negate else d

/-- The number that the spelling names. -/
def value (s : NumberSpelling) : Json :=
  let integer? : Option JsonNumber :=
    if s.fraction.isSome ∨ s.exponent.isSome then none
    else
      let n := Double.digitsValue s.whole
      if ¬ s.negative then if n < UInt64.size then some (.natural n) else none
      else if n = 0 ∨ -(n : Int) < Int64.minValue.toInt then none
      else some (.negative (-n))
  match integer? with
  | some n => .number n
  | none =>
    match s.double? with
    | some d => .number (.double d)
    | none => .unreadable

end NumberSpelling

end GraphInference

/-!
# Double-precision numbers

A double is its 64 bits, so that equality is equality of bits and NaN equals itself. A finite
magnitude is `m · 2^q`; `roundRatio` is the other way, from a quotient of naturals to the nearest
magnitude. The order is the numeric one: zeros of both signs are equal, NaN has no place.
-/

namespace GraphInference

/-- A double-precision number: a sign, eleven exponent bits, fifty-two fraction bits. -/
structure Double where
  bits : UInt64
deriving DecidableEq, Inhabited

namespace Double

/-- The bits of positive infinity; above them are the NaNs. -/
def infinityBits : Nat := 0x7ff0000000000000

/-- The number of magnitudes with one exponent, `2^52`. -/
def span : Nat := 0x10000000000000

/-- The bit that makes a number negative. -/
def signBit : Nat := 0x8000000000000000

/-- The number with a given sign and given bits below the sign. -/
def ofMagnitude (negative : Bool) (magnitude : Nat) : Double :=
  ⟨UInt64.ofNat (if negative then signBit + magnitude else magnitude)⟩

/-- Whether the sign bit is set. -/
def isNegative (d : Double) : Bool :=
  signBit ≤ d.bits.toNat

/-- The bits below the sign. -/
def magnitude (d : Double) : Nat :=
  d.bits.toNat % signBit

def isNaN (d : Double) : Bool :=
  infinityBits < d.magnitude

def isInfinite (d : Double) : Bool :=
  d.magnitude = infinityBits

def nan : Double := ofMagnitude false (infinityBits + span / 2)

def infinity (negative : Bool) : Double := ofMagnitude negative infinityBits

/-- The number with its sign changed. -/
def negate (d : Double) : Double :=
  ofMagnitude (!d.isNegative) d.magnitude

/-- `(m, e)` for a finite magnitude of value `m · 2^(e - 1074)`. -/
def scaled (magnitude : Nat) : Nat × Nat :=
  let e := magnitude / span
  if e = 0 then (magnitude, 0) else (magnitude % span + span, e - 1)

/-- A finite magnitude as a quotient. -/
def ratio (magnitude : Nat) : Nat × Nat :=
  let (m, e) := scaled magnitude
  if e ≤ 1074 then (m, 1 <<< (1074 - e)) else (m <<< (e - 1074), 1)

/-- The number of binary digits. -/
def bitLength (n : Nat) : Nat :=
  if n = 0 then 0 else n.log2 + 1

/-- The quotient rounded to the nearest natural, a half to the even one. -/
def roundHalfEven (num den : Nat) : Nat :=
  let s := num / den
  let r := num % den
  if 2 * r > den ∨ 2 * r = den ∧ s % 2 = 1 then s + 1 else s

/-- The magnitude nearest to `num / den`, ties to the even one; infinity when none is near. -/
def roundRatio (num den : Nat) : Nat :=
  if num = 0 then 0 else
  let width := (bitLength num : Int) - bitLength den
  -- the least scale at which the quotient has at most fifty-three digits before the point
  let least : Int := width - 53
  let fits : Bool :=
    if least ≥ 0 then num < den <<< (least.toNat + 53)
    else num <<< (-least).toNat < den <<< 53
  let q : Int := max (if fits then least else least + 1) (-1074)
  let s := if q ≥ 0 then roundHalfEven num (den <<< q.toNat)
    else roundHalfEven (num <<< (-q).toNat) den
  min ((q + 1074).toNat * span + s) infinityBits

/-- The number nearest to an integer. -/
def ofInt (n : Int) : Double :=
  ofMagnitude (n < 0) (roundRatio n.natAbs 1)

/-- The number nearest to the product; both factors are finite. -/
def mul (a b : Double) : Double :=
  let (m, d) := ratio a.magnitude
  let (n, e) := ratio b.magnitude
  ofMagnitude (a.isNegative != b.isNegative) (roundRatio (m * n) (d * e))

/-- The number nearest to the quotient; both are finite and the divisor is not zero. -/
def div (a b : Double) : Double :=
  let (m, d) := ratio a.magnitude
  let (n, e) := ratio b.magnitude
  ofMagnitude (a.isNegative != b.isNegative) (roundRatio (m * e) (d * n))

/-- The place of a number on the line: negatives below zero, both zeros at it. -/
def rank (d : Double) : Int :=
  if d.isNegative then -(d.magnitude : Int) else d.magnitude

/-- The numeric order; a NaN compares with nothing. -/
def compare? (a b : Double) : Option Ordering :=
  if a.isNaN || b.isNaN then none else some (compare a.rank b.rank)

end Double

end GraphInference

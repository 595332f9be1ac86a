/-!
# Ranges of code points

A character property is held as the ranges of code points that have it.
-/

namespace GraphInference.Text

/-- Whether a range holds `n`, both ends counted. -/
def inRanges (ranges : List (Nat × Nat)) (n : Nat) : Bool :=
  ranges.any fun r => r.1 ≤ n && n ≤ r.2

theorem inRanges_iff {ranges : List (Nat × Nat)} {n : Nat} :
    inRanges ranges n ↔ ∃ r ∈ ranges, r.1 ≤ n ∧ n ≤ r.2 := by
  simp [inRanges]

end GraphInference.Text

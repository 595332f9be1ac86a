import GraphInference.Value
import GraphInference.Json.Reader

/-!
# Values in JSON

A JSON string, number or truth value stands for itself: an integer that fits 64 signed bits is a
long, any other number a double.
-/

namespace GraphInference.Value

/-- The value that a JSON leaf stands for. -/
def ofJson? : Json → Option Value
  | .string s => some (.string s)
  | .bool b => some (.boolean b)
  | .number (.natural n) =>
    some (if (n : Int) ≤ Int64.maxValue.toInt then .long (Int64.ofInt n) else .double (Double.ofInt n))
  | .number (.negative n) => some (.long (Int64.ofInt n))
  | .number (.double d) => some (.double d)
  | _ => none

/-- The value that a JSON text stands for. -/
def ofJsonText? (text : String) : Option Value :=
  (Json.ofText? text).bind ofJson?

end GraphInference.Value

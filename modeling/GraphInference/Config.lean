import GraphInference.Error
import GraphInference.Json.Printer
import GraphInference.Json.Reader

/-!
# Configuration

The bounds and policies of resolution. A configuration is read from a JSON object, where a missing
field takes its default and an unknown one is passed over, or from an array of the fields in order.
-/

namespace GraphInference

/-- How looking up and applying rules combine. -/
inductive LookupPolicy where
  /-- Rules are always applied. -/
  | openWorld
  /-- Rules are applied only where looking up found nothing. -/
  | closedWorld
deriving DecidableEq, Inhabited

/-- The bounds and policies of resolution. -/
structure Config where
  /-- How many queries may be under expansion at once. -/
  maxRecursionDepth : Nat := 16
  /-- How often the rules of one query are applied in turn. -/
  maxFixpointIterations : Nat := 32
  lookupPolicy : LookupPolicy := .openWorld
  /-- How many programs the planner keeps. -/
  planCacheCapacity : Nat := 256
  /-- Whether rules are applied at all. -/
  reasoningEnabled : Bool := true
deriving DecidableEq, Inhabited

namespace LookupPolicy

def name : LookupPolicy → String
  | .openWorld => "open_world"
  | .closedWorld => "closed_world"

def ofName? (name : String) : Option LookupPolicy :=
  [openWorld, closedWorld].find? (·.name = name)

/-- A policy is written as its name, or as an object with the name as its only field and nothing
in it. -/
def ofJson? : Json → Option LookupPolicy
  | .string s => ofName? s
  | .object [(s, .null)] => ofName? s
  | _ => none

end LookupPolicy

namespace Config

/-- The configuration, if none of its bounds is zero. -/
def validate (c : Config) : Except InferenceError Config :=
  if c.maxRecursionDepth = 0 then
    .error (.config "max_recursion_depth must be greater than zero")
  else if c.maxFixpointIterations = 0 then
    .error (.config "max_fixpoint_iterations must be greater than zero")
  else if c.planCacheCapacity = 0 then
    .error (.config "plan_cache_capacity must be greater than zero")
  else .ok c

/-- The names of the fields, in order. -/
def fieldNames : List String :=
  ["max_recursion_depth", "max_fixpoint_iterations", "lookup_policy", "plan_cache_capacity",
    "reasoning_enabled"]

/-- The configuration with one field read; unchanged by a name that is no field's. -/
def setField? (c : Config) (name : String) (v : Json) : Option Config :=
  match name with
  | "max_recursion_depth" => v.natural?.map fun n => { c with maxRecursionDepth := n }
  | "max_fixpoint_iterations" => v.natural?.map fun n => { c with maxFixpointIterations := n }
  | "lookup_policy" => (LookupPolicy.ofJson? v).map fun p => { c with lookupPolicy := p }
  | "plan_cache_capacity" => v.natural?.map fun n => { c with planCacheCapacity := n }
  | "reasoning_enabled" => v.bool?.map fun b => { c with reasoningEnabled := b }
  | _ => some c

/-- The configuration with fields read one after the other. -/
def setFields? (c : Config) : List (String × Json) → Option Config
  | [] => some c
  | (name, v) :: rest => (c.setField? name v).bind fun c => c.setFields? rest

/-- The default configuration changed by a document; no field may stand twice. -/
def ofJson? : Json → Option Config
  | .object fields =>
    let known := fields.filter fun f => f.1 ∈ fieldNames
    if (known.map (·.1)).eraseDups.length = known.length then setFields? {} known else none
  | .array items =>
    if items.length ≤ fieldNames.length then setFields? {} (fieldNames.zip items) else none
  | _ => none

/-- The configuration that a JSON text gives, valid or not. -/
def ofText? (text : String) : Option Config :=
  (Json.ofText? text).bind ofJson?

/-- The valid configuration that a JSON text gives. -/
def ofText (text : String) : Except InferenceError Config :=
  match ofText? text with
  | some c => c.validate
  | none => .error (.config "the text is no configuration")

def toJson (c : Config) : Json :=
  .object
    [("max_recursion_depth", .number (.natural c.maxRecursionDepth)),
      ("max_fixpoint_iterations", .number (.natural c.maxFixpointIterations)),
      ("lookup_policy", .string c.lookupPolicy.name),
      ("plan_cache_capacity", .number (.natural c.planCacheCapacity)),
      ("reasoning_enabled", .bool c.reasoningEnabled)]

end Config

end GraphInference

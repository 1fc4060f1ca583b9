/-
  FeatureVector.Json.Fields — records in JSON.

  A record with known fields is an object, in which each of them stands at most once and
  other members are passed over, or an array of the fields by position, of which the last
  ones may be missing. A map is an object; of members with one key the last counts.
-/
import FeatureVector.Json.Number

namespace FeatureVector.Json

/-- The values of the known fields, in their order; none where a field is missing. -/
def fields? (known : List String) : Json → Option (List (Option Json))
  | object members => do
    let named ← members.mapM fun (key, v) => return (← Text.toString? key, v)
    known.mapM fun field =>
      match named.filter (·.1 == field) with
      | [] => some none
      | [(_, v)] => some (some v)
      | _ => none
  | array items =>
    if items.length ≤ known.length then
      some ((List.range known.length).map fun i => items[i]?)
    else none
  | _ => none

/-- A field that may be missing, or present as `null`. -/
def optional? (read : Json → Option α) : Option Json → Option (Option α)
  | none | some null => some none
  | some v => (read v).map some

/-- A field that may be missing, but is not `null`. -/
def orDefault? (read : Json → Option α) (default : α) : Option Json → Option α
  | none => some default
  | some v => read v

def list? (read : Json → Option α) : Json → Option (List α)
  | array items => items.mapM read
  | _ => none

def entries? (read : Json → Option α) : Json → Option (List (String × α))
  | object members => members.mapM fun (key, v) => return (← Text.toString? key, ← read v)
  | _ => none

end FeatureVector.Json

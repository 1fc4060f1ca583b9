/-
  FeatureVector.Record — vectors as JSON text.

  Every vector is written as a record of the kind `dense` with all its slots; a window
  thereby turns into a copy. A name is written when there is one, bindings when they are
  asked for too. What is no number is written as `null`, which does not read back.
-/
import FeatureVector.Json.Fields
import FeatureVector.Json.Render
import FeatureVector.Vect.Basic

namespace FeatureVector

/-! ## Kinds -/

namespace Kind

def text : Kind → String
  | dense => "dense"
  | view => "view"

/-- Reads the exact text. -/
def ofText? (s : String) : Option Kind :=
  if s = dense.text then some dense else if s = view.text then some view else none

/-- Reads the text in letters of either case. The letters are ASCII: no other character has
    one of the words' letters as its lowercase. -/
def parse? (s : String) : Option Kind := ofText? (String.ofList (s.toList.map Char.toLower))

/-- What is said of a text that names no kind. -/
def unknownMessage (s : String) : String :=
  "Unknown vector kind: " ++ s ++ ". Expected one of: dense, view"

/-- A kind as JSON is its text, or an object that has the text as its only key and nothing
    under it. -/
def ofJson? : Json → Option Kind
  | .string t => t.toString?.bind ofText?
  | .object [(key, .null)] => (Json.Text.toString? key).bind ofText?
  | _ => none

end Kind

/-! ## Options -/

structure EncodeOptions where
  /-- Indented, one value a line. -/
  pretty : Bool := false
  includeBindings : Bool := false
  deriving DecidableEq

namespace EncodeOptions

def default : EncodeOptions := {}

def layout (o : EncodeOptions) : Json.Layout := if o.pretty then .pretty else .compact

def ofJson? (v : Json) : Option EncodeOptions := do
  let [pretty, includeBindings] ← v.fields? ["pretty", "include_bindings"] | none
  return {
    pretty := ← Json.orDefault? Json.toBool? false pretty
    includeBindings := ← Json.orDefault? Json.toBool? false includeBindings }

def parse (s : String) : Except Fault EncodeOptions :=
  match (Json.parse? s).bind ofJson? with
  | some o => .ok o
  | none => .error .malformed

end EncodeOptions

/-! ## Records -/

structure Record where
  kind : Kind
  name : Option String
  size : Nat
  values : List Float
  bindings : Option Bindings

namespace Record

def bindingsToJson (b : Bindings) : Json :=
  .object (b.toList.map fun (label, i) => (.ofString label, .ofNat i))

def toJson (r : Record) : Json :=
  let member (key : String) (v : Json) : Json.Text × Json := (.ofString key, v)
  .object <|
    [member "kind" (.ofString r.kind.text)] ++
    (match r.name with | none => [] | some name => [member "name" (.ofString name)]) ++
    [member "size" (.ofNat r.size), member "values" (.array (r.values.map Json.ofFloat))] ++
    (match r.bindings with | none => [] | some b => [member "bindings" (bindingsToJson b)])

def bindingsOfJson? (v : Json) : Option Bindings :=
  (Json.entries? Json.toIndex? v).map Bindings.ofList

def ofJson? (v : Json) : Option Record := do
  let [kind, name, size, values, bindings] ←
    v.fields? ["kind", "name", "size", "values", "bindings"] | none
  return {
    kind := ← Kind.ofJson? (← kind)
    name := ← Json.optional? Json.toString? name
    size := ← Json.toIndex? (← size)
    values := ← Json.list? Json.toFloat? (← values)
    bindings := ← Json.optional? bindingsOfJson? bindings }

/-- The record of a vector. -/
def ofVect (v : Vect) (includeBindings : Bool) : Except Fault Record := do
  let elements ← v.elements
  return {
    kind := .dense
    name := v.name
    size := v.size
    values := elements.map (·.value)
    bindings := if includeBindings then v.bindings else none }

/-- The vector of a record. A view's slots are its parent's, so it cannot be had. -/
def toDense (r : Record) : Except Fault Dense := do
  match r.kind with
  | .view => .error .orphanView
  | .dense =>
    checkSize r.size r.values.length
    return { Dense.ofList r.values with name := r.name, bindings := r.bindings }

def parse (s : String) : Except Fault Record :=
  match (Json.parse? s).bind ofJson? with
  | some r => .ok r
  | none => .error .malformed

end Record

/-! ## Text form -/

/-- The text form of a vector. -/
def Vect.encode (v : Vect) (options : EncodeOptions) : Except Fault String :=
  return (← Record.ofVect v options.includeBindings).toJson.toText options.layout

/-- The vector a text stands for, in storage of its own. -/
def Dense.decode (s : String) : Except Fault Dense := do
  (← Record.parse s).toDense

end FeatureVector

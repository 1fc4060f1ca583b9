/-
  FeatureVector.Json.Tree — JSON values, and how a list of lexemes builds one.

  Building takes one lexeme at a time and keeps a stack of holes: the arrays and objects
  that are open, each with what stands before the value that is missing. Depth therefore
  costs stack entries and no recursion, and there is no limit to it. An object's members
  are kept as written: in order, with repetitions, keys not yet decoded.
-/
import FeatureVector.Json.Lexeme

namespace FeatureVector

inductive Json
  | null
  | bool (b : Bool)
  | number (n : Numeral)
  | string (t : Json.Text)
  | array (items : List Json)
  | object (members : List (Json.Text × Json))

namespace Json

/-- Where a value is missing: in an array behind these items, in an object behind these
    members and this key. What stands before is kept last first. -/
inductive Hole
  | item (before : List Json)
  | member (before : List (Text × Json)) (key : Text)

/-- What has been built, and what may come next. The innermost hole stands first. -/
inductive Build
  /-- A value. -/
  | value (holes : List Hole)
  /-- A value or the end of the array that has just been opened. -/
  | firstItem (holes : List Hole)
  /-- A key or the end of the object that has just been opened. -/
  | firstKey (holes : List Hole)
  /-- A key behind these members. -/
  | nextKey (before : List (Text × Json)) (holes : List Hole)
  /-- A colon behind this key. -/
  | colon (before : List (Text × Json)) (key : Text) (holes : List Hole)
  /-- A comma or the end of what the innermost hole is in: its value is there. -/
  | complete (v : Json) (holes : List Hole)

namespace Build

def start : Build := value []

def ofWord : Word → Json
  | .null => null
  | .bool b => bool b
  | .number n => number n

/-- A lexeme where a value must begin. -/
def beginValue? (holes : List Hole) : Lexeme → Option Build
  | .word w => some (complete (ofWord w) holes)
  | .string t => some (complete (string t) holes)
  | .mark .openBracket => some (firstItem holes)
  | .mark .openBrace => some (firstKey holes)
  | .mark _ => none

/-- One more lexeme. -/
def step? : Build → Lexeme → Option Build
  | value holes, l => beginValue? holes l
  | firstItem holes, .mark .closeBracket => some (complete (array []) holes)
  | firstItem holes, l => beginValue? (.item [] :: holes) l
  | firstKey holes, .mark .closeBrace => some (complete (object []) holes)
  | firstKey holes, .string key => some (colon [] key holes)
  | firstKey _, _ => none
  | nextKey before holes, .string key => some (colon before key holes)
  | nextKey _ _, _ => none
  | colon before key holes, .mark .colon => some (value (.member before key :: holes))
  | colon _ _ _, _ => none
  | complete v (.item before :: holes), .mark .comma => some (value (.item (v :: before) :: holes))
  | complete v (.item before :: holes), .mark .closeBracket =>
    some (complete (array (v :: before).reverse) holes)
  | complete v (.member before key :: holes), .mark .comma => some (nextKey ((key, v) :: before) holes)
  | complete v (.member before key :: holes), .mark .closeBrace =>
    some (complete (object ((key, v) :: before).reverse) holes)
  | complete _ _, _ => none

/-- The value, when it is complete and no hole is left. -/
def finish? : Build → Option Json
  | complete v [] => some v
  | _ => none

end Build

/-- The one value a list of lexemes spells. -/
def ofLexemes? (ls : List Lexeme) : Option Json := (ls.foldlM Build.step? Build.start).bind Build.finish?

/-- Reads a JSON text. -/
def parse? (s : String) : Option Json := (lexemes? s.toList).bind ofLexemes?

end Json

end FeatureVector

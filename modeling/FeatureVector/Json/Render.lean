/-
  FeatureVector.Json.Render — JSON values as text, on one line without blanks or with one
  item or member a line.
-/
import FeatureVector.Json.Tree

namespace FeatureVector.Json

inductive Layout
  | compact
  | pretty
  deriving DecidableEq

namespace Layout

/-- What stands before an item, or before the closing mark, at this depth. -/
def breakLine (layout : Layout) (depth : Nat) : List Char :=
  match layout with
  | compact => []
  | pretty => '\n' :: List.replicate (2 * depth) ' '

/-- What stands between a key and its value. -/
def colon : Layout → List Char
  | compact => [':']
  | pretty => [':', ' ']

end Layout

mutual

/-- The text of a value that stands at this depth. -/
def render (layout : Layout) (depth : Nat) : Json → List Char
  | null => Word.null.text
  | bool b => (Word.bool b).text
  | number n => n.text
  | string t => t.render
  | array [] => ['[', ']']
  | array (v :: items) =>
    '[' :: layout.breakLine (depth + 1) ++ render layout (depth + 1) v ++
      renderItems layout (depth + 1) items ++ layout.breakLine depth ++ [']']
  | object [] => ['{', '}']
  | object ((key, v) :: members) =>
    '{' :: layout.breakLine (depth + 1) ++ Text.render key ++ layout.colon ++
      render layout (depth + 1) v ++ renderMembers layout (depth + 1) members ++
      layout.breakLine depth ++ ['}']

/-- Further items, each behind a comma. -/
def renderItems (layout : Layout) (depth : Nat) : List Json → List Char
  | [] => []
  | v :: items =>
    ',' :: layout.breakLine depth ++ render layout depth v ++ renderItems layout depth items

/-- Further members, each behind a comma. -/
def renderMembers (layout : Layout) (depth : Nat) : List (Text × Json) → List Char
  | [] => []
  | (key, v) :: members =>
    ',' :: layout.breakLine depth ++ Text.render key ++ layout.colon ++ render layout depth v ++
      renderMembers layout depth members

end

/-- A whole document. -/
def toText (layout : Layout) (v : Json) : String := String.ofList (render layout 0 v)

end FeatureVector.Json

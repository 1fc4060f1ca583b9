/-
  FeatureVector.Json.Text — the inside of a JSON string.

  A string is read as pieces: characters, and halves of surrogate pairs, which only an
  escape can write. The pieces of any string of correct form can be listed; only those in
  which every half has its partner name characters (`decode?`). So a string that is passed
  over need not make sense, one that is used must.
-/

namespace FeatureVector.Json

inductive Piece
  | char (c : Char)
  /-- A code unit from U+D800 to U+DFFF. -/
  | surrogate (unit : Nat)
  deriving DecidableEq

abbrev Text := List Piece

namespace Piece

/-- What a four-digit escape writes. -/
def ofUnit (unit : Nat) : Piece :=
  if 0xD800 ≤ unit ∧ unit < 0xE000 then surrogate unit else char (Char.ofNat unit)

/-- What a backslash before this character writes, `u` apart. -/
def ofShortEscape? : Char → Option Piece
  | '"' => some (char '"')
  | '\\' => some (char '\\')
  | '/' => some (char '/')
  | 'b' => some (char '\x08')
  | 'f' => some (char '\x0c')
  | 'n' => some (char '\n')
  | 'r' => some (char '\r')
  | 't' => some (char '\t')
  | _ => none

end Piece

/-- The value of a hexadecimal digit of either case. -/
def hexValue? (c : Char) : Option Nat :=
  if '0' ≤ c ∧ c ≤ '9' then some (c.toNat - '0'.toNat)
  else if 'a' ≤ c ∧ c ≤ 'f' then some (c.toNat - 'a'.toNat + 10)
  else if 'A' ≤ c ∧ c ≤ 'F' then some (c.toNat - 'A'.toNat + 10)
  else none

/-- Four lowercase hexadecimal digits. -/
def hex4 (n : Nat) : List Char :=
  [n / 4096 % 16, n / 256 % 16, n / 16 % 16, n % 16].map Nat.digitChar

namespace Text

def ofString (s : String) : Text := s.toList.map .char

/-- The characters; `none` when a half of a surrogate pair stands alone or out of order. -/
def decode? : Text → Option (List Char)
  | [] => some []
  | .char c :: rest => (decode? rest).map (c :: ·)
  | .surrogate high :: .surrogate low :: rest =>
    if high < 0xDC00 ∧ 0xDC00 ≤ low then
      (decode? rest).map (Char.ofNat (0x10000 + (high - 0xD800) * 0x400 + (low - 0xDC00)) :: ·)
    else none
  | .surrogate _ :: _ => none

def toString? (t : Text) : Option String := (decode? t).map String.ofList

/-- Quote, backslash and the control characters are escaped, the common ones briefly. -/
def escape (c : Char) : List Char :=
  match c with
  | '"' => ['\\', '"']
  | '\\' => ['\\', '\\']
  | '\x08' => ['\\', 'b']
  | '\x0c' => ['\\', 'f']
  | '\n' => ['\\', 'n']
  | '\r' => ['\\', 'r']
  | '\t' => ['\\', 't']
  | c => if c.toNat < 0x20 then '\\' :: 'u' :: hex4 c.toNat else [c]

def renderPiece : Piece → List Char
  | .char c => escape c
  | .surrogate unit => '\\' :: 'u' :: hex4 unit

/-- The string between quotes. -/
def render (t : Text) : List Char := '"' :: t.flatMap renderPiece ++ ['"']

end Text

end FeatureVector.Json

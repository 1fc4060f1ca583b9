/-
  FeatureVector.Json.Lexeme — the lexemes of JSON text, found in one pass over its
  characters.

  `Scan` is what has been read so far: the lexemes that are complete and the one that is
  not. A word is a run of characters that are neither blank nor punctuation nor quote, and
  is only looked at when it ends, so `1true` is one bad word and no two lexemes.
-/
import FeatureVector.Json.Text
import FeatureVector.Json.Word

namespace FeatureVector.Json

inductive Mark
  | openBrace
  | closeBrace
  | openBracket
  | closeBracket
  | colon
  | comma
  deriving DecidableEq

namespace Mark

def char : Mark → Char
  | openBrace => '{'
  | closeBrace => '}'
  | openBracket => '['
  | closeBracket => ']'
  | colon => ':'
  | comma => ','

def ofChar? : Char → Option Mark
  | '{' => some openBrace
  | '}' => some closeBrace
  | '[' => some openBracket
  | ']' => some closeBracket
  | ':' => some colon
  | ',' => some comma
  | _ => none

end Mark

inductive Lexeme
  | mark (m : Mark)
  | word (w : Word)
  | string (t : Text)
  deriving DecidableEq

/-- Space, tab, line feed and carriage return. -/
def isBlank (c : Char) : Bool := c == ' ' || c == '\t' || c == '\n' || c == '\r'

/-- What the next character belongs to. Parts read so far stand last first. -/
inductive Mode
  | between
  | word (read : List Char)
  | string (read : List Piece)
  /-- After a backslash. -/
  | escape (read : List Piece)
  /-- Inside a four-digit escape: how many digits are to come, the value of those read. -/
  | unit (read : List Piece) (missing : Nat) (value : Nat)
  deriving DecidableEq

structure Scan where
  mode : Mode
  /-- Complete lexemes, last first. -/
  done : List Lexeme
  deriving DecidableEq

namespace Scan

def start : Scan := ⟨.between, []⟩

/-- A character outside strings, words before it being complete. -/
def begin (done : List Lexeme) (c : Char) : Scan :=
  if isBlank c then ⟨.between, done⟩
  else match Mark.ofChar? c with
    | some m => ⟨.between, .mark m :: done⟩
    | none => if c == '"' then ⟨.string [], done⟩ else ⟨.word [c], done⟩

def endsWord (c : Char) : Bool := isBlank c || (Mark.ofChar? c).isSome || c == '"'

def finishWord? (read : List Char) (done : List Lexeme) : Option (List Lexeme) :=
  (Word.ofChars? read.reverse).map (.word · :: done)

/-- One more character. -/
def step? (s : Scan) (c : Char) : Option Scan :=
  match s.mode with
  | .between => some (begin s.done c)
  | .word read =>
    if endsWord c then (finishWord? read s.done).map (begin · c)
    else some ⟨.word (c :: read), s.done⟩
  | .string read =>
    if c == '"' then some ⟨.between, .string read.reverse :: s.done⟩
    else if c == '\\' then some ⟨.escape read, s.done⟩
    else if c.toNat < 0x20 then none
    else some ⟨.string (.char c :: read), s.done⟩
  | .escape read =>
    if c == 'u' then some ⟨.unit read 4 0, s.done⟩
    else (Piece.ofShortEscape? c).map fun p => ⟨.string (p :: read), s.done⟩
  | .unit read missing value =>
    (hexValue? c).map fun d =>
      if missing ≤ 1 then ⟨.string (Piece.ofUnit (value * 16 + d) :: read), s.done⟩
      else ⟨.unit read (missing - 1) (value * 16 + d), s.done⟩

/-- The lexemes in order, when the text may end here. -/
def finish? (s : Scan) : Option (List Lexeme) :=
  match s.mode with
  | .between => some s.done.reverse
  | .word read => (finishWord? read s.done).map List.reverse
  | .string _ | .escape _ | .unit _ _ _ => none

end Scan

/-- All lexemes of a text. -/
def lexemes? (cs : List Char) : Option (List Lexeme) :=
  (cs.foldlM Scan.step? Scan.start).bind Scan.finish?

end FeatureVector.Json

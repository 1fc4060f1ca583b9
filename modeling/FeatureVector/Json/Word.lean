/-
  FeatureVector.Json.Word — the bare words of JSON: `null`, `true`, `false` and the
  numerals.
-/
import FeatureVector.Numeral

namespace FeatureVector.Json

/-! ## Numerals -/

/-- Digits up to the first other character, and what is left. -/
def spanDigits (cs : List Char) : List Char × List Char :=
  (cs.takeWhile Char.isDigit, cs.dropWhile Char.isDigit)

/-- Digits before the point: at least one, and no zero before others. -/
def readWhole? (cs : List Char) : Option (List Char × List Char) :=
  let (digits, rest) := spanDigits cs
  match digits with
  | [] => none
  | '0' :: _ :: _ => none
  | _ => some (digits, rest)

/-- A point and at least one digit, or nothing. -/
def readFraction? : List Char → Option (List Char × List Char)
  | '.' :: cs =>
    let (digits, rest) := spanDigits cs
    if digits.isEmpty then none else some (digits, rest)
  | cs => some ([], cs)

/-- The digits of a power of ten, to the end. -/
def readPower? (negative : Bool) (cs : List Char) : Option Int :=
  if cs.isEmpty || !cs.all Char.isDigit then none
  else
    let n : Int := Nat.ofDigitChars 10 cs 0
    some (if negative then -n else n)

/-- A power of ten to the end, or the end. -/
def readExponent? : List Char → Option (Option Int)
  | [] => some none
  | c :: cs =>
    if c = 'e' ∨ c = 'E' then
      match cs with
      | '+' :: ds => (readPower? false ds).map some
      | '-' :: ds => (readPower? true ds).map some
      | ds => (readPower? false ds).map some
    else none

def numeral? (cs : List Char) : Option Numeral := do
  let (negative, cs) := match cs with
    | '-' :: r => (true, r)
    | r => (false, r)
  let (whole, cs) ← readWhole? cs
  let (fraction, cs) ← readFraction? cs
  let exponent ← readExponent? cs
  return ⟨negative, whole, fraction, exponent⟩

/-! ## Words -/

inductive Word
  | null
  | bool (b : Bool)
  | number (n : Numeral)
  deriving DecidableEq

def Word.text : Word → List Char
  | null => ['n', 'u', 'l', 'l']
  | bool true => ['t', 'r', 'u', 'e']
  | bool false => ['f', 'a', 'l', 's', 'e']
  | number n => n.text

def Word.ofChars? (cs : List Char) : Option Word :=
  if cs = null.text then some null
  else if cs = (bool true).text then some (bool true)
  else if cs = (bool false).text then some (bool false)
  else (numeral? cs).map number

end FeatureVector.Json

/-
  FeatureVector.Json.Number — what a numeral means.

  Whole numbers of a machine word become the nearest double. All others are read as a
  significand of one word, for which digits past the word are dropped, times a power of
  ten, and the double nearest to the significand is multiplied or divided by the double
  nearest to the power. Both steps round, so the result can miss the nearest double.
-/
import FeatureVector.Json.Tree

namespace FeatureVector.Numeral

def maxWord : Nat := Nat.pow 2 64 - 1

def value (digits : List Char) : Nat := Nat.ofDigitChars 10 digits 0

/-- Written without point and exponent. -/
def isWhole (n : Numeral) : Bool := n.fraction.isEmpty && n.exponent.isNone

/-- An unsigned word: no sign, not even before zero. -/
def toIndex? (n : Numeral) : Option Nat :=
  if n.isWhole && !n.negative && value n.whole ≤ maxWord then some (value n.whole) else none

/-! ## Significand and power -/

/-- Appends digits to a significand as long as it stays a word: the significand, and how
    many digits it took. -/
def takeDigits (significand : Nat) : List Char → Nat × Nat
  | [] => (significand, 0)
  | c :: cs =>
    let next := significand * 10 + (c.toNat - '0'.toNat)
    if maxWord < next then (significand, 0)
    else
      let (s, taken) := takeDigits next cs
      (s, taken + 1)

/-- Significand and power of ten before the written exponent. Digits of the whole part that
    are not taken count as a power of ten, those of the fraction as nothing. -/
def significand (n : Numeral) : Nat × Int :=
  let (s, taken) := takeDigits 0 n.whole
  let (s', taken') := takeDigits s n.fraction
  (s', (n.whole.length - taken : Nat) - (taken' : Int))

/-- The largest exponent that can be written: of a signed half word. -/
def maxExponent : Nat := Nat.pow 2 31 - 1

/-- The largest power of ten that is a double. -/
def maxPower : Nat := 308

/-- The double nearest to `10 ^ n`. -/
def power (n : Nat) : Float := Float.ofScientific 1 false n

/-- Division by the largest power of ten, again and again until nothing is left. -/
def divideOut (x : Float) : Nat → Float
  | 0 => x
  | rounds + 1 => if x == Binary64.zero then x else divideOut (x / power maxPower) rounds

/-- `x / 10 ^ n`, in steps of at most the largest power. -/
def scaleDown (x : Float) (n : Nat) : Float :=
  let rounds := (n - 1) / maxPower
  divideOut x rounds / power (n - maxPower * rounds)

/-- `x · 10 ^ e`; none when it is too large. -/
def scale? (x : Float) (e : Int) : Option Float :=
  if e < 0 then some (scaleDown x (-e).toNat)
  else if e ≤ maxPower then
    let y := x * power e.toNat
    if y.isInf then none else some y
  else if x == Binary64.zero then some x else none

/-- The modulus of a numeral with point, exponent or too many digits. -/
def scaled? (n : Numeral) : Option Float :=
  let (s, e) := n.significand
  let written := n.exponent.getD 0
  if maxExponent < written.natAbs then
    if 0 < written ∧ s ≠ 0 then none else some Binary64.zero
  else scale? s.toUInt64.toFloat (e + written)

/-- The modulus, before the sign. -/
def modulus? (n : Numeral) : Option Float :=
  let w := value n.whole
  if n.isWhole && w ≤ maxWord then some w.toUInt64.toFloat
  else n.scaled?

/-- The double a numeral is read as; none when it is too large. -/
def toFloat? (n : Numeral) : Option Float :=
  n.modulus?.map fun x => if n.negative then -x else x

end FeatureVector.Numeral

namespace FeatureVector.Json

/-- A double as JSON. What is no number is written as `null`. -/
def ofFloat (x : Float) : Json :=
  match NumberStyle.json.numeral? x with
  | some n => number n
  | none => null

def ofNat (n : Nat) : Json := number (.ofNat n)

def toFloat? : Json → Option Float
  | number n => n.toFloat?
  | _ => none

def toIndex? : Json → Option Nat
  | number n => n.toIndex?
  | _ => none

def toBool? : Json → Option Bool
  | bool b => some b
  | _ => none

def toString? : Json → Option String
  | string t => t.toString?
  | _ => none

def ofString (s : String) : Json := string (.ofString s)

end FeatureVector.Json

/-
  FeatureVector.Numeral — numbers as they are written: sign, digits before and behind the
  point, power of ten.

  A `NumberStyle` says which numeral stands for a double. Two styles are in use: texts for
  people never have an exponent (`NumberStyle.plain`), JSON has one outside a middle range
  (`NumberStyle.json`).
-/
import FeatureVector.Decimal

namespace FeatureVector

structure Numeral where
  negative : Bool
  whole : List Char
  /-- Empty when nothing is written behind the point, nor the point. -/
  fraction : List Char
  exponent : Option Int
  deriving DecidableEq

namespace Numeral

def ofNat (n : Nat) : Numeral := ⟨false, Nat.toDigits 10 n, [], none⟩

/-- The exponent's sign is always written, `+` too. -/
def exponentText (e : Int) : List Char :=
  'e' :: (if 0 ≤ e then '+' else '-') :: Nat.toDigits 10 e.natAbs

def text (n : Numeral) : List Char :=
  (if n.negative then ['-'] else []) ++ n.whole ++
    (if n.fraction.isEmpty then [] else '.' :: n.fraction) ++
    (match n.exponent with | none => [] | some e => exponentText e)

/-- Positional: no exponent. -/
def positional (negative : Bool) (d : Decimal) : Numeral := ⟨negative, d.whole, d.fraction, none⟩

/-- Scientific: one digit before the point. -/
def scientific (negative : Bool) (d : Decimal) : Numeral :=
  ⟨negative, d.digits.take 1, d.digits.drop 1, some d.leading⟩

/-- A whole number without exponent gets the fraction `.0`. -/
def markWhole (n : Numeral) : Numeral :=
  if n.fraction.isEmpty && n.exponent.isNone then { n with fraction := ['0'] } else n

end Numeral

/-- The choices in writing a double. -/
structure NumberStyle where
  tie : TieRule
  /-- Whether a number whose first digit stands for `10 ^ e` is written without exponent. -/
  isPositional : Int → Bool
  /-- Whether a whole number written without exponent ends in `.0`. -/
  marksWhole : Bool

namespace NumberStyle

/-- Never an exponent, nothing after a whole number, half away from zero. -/
def plain : NumberStyle := ⟨.awayFromZero, fun _ => true, false⟩

/-- Positional from `10⁻⁵` to below `10¹⁶`, always a mark of a double, half to even. -/
def json : NumberStyle := ⟨.toEven, fun e => -5 ≤ e && e ≤ 15, true⟩

def numeral (style : NumberStyle) (negative : Bool) (d : Decimal) : Numeral :=
  let n := if style.isPositional d.leading then .positional negative d else .scientific negative d
  if style.marksWhole then n.markWhole else n

/-- NaN and the infinities have no digits. -/
def numeral? (style : NumberStyle) (x : Float) : Option Numeral :=
  match Binary64.value x with
  | .nan | .infinite _ => none
  | .zero negative => some (style.numeral negative .zero)
  | .finite negative m => some (style.numeral negative (.ofMagnitude style.tie m))

end NumberStyle

/-- A number in a text for people. -/
def Binary64.display (x : Float) : String :=
  match NumberStyle.plain.numeral? x with
  | some n => String.ofList n.text
  | none => if x.isNaN then "NaN" else if x < Binary64.zero then "-inf" else "inf"

end FeatureVector

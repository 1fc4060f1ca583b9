/-
  FeatureVector.Binary64 — the few facts about doubles the library adds to core's
  arithmetic: the constants slots start from, summation, the larger and the smaller of
  two numbers, and the exact value a bit pattern stands for.

  Core's `Float` has one NaN, so equality of `Float`s (`=`) is equality of bits with all
  NaNs alike, and `==` is the comparison of numbers: `0.0 == -0.0`, NaN differs from itself.
-/

namespace FeatureVector.Binary64

/-- Positive zero, what a fresh slot holds. -/
def zero : Float := Float.ofBits 0

/-- Negative zero, the neutral element of addition: `negZero + x = x` for every `x`. -/
def negZero : Float := Float.ofBits 0x8000000000000000

def negInfinity : Float := Float.ofBits 0xfff0000000000000

/-- Left-to-right sum from negative zero, so that the sum of no terms, and of negative
    zeros alone, is negative zero. -/
def sum (terms : List Float) : Float := terms.foldl (· + ·) negZero

/-- The larger number; a NaN yields to the other operand. -/
def larger (a b : Float) : Float :=
  if a.isNaN then b else if b.isNaN then a else if a < b then b else a

/-- The smaller number; a NaN yields to the other operand. -/
def smaller (a b : Float) : Float :=
  if a.isNaN then b else if b.isNaN then a else if b < a then b else a

def square (x : Float) : Float := x * x

/-! ## Exact values -/

/-- `significand · 2 ^ exponent`, the modulus of a finite double other than zero. -/
structure Magnitude where
  significand : Nat
  exponent : Int
  /-- The next smaller double is only half as far away as the next larger one: the
      significand is the least of its binade and the binade is not the lowest. -/
  thinBelow : Bool
  deriving DecidableEq

/-- What a double stands for. -/
inductive Value
  | nan
  | infinite (negative : Bool)
  | zero (negative : Bool)
  | finite (negative : Bool) (modulus : Magnitude)
  deriving DecidableEq

/-- Sign bit, eleven bits of exponent, fifty-two of fraction. -/
def valueOfBits (bits : Nat) : Value :=
  let negative := bits / Nat.pow 2 63 % 2 == 1
  let biased : Nat := bits / Nat.pow 2 52 % Nat.pow 2 11
  let fraction : Nat := bits % Nat.pow 2 52
  if biased = 2047 then if fraction = 0 then .infinite negative else .nan
  else if biased = 0 then
    if fraction = 0 then .zero negative else .finite negative ⟨fraction, -1074, false⟩
  else .finite negative ⟨Nat.pow 2 52 + fraction, (biased : Int) - 1075, fraction == 0 && 1 < biased⟩

def value (x : Float) : Value := valueOfBits x.toBits.toNat

end FeatureVector.Binary64

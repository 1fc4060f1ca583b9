/-
  FeatureVector.Decimal — the shortest decimal that reads back to a given double.

  The reals that round to a double `m · 2 ^ q` fill an interval around it, which has its
  ends iff `m` is even. In units of a power of ten fine enough, the ends and the double
  itself are whole numbers (`Interval`). A grid of decimals is the multiples of a power of
  ten. From the coarsest grid that still has a digit of the value down to the unit, the
  first one with a point in the interval gives the answer (`Interval.shortest`): of the
  value's two neighbours on it the one in the interval, of two the nearer, and an exact tie
  goes as `TieRule` says. On the unit grid the value is its own neighbour, so the search
  never comes back empty.
-/
import FeatureVector.Binary64

namespace FeatureVector

/-- `0.d₁d₂…dₙ · 10 ^ point`, the digits as characters. -/
structure Decimal where
  digits : List Char
  point : Int
  deriving DecidableEq

/-- Where a value halfway between two decimals of one length goes. -/
inductive TieRule
  | awayFromZero
  | toEven
  deriving DecidableEq

/-- The reals that round to one double, in units of `10 ^ scale`. -/
structure Interval where
  low : Nat
  value : Nat
  high : Nat
  closed : Bool
  scale : Int
  deriving DecidableEq

namespace Interval

/-- In quarters of the last binary place, which are whole numbers of units `10 ^ scale`
    since `2 ^ q = 5 ^ (-q) · 10 ^ q`. -/
def ofMagnitude (m : Binary64.Magnitude) : Interval :=
  let quarter := m.exponent - 2
  let factor := if 0 ≤ quarter then Nat.pow 2 quarter.toNat else Nat.pow 5 (-quarter).toNat
  { low := (4 * m.significand - if m.thinBelow then 1 else 2) * factor
    value := 4 * m.significand * factor
    high := (4 * m.significand + 2) * factor
    closed := m.significand % 2 == 0
    scale := min quarter 0 }

def contains (s : Interval) (x : Nat) : Bool :=
  if s.closed then s.low ≤ x && x ≤ s.high else s.low < x && x < s.high

/-- The multiple of `unit` that stands for the value: which one, divided by `unit`. -/
def onGrid? (tie : TieRule) (s : Interval) (unit : Nat) : Option Nat :=
  let below := s.value / unit
  let rest := s.value % unit
  match s.contains (below * unit), s.contains ((below + 1) * unit) with
  | true, true =>
    if 2 * rest < unit then some below
    else if unit < 2 * rest then some (below + 1)
    else match tie with
      | .awayFromZero => some (below + 1)
      | .toEven => some (below + below % 2)
  | true, false => some below
  | false, true => some (below + 1)
  | false, false => none

/-- The coarsest grid `10 ^ k` with a point in the interval, from `k` down: the point as a
    multiple, and its `k`. -/
def search (tie : TieRule) (s : Interval) : Nat → Nat × Nat
  | 0 => (s.value, 0)
  | k + 1 => match s.onGrid? tie (Nat.pow 10 (k + 1)) with
    | some multiple => (multiple, k + 1)
    | none => search tie s k

/-- The fewest digits that read back, the nearest of those. -/
def shortest (tie : TieRule) (s : Interval) : Decimal :=
  let (multiple, k) := s.search tie ((Nat.toDigits 10 s.value).length - 1)
  let digits := Nat.toDigits 10 multiple
  { digits := (digits.reverse.dropWhile (· == '0')).reverse
    point := (digits.length + k : Nat) + s.scale }

end Interval

namespace Decimal

/-- Zero has one digit and its point behind it. -/
def zero : Decimal := ⟨['0'], 1⟩

def ofMagnitude (tie : TieRule) (m : Binary64.Magnitude) : Decimal :=
  (Interval.ofMagnitude m).shortest tie

/-- The power of ten the first digit stands for. -/
def leading (d : Decimal) : Int := d.point - 1

/-- Digits before the point, a zero where there are none. -/
def whole (d : Decimal) : List Char :=
  if d.point ≤ 0 then ['0']
  else d.digits.take d.point.toNat ++ List.replicate (d.point.toNat - d.digits.length) '0'

/-- Digits behind the point. -/
def fraction (d : Decimal) : List Char :=
  List.replicate (-d.point).toNat '0' ++ d.digits.drop d.point.toNat

end Decimal

end FeatureVector

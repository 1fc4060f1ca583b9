/-
  FeatureVector.Vect.Reduce — one number from a vector, or from two of one size.

  Sums run over the non-zero slots in ascending order and start from negative zero, with
  one exception: the squared length and distance of contiguous storage take every slot.
-/
import FeatureVector.Vect.Basic

namespace FeatureVector.Vect

/-- Sum of `term e` over the non-zero slots. -/
def sumNonZero (v : Vect) (term : Element → Except Fault Float) : Except Fault Float :=
  return Binary64.sum (← v.nonZero.mapM term)

def total (v : Vect) : Float := Binary64.sum (v.nonZero.map (·.value))

/-- Sum of products over the first vector's non-zero slots. -/
def dot (v w : Vect) : Except Fault Float := do
  checkSize v.size w.size
  v.sumNonZero fun e => return e.value * (← w.slot e.index)

/-- The squared length by the non-zero slots alone. -/
def dotSelf (v : Vect) : Except Fault Float :=
  v.sumNonZero fun e => return e.value * (← v.slot e.index)

/-- Contiguous storage takes every slot, a window only its own non-zero ones: a slot where
    it is zero and the other is not does not count. -/
def distanceSquared (v w : Vect) : Except Fault Float := do
  checkSize v.size w.size
  match v with
  | dense d =>
    let terms ← (d.walk .every).toList.mapM fun e =>
      return Binary64.square (e.value - (← w.slot e.index))
    return Binary64.sum terms
  | view _ _ => v.sumNonZero fun e => return Binary64.square (e.value - (← w.slot e.index))

/-! ## Maximum -/

/-- Keeps the larger value; a NaN replaces every value. -/
def maxStep (largest x : Float) : Float := if x.isNaN || largest < x then x else largest

/-- Negative infinity when empty, NaN as soon as one slot is NaN. -/
def maximum (v : Vect) : Except Fault Float :=
  return (← v.readAll).foldl (fun largest e => maxStep largest e.value) Binary64.negInfinity

/-- The first element is taken as it is, a later one only if it is larger than the taken. -/
def maxElementStep (best : Option Element) (e : Element) : Option Element :=
  match best with
  | none => some e
  | some b => if b.value < e.value then some e else some b

/-- The index the largest value stands at first, if the vector has slots. -/
def argMax (v : Vect) : Except Fault (Option Nat) :=
  return ((← v.readAll).foldl maxElementStep none).map (·.index)

/-! ## Norms -/

/-- The norm of a power that is neither negative nor NaN. Infinity asks for the largest
    value, one for the plain sum, zero for the number of non-zero slots. -/
def norm (v : Vect) (power : Float) : Except Fault Float :=
  if power.isNaN || power < Binary64.zero then .error (.normPower power)
  else if power.isInf then v.maximum
  else if power == 2 then return (← v.dotSelf).sqrt
  else if power == 1 then .ok v.total
  else if power == Binary64.zero then
    .ok (v.nonZero.countP fun e => e.value != Binary64.zero).toFloat
  else .ok ((Binary64.sum (v.nonZero.map fun e => e.value.pow power)).pow (1 / power))

end FeatureVector.Vect

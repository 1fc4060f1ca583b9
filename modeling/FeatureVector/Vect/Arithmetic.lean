/-
  FeatureVector.Vect.Arithmetic — vectors computed from vectors.

  Each result starts as a clone of the first operand, so it has that operand's name and
  bindings, and then has only those slots written that the operation drives: the second
  operand's non-zero slots for sums and differences, the first operand's for products and
  quotients, all for the addition of a scalar.
-/
import FeatureVector.Vect.Reduce

namespace FeatureVector.Vect

def addScalar (v : Vect) (x : Float) : Except Fault Dense := do
  (List.range v.size).foldlM (fun d i => do d.put i ((← v.slot i) + x)) (← v.clone)

def add (v w : Vect) : Except Fault Dense := do
  checkSize v.size w.size
  (← v.clone).fill w.nonZero fun e => return (← v.slot e.index) + e.value

def sub (v w : Vect) : Except Fault Dense := do
  checkSize v.size w.size
  (← v.clone).fill w.nonZero fun e => return (← v.slot e.index) - e.value

/-- Slot by slot. -/
def mul (v w : Vect) : Except Fault Dense := do
  checkSize v.size w.size
  (← v.clone).fill v.nonZero fun e => return e.value * (← w.slot e.index)

def scale (v : Vect) (x : Float) : Except Fault Dense := do
  (← v.clone).fill v.nonZero fun e => return e.value * x

def divScalar (v : Vect) (x : Float) : Except Fault Dense := do
  (← v.clone).fill v.nonZero fun e => return e.value / x

/-- Divided by its Euclidean length; zeros stay zeros, also when the length is zero. -/
def normalize (v : Vect) : Except Fault Dense := do
  v.divScalar (← v.dotSelf).sqrt

def normalizeBy (v : Vect) (power : Float) : Except Fault Dense := do
  v.divScalar (← v.norm power)

end FeatureVector.Vect

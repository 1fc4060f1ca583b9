/-
  FeatureVector.Element — one slot of a vector with its index, as walks over a vector hand
  it out. A copy: later writes to the vector do not show in it.
-/

namespace FeatureVector

structure Element where
  index : Nat
  value : Float
  deriving DecidableEq

namespace Element

/-- Same index and the same number: a NaN element differs from itself. -/
instance : BEq Element where
  beq a b := a.index == b.index && a.value == b.value

end Element

end FeatureVector

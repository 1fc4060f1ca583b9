/-
  FeatureVector.LengthCache — the squared length of a vector, once it has been asked for.

  Who changes a slot drops the cached value; the next read computes it afresh.
-/

namespace FeatureVector

structure LengthCache where
  value : Option Float := none
  deriving DecidableEq

namespace LengthCache

def empty : LengthCache := {}

def isFilled (c : LengthCache) : Bool := c.value.isSome

/-- The cached value, or the computed one, which is then kept. -/
def fetch (c : LengthCache) (compute : Unit → Float) : Float × LengthCache :=
  match c.value with
  | some x => (x, c)
  | none =>
    let x := compute ()
    (x, ⟨some x⟩)

end LengthCache

end FeatureVector

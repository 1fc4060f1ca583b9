/-
  FeatureVector.Fault — why an operation on vectors, matrices or their text form fails.

  Every cause but the last is found before anything is read or written out of place.
  `overrun` is an access past the end of the storage itself, which only the unchecked
  operations can run into.
-/
import FeatureVector.Numeral

namespace FeatureVector

inductive Fault
  /-- Operand sizes differ where they must agree. -/
  | cardinality (expected actual : Nat)
  /-- A checked index at or past the size. -/
  | index (index size : Nat)
  /-- No bindings, or none for this label. -/
  | unboundLabel (label : String)
  /-- A norm's power is negative or NaN. -/
  | normPower (power : Float)
  /-- The text form of a view, which does not hold the slots it looks at. -/
  | orphanView
  /-- A buffer that does not fill the shape. -/
  | shape (rows cols length : Nat)
  /-- Text that is not JSON, or not the JSON of what is read. -/
  | malformed
  /-- An unchecked access past the end of the storage. -/
  | overrun
  deriving DecidableEq

namespace Fault

def message : Fault → String
  | cardinality expected actual => s!"cardinality mismatch: expected {expected}, got {actual}"
  | index i size => s!"index {i} out of bounds for size {size}"
  | unboundLabel label => s!"no binding for label '{label}'"
  | normPower power => "invalid argument: norm power must be >= 0, got " ++ Binary64.display power
  | orphanView => "invalid argument: cannot decode a view vector without its parent"
  | shape rows cols length => s!"invalid shape ({rows}, {cols}) for buffer of length {length}"
  | malformed => "malformed encoding"
  | overrun => "access past the end of the storage"

end Fault

/-- Outcomes are compared by value: same result or same fault. -/
instance [DecidableEq α] : DecidableEq (Except Fault α)
  | .ok a, .ok b => if h : a = b then isTrue (h ▸ rfl) else isFalse fun e => h (by cases e; rfl)
  | .error a, .error b => if h : a = b then isTrue (h ▸ rfl) else isFalse fun e => h (by cases e; rfl)
  | .ok _, .error _ => isFalse fun e => by cases e
  | .error _, .ok _ => isFalse fun e => by cases e

/-- The largest index a machine word holds; indices past it are reported as it. -/
def maxIndex : Nat := Nat.pow 2 64 - 1

/-- Both sides have the same number of slots. -/
def checkSize (expected actual : Nat) : Except Fault Unit :=
  if expected = actual then .ok () else .error (.cardinality expected actual)

def checkIndex (index size : Nat) : Except Fault Unit :=
  if index < size then .ok () else .error (.index index size)

end FeatureVector

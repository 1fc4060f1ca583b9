/-
  FeatureVector.BinaryFunction — scalar functions that combine a vector's slot with a slot
  of another vector.

  A function may declare that it accumulates: zeros in the second operand leave the first
  untouched. Storage that can skip the other operand's zeros then does. The declaration
  is taken at its word.
-/
import FeatureVector.Binary64

namespace FeatureVector

structure BinaryFunction where
  /-- The slot to change comes first. -/
  apply : Float → Float → Float
  accumulating : Bool

namespace BinaryFunction

/-- Any function, not declared to accumulate. -/
def ofFunction (f : Float → Float → Float) : BinaryFunction := ⟨f, false⟩

def add : BinaryFunction := ⟨(· + ·), true⟩

def addScaled (scale : Float) : BinaryFunction := ⟨fun a b => a + b * scale, true⟩

def sub : BinaryFunction := ofFunction (· - ·)

def mul : BinaryFunction := ofFunction (· * ·)

def div : BinaryFunction := ofFunction (· / ·)

def max : BinaryFunction := ofFunction Binary64.larger

def min : BinaryFunction := ofFunction Binary64.smaller

end BinaryFunction

end FeatureVector

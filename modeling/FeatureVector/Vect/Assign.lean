/-
  FeatureVector.Vect.Assign — changes to all slots of a vector at once, and the addition of
  one vector to another in place.

  Sizes are checked before anything is written. Each slot's new value depends on that
  slot's old value and on the operand, never on what was written to other slots.
-/
import FeatureVector.BinaryFunction
import FeatureVector.Vect.Write

namespace FeatureVector.Vect

/-- Gives every slot a new value, in ascending order. -/
def setEach (value : Nat → Vect → Except Fault Float) : Edit Vect Unit := do
  let size ← Edit.reading fun v => return v.size
  (List.range size).forM fun i => do setSlot i (← Edit.reading (value i))

/-- Gives the slots of these elements new values, from their old values and the elements. -/
def combine (elements : List Element) (f : Float → Element → Float) : Edit Vect Unit :=
  elements.forM fun e => do setSlot e.index (f (← Edit.reading (·.slot e.index)) e)

def requireSize (actual : Nat) : Edit Vect Unit := Edit.reading fun v => checkSize v.size actual

def assignValue (x : Float) : Edit Vect Unit := setEach fun _ _ => .ok x

def assignList (xs : List Float) : Edit Vect Unit := do
  requireSize xs.length
  xs.zipIdx.forM fun (x, i) => setSlot i x

def assignFrom (other : Vect) : Edit Vect Unit := do
  requireSize other.size
  setEach fun i _ => other.slot i

def assignMap (f : Float → Float) : Edit Vect Unit :=
  setEach fun i v => return f (← v.slot i)

def assignMapScalar (f : BinaryFunction) (x : Float) : Edit Vect Unit :=
  setEach fun i v => return f.apply (← v.slot i) x

/-- Contiguous storage drops its cached length at once, and for an accumulating function
    passes over the slots the other operand leaves at zero. A window takes every slot. -/
def assignZip (other : Vect) (f : BinaryFunction) : Edit Vect Unit := do
  requireSize other.size
  let everySlot := setEach fun i v => return f.apply (← v.slot i) (← other.slot i)
  match ← EStateM.get with
  | dense _ => do
    modify dropCache
    if f.accumulating then combine other.nonZero fun a e => f.apply a e.value else everySlot
  | view _ _ => everySlot

/-- Adds a vector to the one being changed. Contiguous storage adds every slot, a window
    its non-zero ones. -/
def addTo (v : Vect) : Edit Vect Unit := do
  Edit.reading fun target => checkSize v.size target.size
  match v with
  | dense d => combine (d.walk .every).toList fun a e => e.value + a
  | view _ _ => combine v.nonZero fun a e => a + e.value

end FeatureVector.Vect

/-
  FeatureVector.Vect.Write — changes to one slot, to the labels and to the name, and the
  one read that changes a vector: asking for the squared length, which may fill the cache.

  A write through a window is a write to its parent at the shifted index, so it drops the
  cached length of the storage underneath.
-/
import FeatureVector.Edit
import FeatureVector.Vect.Reduce

namespace FeatureVector.Vect

/-! ## Slots -/

/-- Unchecked write. The cached length is dropped first, also when there is no such slot. -/
def setSlotIn : Nat → Float → Vect → EStateM.Result Fault Vect Unit
  | i, x, dense d =>
    if h : i < d.slots.size then .ok () (dense (d.write i x h)) else .error .overrun (dense d.dropCache)
  | i, x, view p w =>
    match setSlotIn (w.offset + i) x p with
    | .ok _ p' => .ok () (view p' w)
    | .error e p' => .error e (view p' w)

def setSlot (i : Nat) (x : Float) : Edit Vect Unit := setSlotIn i x

/-- Checked write. -/
def set (i : Nat) (x : Float) : Edit Vect Unit := do
  Edit.reading fun v => checkIndex i v.size
  setSlot i x

/-- Takes hold of the element at a checked index, gives it a value and reads it back. -/
def setElement (i : Nat) (x : Float) : Edit Vect Element := do
  Edit.reading fun v => checkIndex i v.size
  setSlot i x
  Edit.reading fun v => return ⟨i, ← v.slot i⟩

/-! ## Name and labels -/

def withName (name : Option String) : Vect → Vect
  | dense d => dense { d with name }
  | view p w => view p { w with name }

def withBindings (bindings : Option Bindings) : Vect → Vect
  | dense d => dense { d with bindings }
  | view p w => view p { w with bindings }

def setName (name : Option String) : Edit Vect Unit := modify (withName name)

def setBindings (bindings : Option Bindings) : Edit Vect Unit := modify (withBindings bindings)

/-- Writes the slot a label stands for. -/
def setLabel (label : String) (x : Float) : Edit Vect Unit := do
  let i ← Edit.reading (·.resolve label)
  set i x

/-- Writes a slot and makes the label stand for it. Nothing is bound when the write fails. -/
def bindLabel (label : String) (i : Nat) (x : Float) : Edit Vect Unit := do
  set i x
  modify fun v => v.withBindings (some ((v.bindings.getD .empty).insert label i))

/-! ## Squared length -/

/-- A window has no cache of its own to drop. -/
def dropCache : Vect → Vect
  | dense d => dense d.dropCache
  | view p w => view p w

/-- Contiguous storage answers from its cache, which it fills from every slot; a window
    computes from its non-zero slots each time. -/
def lengthSquared : Edit Vect Float := fun v =>
  match v with
  | dense d =>
    let (x, cache) := d.cache.fetch fun _ => d.fullLengthSquared
    .ok x (dense { d with cache })
  | view p w => Edit.reading dotSelf (view p w)

end FeatureVector.Vect

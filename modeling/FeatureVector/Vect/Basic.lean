/-
  FeatureVector.Vect.Basic — vectors of either storage: contiguous slots, or a window over
  the slots of another vector.

  A window shows slots `[offset, offset + length)` of its parent, which may be a window
  itself, and has a name and bindings of its own. `Vect.window` is the checked way to open
  one; `Vect.WellFormed` says that every window of a chain lies inside its parent.

  The unchecked read `slot` passes down the chain and fails with `overrun` past the end of
  the storage. `slots` is the same vector as a plain list.
-/
import FeatureVector.Dense

namespace FeatureVector

/-- How a vector stores its slots. -/
inductive Kind
  | dense
  | view
  deriving DecidableEq

structure Window where
  offset : Nat
  length : Nat
  name : Option String := none
  bindings : Option Bindings := none
  deriving DecidableEq

inductive Vect
  | dense (d : Dense)
  | view (parent : Vect) (window : Window)
  deriving DecidableEq

namespace Vect

instance : Inhabited Vect := ⟨.dense default⟩

def size : Vect → Nat
  | dense d => d.size
  | view _ w => w.length

def kind : Vect → Kind
  | dense _ => .dense
  | view _ _ => .view

def name : Vect → Option String
  | dense d => d.name
  | view _ w => w.name

def bindings : Vect → Option Bindings
  | dense d => d.bindings
  | view _ w => w.bindings

/-- The contiguous storage under all windows. -/
def root : Vect → Dense
  | dense d => d
  | view p _ => p.root

def parent? : Vect → Option Vect
  | dense _ => none
  | view p _ => some p

/-- What is left when the outermost window is closed. -/
def release : Vect → Vect
  | dense d => dense d
  | view p _ => p

def offset : Vect → Nat
  | dense _ => 0
  | view _ w => w.offset

def isEmpty (v : Vect) : Bool := v.size == 0

/-- Explicitly stored slots: all of them, in either storage. -/
def storedCount (v : Vect) : Nat := v.size

/-- Only contiguous storage keeps its length. -/
def cacheFilled : Vect → Option Bool
  | dense d => some d.cache.isFilled
  | view _ _ => none

/-! ## Slots -/

/-- All slots, in order. -/
def slots : Vect → List Float
  | dense d => d.toList
  | view p w => (p.slots.drop w.offset).take w.length

/-- Unchecked read. -/
def slot : Vect → Nat → Except Fault Float
  | dense d, i => d.slot i
  | view p w, i => p.slot (w.offset + i)

/-- Checked read. -/
def get (v : Vect) (i : Nat) : Except Fault Float := do
  checkIndex i v.size
  v.slot i

/-- The non-zero slots in ascending order; those of a window are found among its parent's. -/
def nonZero : Vect → List Element
  | dense d => (d.walk .nonZero).toList
  | view p w =>
    ((p.nonZero.dropWhile (·.index < w.offset)).takeWhile (·.index < w.offset + w.length)).map
      fun e => ⟨e.index - w.offset, e.value⟩

/-- Every slot in order, read one by one. -/
def readAll (v : Vect) : Except Fault (List Element) :=
  (List.range v.size).mapM fun i => return ⟨i, ← v.slot i⟩

/-- Every slot in order. Contiguous storage is walked, a window reads slot by slot. -/
def elements : Vect → Except Fault (List Element)
  | dense d => .ok (d.walk .every).toList
  | view p w => (view p w).readAll

/-! ## Windows -/

/-- Every window lies inside its parent. -/
def WellFormed : Vect → Prop
  | dense _ => True
  | view p w => w.offset + w.length ≤ p.size ∧ p.WellFormed

instance decidableWellFormed : (v : Vect) → Decidable v.WellFormed
  | dense _ => isTrue trivial
  | view p _ => @instDecidableAnd _ _ _ (decidableWellFormed p)

/-- Opens a window. One longer than the vector has the wrong size; one that only ends past
    it has a wrong end. -/
def window (v : Vect) (w : Window) : Except Fault Vect :=
  if v.size < w.length then .error (.cardinality v.size w.length)
  else if v.size < w.offset + w.length then .error (.index (min (w.offset + w.length) maxIndex) v.size)
  else .ok (view v w)

/-- Opens windows one inside the other, the outermost first. -/
def windows (v : Vect) (ws : List Window) : Except Fault Vect := ws.foldlM window v

/-! ## Labels -/

/-- The index a label stands for. -/
def resolve (v : Vect) (label : String) : Except Fault Nat :=
  match v.bindings.bind (·.get? label) with
  | some i => .ok i
  | none => .error (.unboundLabel label)

def getLabel (v : Vect) (label : String) : Except Fault Float := do
  v.get (← v.resolve label)

/-- The element at a checked index. -/
def element (v : Vect) (i : Nat) : Except Fault Element := return ⟨i, ← v.get i⟩

/-! ## Fresh storage -/

/-- Zeros under the vector's own bindings, without a name. -/
def blankOfSize (v : Vect) (size : Nat) : Dense :=
  match v with
  | dense d => { Dense.zeros size with bindings := d.bindings }
  | view p w => { p.blankOfSize size with bindings := w.bindings }

def blank (v : Vect) : Dense := v.blankOfSize v.size

/-- An owned copy under the vector's own name and bindings. Contiguous storage is copied
    whole, its cached length too; a window is copied by its non-zero slots. -/
def clone : Vect → Except Fault Dense
  | dense d => .ok d
  | view p w => do
    let copy ← (p.blankOfSize w.length).fill (view p w).nonZero fun e => return e.value
    return { copy with name := w.name, bindings := w.bindings }

/-- An owned copy by the non-zero slots, under the vector's name; bindings are left out. -/
def toDense (v : Vect) : Except Fault Dense := do
  let copy ← (Dense.zeros v.size).fill v.nonZero fun e => return e.value
  return { copy with name := v.name }

end Vect

end FeatureVector

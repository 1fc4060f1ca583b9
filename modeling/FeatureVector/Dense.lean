/-
  FeatureVector.Dense — vectors in contiguous storage: every slot is stored, next to an
  optional name, optional bindings and the cached squared length.

  Writing a slot drops the cached length. Copies of the whole value keep it.
-/
import FeatureVector.Bindings
import FeatureVector.Fault
import FeatureVector.LengthCache
import FeatureVector.Walk

namespace FeatureVector

structure Dense where
  slots : Array Float
  name : Option String := none
  bindings : Option Bindings := none
  cache : LengthCache := .empty
  deriving DecidableEq

namespace Dense

def ofArray (slots : Array Float) : Dense := { slots }

def ofList (slots : List Float) : Dense := ofArray slots.toArray

def zeros (size : Nat) : Dense := ofArray (Array.replicate size Binary64.zero)

instance : Inhabited Dense := ⟨zeros 0⟩

def size (d : Dense) : Nat := d.slots.size

def toList (d : Dense) : List Float := d.slots.toList

/-- Unchecked read. -/
def slot (d : Dense) (i : Nat) : Except Fault Float :=
  match d.slots[i]? with
  | some x => .ok x
  | none => .error .overrun

def dropCache (d : Dense) : Dense := { d with cache := .empty }

def write (d : Dense) (i : Nat) (x : Float) (h : i < d.slots.size) : Dense :=
  { d with slots := d.slots.set i x h, cache := .empty }

/-- Unchecked write. -/
def put (d : Dense) (i : Nat) (x : Float) : Except Fault Dense :=
  if h : i < d.slots.size then .ok (d.write i x h) else .error .overrun

/-- Writes `value e` at the index of every element. -/
def fill (d : Dense) (elements : List Element) (value : Element → Except Fault Float) :
    Except Fault Dense :=
  elements.foldlM (fun d e => do d.put e.index (← value e)) d

def walk (d : Dense) (pace : Pace) : Walk := Walk.start pace d.toList

/-- The squared length over every slot, zeros included. -/
def fullLengthSquared (d : Dense) : Float := Binary64.sum (d.toList.map Binary64.square)

/-- Same name and the same bits in every slot: a NaN slot equals itself, zeros of opposite
    sign differ. Bindings and cache do not count. -/
def same (a b : Dense) : Bool :=
  a.name == b.name && a.toList.map Float.toBits == b.toList.map Float.toBits

/-- The slots in brackets, behind the name and a colon when there is one. -/
def display (d : Dense) : String :=
  let body := "[" ++ ", ".intercalate (d.toList.map Binary64.display) ++ "]"
  match d.name with
  | none => body
  | some name => name ++ ":" ++ body

end Dense

end FeatureVector

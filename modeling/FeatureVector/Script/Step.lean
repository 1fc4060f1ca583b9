/-
  FeatureVector.Script.Step — what a caller can do with a vector or a matrix, as data.

  A script is a list of steps on one vector. Steps ask, write, add the vector to another,
  open a window and run a script on it, or compute a fresh vector or matrix and run a
  script on that. Other vectors are given as operands: storage, and the windows opened on
  it, the outermost first. They are built anew for each step.
-/
import FeatureVector.BinaryFunction
import FeatureVector.Matrix
import FeatureVector.Record

namespace FeatureVector

structure Operand where
  root : Dense
  windows : List Window := []
  deriving DecidableEq

namespace Operand

def build (o : Operand) : Except Fault Vect := (Vect.dense o.root).windows o.windows

end Operand

namespace Script

/-- Questions to a vector. -/
inductive Query
  | size
  | extent
  | storedCount
  | kind
  | name
  | bindings
  | get (i : Nat)
  | slot (i : Nat)
  | getLabel (label : String)
  | element (i : Nat)
  | elements
  | nonZero
  | slots
  | total
  | maximum
  | argMax
  | norm (power : Float)
  | cacheFilled
  | hash
  | dot (other : Operand)
  | distanceSquared (other : Operand)
  | equivalent (other : Operand)
  | strictlyEquivalent (other : Operand)
  | same (other : Operand)
  | differs (other : Operand)
  | encode (options : EncodeOptions)
  /-- Of contiguous storage only. -/
  | display
  /-- The hints of walks over every and over the non-zero slots, of contiguous storage only. -/
  | hints
  /-- Where in which parent a window lies, of windows only. -/
  | placement

/-- Changes to a vector. -/
inductive Write
  | set (i : Nat) (x : Float)
  | setSlot (i : Nat) (x : Float)
  | setLabel (label : String) (x : Float)
  | bindLabel (label : String) (i : Nat) (x : Float)
  | setName (name : Option String)
  | setBindings (bindings : Option Bindings)
  | setElement (i : Nat) (x : Float)
  | assignValue (x : Float)
  | assignList (xs : List Float)
  | assignFrom (other : Operand)
  | assignMap (f : Float → Float)
  | assignMapScalar (f : BinaryFunction) (x : Float)
  | assignZip (other : Operand) (f : BinaryFunction)

/-- Fresh vectors computed from a vector. -/
inductive Derivation
  | clone
  | blank
  | blankOfSize (size : Nat)
  | toDense
  | addScalar (x : Float)
  | scale (x : Float)
  | divScalar (x : Float)
  | normalize
  | normalizeBy (power : Float)
  | add (other : Operand)
  | sub (other : Operand)
  | mul (other : Operand)
  /-- Through the text form, bindings included. -/
  | roundTrip

/-- Questions to a matrix. -/
inductive MatrixQuery
  | shape
  | get (row col : Nat)
  | cell (row col : Nat)
  | rowSlice (row : Nat)
  | display
  | same (rows cols : Nat) (data : Array Float)

/-- Changes to a matrix. -/
inductive MatrixWrite
  | set (row col : Nat) (x : Float)
  | setCell (row col : Nat) (x : Float)
  | assignRow (row : Nat) (other : Operand)

end Script

mutual

/-- A step on a vector. -/
inductive Step
  | ask (q : Script.Query)
  /-- Asks for the squared length, which contiguous storage then keeps. -/
  | lengthSquared
  | write (w : Script.Write)
  | addTo (target : Operand)
  /-- Runs a script on a window. -/
  | within (w : Window) (steps : List Step)
  | derive (d : Script.Derivation) (next : List Step)
  | outer (other : Operand) (next : List MatrixStep)
  | zeroMatrix (rows cols : Nat) (next : List MatrixStep)

/-- A step on a matrix. -/
inductive MatrixStep
  | ask (q : Script.MatrixQuery)
  | write (w : Script.MatrixWrite)
  | row (i : Nat) (next : List Step)
  | column (j : Nat) (next : List Step)

end

end FeatureVector

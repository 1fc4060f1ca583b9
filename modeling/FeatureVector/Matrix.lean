/-
  FeatureVector.Matrix — row-major matrices of doubles, as outer products need them.

  The buffer always fills the shape. `get` and `set` check row and column; the unchecked
  `cell` and `setCell` check only the offset `row * cols + col` against the buffer, so a
  column past the end can reach into a later row.
-/
import FeatureVector.Edit
import FeatureVector.Vect.Basic

namespace FeatureVector

structure Matrix where
  rows : Nat
  cols : Nat
  data : Array Float
  size_data : data.size = rows * cols

namespace Matrix

/-- A matrix over a buffer, which must fill the shape. -/
def ofShape (rows cols : Nat) (data : Array Float) : Except Fault Matrix :=
  if h : data.size = rows * cols then .ok ⟨rows, cols, data, h⟩
  else .error (.shape rows cols data.size)

def zeros (rows cols : Nat) : Matrix :=
  ⟨rows, cols, Array.replicate (rows * cols) Binary64.zero, Array.size_replicate⟩

instance : Inhabited Matrix := ⟨zeros 0 0⟩

def offset (m : Matrix) (row col : Nat) : Nat := row * m.cols + col

def checkBounds (m : Matrix) (row col : Nat) : Except Fault Unit := do
  checkIndex row m.rows
  checkIndex col m.cols

/-! ## Cells -/

/-- Unchecked read. -/
def cell (m : Matrix) (row col : Nat) : Except Fault Float :=
  match m.data[m.offset row col]? with
  | some x => .ok x
  | none => .error .overrun

def get (m : Matrix) (row col : Nat) : Except Fault Float := do
  m.checkBounds row col
  m.cell row col

def write (m : Matrix) (i : Nat) (x : Float) (h : i < m.data.size) : Matrix :=
  { m with
    data := m.data.set i x h
    size_data := by rw [Array.size_set]; exact m.size_data }

/-- Unchecked write. -/
def setCell (row col : Nat) (x : Float) : Edit Matrix Unit := fun m =>
  if h : m.offset row col < m.data.size then .ok () (m.write (m.offset row col) x h)
  else .error .overrun m

def set (row col : Nat) (x : Float) : Edit Matrix Unit := do
  Edit.reading (·.checkBounds row col)
  setCell row col x

/-! ## Rows and columns -/

/-- The part of the buffer a row takes. -/
def rowCells (m : Matrix) (row : Nat) : List Float :=
  (m.data.toList.drop (m.offset row 0)).take m.cols

/-- Unchecked read of a row. -/
def rowSlice (m : Matrix) (row : Nat) : Except Fault (List Float) :=
  if m.offset row 0 + m.cols ≤ m.data.size then .ok (m.rowCells row) else .error .overrun

def row (m : Matrix) (i : Nat) : Except Fault Dense := do
  checkIndex i m.rows
  return Dense.ofList (← m.rowSlice i)

def column (m : Matrix) (j : Nat) : Except Fault Dense := do
  checkIndex j m.cols
  return Dense.ofList (← (List.range m.rows).mapM fun i => m.cell i j)

/-- Overwrites a row. The width is checked before the row. -/
def assignRow (row : Nat) (v : Vect) : Edit Matrix Unit := do
  Edit.reading fun m => checkSize m.cols v.size
  Edit.reading fun m => checkIndex row m.rows
  (List.range v.size).forM fun col => do setCell row col (← Edit.reading fun _ => v.slot col)

/-! ## Equality and text -/

/-- Same shape and the same number in every cell. -/
instance : BEq Matrix where
  beq a b := a.rows == b.rows && a.cols == b.cols && a.data == b.data

/-- Rows in brackets inside brackets. -/
def display (m : Matrix) : String :=
  let rowText (row : Nat) := "[" ++ ", ".intercalate ((m.rowCells row).map Binary64.display) ++ "]"
  "[" ++ ", ".intercalate ((List.range m.rows).map rowText) ++ "]"

end Matrix

/-! ## Outer product -/

namespace Vect

/-- Row `i` is the second vector times slot `i` of the first; cells of its zeros are not
    written. -/
def outer (v w : Vect) : Except Fault Matrix :=
  let scaleRow (row : Nat) : Edit Matrix Unit := do
    let scale ← Edit.reading fun _ => v.slot row
    w.nonZero.forM fun e => Matrix.setCell row e.index (e.value * scale)
  Edit.exec ((List.range v.size).forM scaleRow) (Matrix.zeros v.size w.size)

end Vect

end FeatureVector

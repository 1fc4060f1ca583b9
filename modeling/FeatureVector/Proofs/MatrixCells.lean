/-
  FeatureVector.Proofs.MatrixCells — which cell an unchecked access to a matrix reaches.

  `get` and `set` compare the row with the rows and the column with the columns. `cell` and
  `setCell` compare only the offset with the buffer. For a column below `cols` that comes to
  the same, and the offset tells row and column (`offset_inj`). A column past the end of a
  row that is not the last has the offset of a cell further down (`Spills`, `offset_carry`),
  and that is the cell it reads and writes.

  `unchecked_access_iff`: so the unchecked accesses succeed where the checked ones do exactly
  for the rows and columns that do not spill.
-/
import FeatureVector.Proofs.InBounds

namespace FeatureVector

namespace Matrix

/-! ## Offsets -/

theorem offset_inj {m : Matrix} {row col row' col' : Nat} (hc : col < m.cols) (hc' : col' < m.cols) :
    m.offset row col = m.offset row' col' ↔ row = row' ∧ col = col' := by
  have hcols : 0 < m.cols := Nat.zero_lt_of_lt hc
  unfold offset
  constructor
  · intro h
    have hcol := congrArg (· % m.cols) h
    have hrow := congrArg (· / m.cols) h
    simp only [Nat.mul_add_mod_self_right, Nat.mod_eq_of_lt, hc, hc'] at hcol
    simp only [Nat.add_comm (_ * m.cols), Nat.add_mul_div_right _ _ hcols, Nat.div_eq_of_lt, hc, hc',
      Nat.zero_add] at hrow
    exact ⟨hrow, hcol⟩
  · intro h
    rw [h.1, h.2]

/-- Whole rows of the column count as rows. -/
theorem offset_carry (m : Matrix) (row col : Nat) :
    m.offset (row + col / m.cols) (col % m.cols) = m.offset row col := by
  unfold offset
  rw [Nat.add_mul, Nat.add_assoc, Nat.div_add_mod']

theorem offset_lt_iff_carry {m : Matrix} (hcols : 0 < m.cols) (row col : Nat) :
    m.offset row col < m.data.size ↔ row + col / m.cols < m.rows := by
  rw [m.size_data, ← Nat.div_lt_iff_lt_mul hcols]
  unfold offset
  rw [Nat.add_comm, Nat.add_mul_div_right _ _ hcols, Nat.add_comm]

/-- The column is past the end of its row, and the offset is still inside the buffer. -/
def Spills (m : Matrix) (row col : Nat) : Prop := m.cols ≤ col ∧ m.offset row col < m.data.size

/-- What spills lands in a later row. -/
theorem Spills.lands {m : Matrix} {row col : Nat} (h : m.Spills row col) :
    row < row + col / m.cols ∧ row + col / m.cols < m.rows ∧ col % m.cols < m.cols := by
  obtain ⟨hcol, hlt⟩ := h
  have hcols : 0 < m.cols := by
    rw [m.size_data] at hlt
    exact Nat.pos_of_mul_pos_left (Nat.zero_lt_of_lt hlt)
  have hdown : 0 < col / m.cols := Nat.div_pos hcol hcols
  exact ⟨Nat.lt_add_of_pos_right hdown, (offset_lt_iff_carry hcols row col).mp hlt, Nat.mod_lt _ hcols⟩

/-- The buffer ends where the last row does. -/
theorem lt_or_spills {m : Matrix} {row col : Nat} (h : m.offset row col < m.data.size) :
    (row < m.rows ∧ col < m.cols) ∨ m.Spills row col := by
  rcases Nat.lt_or_ge col m.cols with hcol | hcol
  · have hrow := (offset_lt_iff_carry (Nat.zero_lt_of_lt hcol) row col).mp h
    exact .inl ⟨Nat.lt_of_le_of_lt (Nat.le_add_right _ _) hrow, hcol⟩
  · exact .inr ⟨hcol, h⟩

theorem Spills.not_lt {m : Matrix} {row col : Nat} (h : m.Spills row col) : ¬ (row < m.rows ∧ col < m.cols) :=
  fun hin => Nat.not_lt.mpr h.1 hin.2

/-- Inside the buffer and in range is the same, unless the row and column spill. -/
theorem offset_lt_iff {m : Matrix} {row col : Nat} :
    (m.offset row col < m.data.size ↔ row < m.rows ∧ col < m.cols) ↔ ¬ m.Spills row col := by
  constructor
  · intro h hs
    exact hs.not_lt (h.mp hs.2)
  · intro hs
    exact ⟨fun h => (lt_or_spills h).resolve_right hs, fun h => offset_lt h.1 h.2⟩

/-! ## Checked and unchecked access -/

theorem cell_eq_ok_iff {m : Matrix} {row col : Nat} :
    (∃ x, m.cell row col = .ok x) ↔ m.offset row col < m.data.size := by
  unfold cell
  by_cases h : m.offset row col < m.data.size
  · simp [h]
  · simp [h]

theorem get_of_lt {m : Matrix} {row col : Nat} (hr : row < m.rows) (hc : col < m.cols) :
    m.get row col = m.cell row col := by
  unfold get
  rw [checkBounds_eq_ok.mpr ⟨hr, hc⟩]
  rfl

theorem get_eq_ok_iff {m : Matrix} {row col : Nat} :
    (∃ x, m.get row col = .ok x) ↔ row < m.rows ∧ col < m.cols := by
  constructor
  · intro h
    obtain ⟨x, hx⟩ := h
    obtain ⟨_, hb, _⟩ := Edit.bind_eq_ok hx
    exact checkBounds_eq_ok.mp hb
  · intro h
    rw [get_of_lt h.1 h.2]
    exact cell_of_lt h.1 h.2

theorem outcome_setCell_of_lt {m : Matrix} {row col : Nat} (h : m.offset row col < m.data.size) (x : Float) :
    (setCell row col x).outcome m = (.ok (), m.write (m.offset row col) x h) := by
  unfold Edit.outcome setCell
  rw [dif_pos h]

theorem outcome_setCell_of_not_lt {m : Matrix} {row col : Nat} (h : ¬ m.offset row col < m.data.size) (x : Float) :
    (setCell row col x).outcome m = (.error .overrun, m) := by
  unfold Edit.outcome setCell
  rw [dif_neg h]

theorem setCell_eq_ok_iff {m : Matrix} {row col : Nat} {x : Float} :
    ((setCell row col x).outcome m).1 = .ok () ↔ m.offset row col < m.data.size := by
  by_cases h : m.offset row col < m.data.size
  · simp [outcome_setCell_of_lt h, h]
  · simp [outcome_setCell_of_not_lt h, h]

theorem outcome_set_of_lt {m : Matrix} {row col : Nat} (hr : row < m.rows) (hc : col < m.cols) (x : Float) :
    (set row col x).outcome m = (setCell row col x).outcome m := by
  unfold set
  rw [Edit.outcome_bind, Edit.outcome_reading, checkBounds_eq_ok.mpr ⟨hr, hc⟩]

theorem set_eq_ok_iff {m : Matrix} {row col : Nat} {x : Float} :
    ((set row col x).outcome m).1 = .ok () ↔ row < m.rows ∧ col < m.cols := by
  constructor
  · intro h
    unfold set at h
    rw [Edit.outcome_bind, Edit.outcome_reading] at h
    cases hb : m.checkBounds row col with
    | error f =>
      rw [hb] at h
      cases h
    | ok _ => exact checkBounds_eq_ok.mp hb
  · intro h
    rw [outcome_set_of_lt h.1 h.2]
    exact setCell_eq_ok_iff.mpr (offset_lt h.1 h.2)

/-- Unchecked reads see the offset only. -/
theorem cell_congr {m : Matrix} {row col row' col' : Nat} (h : m.offset row col = m.offset row' col') :
    m.cell row col = m.cell row' col' := by
  unfold cell
  rw [h]

/-- So do unchecked writes. -/
theorem outcome_setCell_congr {m : Matrix} {row col row' col' : Nat} (h : m.offset row col = m.offset row' col')
    (x : Float) : (setCell row col x).outcome m = (setCell row' col' x).outcome m := by
  unfold Edit.outcome setCell
  simp only [h]

end Matrix

/-- Unchecked reads and writes succeed where the checked ones do unless the row and column
    spill. In range they do what the checked ones do. What neither is in range nor spills is
    an overrun and changes nothing. What spills is another cell's read or write, in a later
    row, though the checked ones refuse it. -/
theorem unchecked_access_iff (m : Matrix) (row col : Nat) (x : Float) :
    (((∃ y, m.cell row col = .ok y) ↔ ∃ y, m.get row col = .ok y) ↔ ¬ m.Spills row col) ∧
    ((((Matrix.setCell row col x).outcome m).1 = .ok () ↔ ((Matrix.set row col x).outcome m).1 = .ok ()) ↔
      ¬ m.Spills row col) ∧
    (row < m.rows ∧ col < m.cols →
      m.cell row col = m.get row col ∧ (Matrix.setCell row col x).outcome m = (Matrix.set row col x).outcome m) ∧
    (¬ (row < m.rows ∧ col < m.cols) → ¬ m.Spills row col →
      m.cell row col = .error .overrun ∧ (Matrix.setCell row col x).outcome m = (.error .overrun, m)) ∧
    (m.Spills row col → row < row + col / m.cols ∧ row + col / m.cols < m.rows ∧ col % m.cols < m.cols ∧
      m.cell row col = m.get (row + col / m.cols) (col % m.cols) ∧
      (Matrix.setCell row col x).outcome m = (Matrix.set (row + col / m.cols) (col % m.cols) x).outcome m) := by
  refine ⟨?_, ?_, fun h => ?_, fun h hs => ?_, fun hs => ?_⟩
  · rw [Matrix.cell_eq_ok_iff, Matrix.get_eq_ok_iff]
    exact Matrix.offset_lt_iff
  · rw [Matrix.setCell_eq_ok_iff, Matrix.set_eq_ok_iff]
    exact Matrix.offset_lt_iff
  · exact ⟨(Matrix.get_of_lt h.1 h.2).symm, (Matrix.outcome_set_of_lt h.1 h.2 x).symm⟩
  · have hend : ¬ m.offset row col < m.data.size := fun hlt => (Matrix.lt_or_spills hlt).elim h hs
    exact ⟨(m.cell_eq_overrun_iff row col).mpr (Nat.le_of_not_lt hend), Matrix.outcome_setCell_of_not_lt hend x⟩
  · obtain ⟨hdown, hrow, hcol⟩ := hs.lands
    have hoffset := (m.offset_carry row col).symm
    refine ⟨hdown, hrow, hcol, ?_, ?_⟩
    · rw [Matrix.get_of_lt hrow hcol]
      exact Matrix.cell_congr hoffset
    · rw [Matrix.outcome_set_of_lt hrow hcol]
      exact Matrix.outcome_setCell_congr hoffset x

/-- The last column and the row past the last are like `get` and `set`; the first column past
    the end is in the next row. -/
theorem unchecked_access_of_two_rows :
    let m : Matrix := ⟨2, 3, #[1, 2, 3, 4, 5, 6], rfl⟩
    m.cell 0 2 = m.get 0 2 ∧ (Matrix.setCell 2 0 7).outcome m = (.error .overrun, m) ∧
      (Matrix.setCell 0 3 7).outcome m = (Matrix.set 1 0 7).outcome m := by
  intro m
  obtain ⟨-, -, hin, -⟩ := unchecked_access_iff m 0 2 7
  obtain ⟨-, -, -, hout, -⟩ := unchecked_access_iff m 2 0 7
  obtain ⟨-, -, -, -, hspill⟩ := unchecked_access_iff m 0 3 7
  obtain ⟨-, -, -, -, hwrite⟩ := hspill ⟨Nat.le_refl 3, by decide⟩
  have hrow : 0 + 3 / m.cols = 1 := by decide
  have hcol : 3 % m.cols = 0 := by decide
  rw [hrow, hcol] at hwrite
  exact ⟨(hin ⟨by decide, by decide⟩).1, (hout (fun h => absurd h.1 (by decide)) fun h => absurd h.2 (by decide)).2, hwrite⟩

/-- Row 0 has no column 2, but it can be read and written: the first cell of row 1. -/
theorem unchecked_access_reaches_next_row :
    let m : Matrix := ⟨2, 2, #[1, 2, 3, 4], rfl⟩
    m.get 0 2 = .error (.index 2 2) ∧ m.cell 0 2 = .ok 3 ∧
      ((Matrix.set 0 2 9).outcome m).1 = .error (.index 2 2) ∧
      ((Matrix.setCell 0 2 9).outcome m).1 = .ok () ∧ ((Matrix.setCell 0 2 9).outcome m).2.get 1 0 = .ok 9 := by
  intro m
  refine ⟨by decide, ?_, by decide, by decide, ?_⟩
  · decide
  · decide

end FeatureVector

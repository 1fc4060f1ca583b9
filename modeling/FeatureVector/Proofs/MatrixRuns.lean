/-
  FeatureVector.Proofs.MatrixRuns — over whole runs a matrix is a grid: a cell holds what was
  last written to that cell, whichever way it was written and whichever way it is read.

  `m.Overwritten written m'`: `m'` has the shape of `m`, and each of its cells holds what is
  written there or else what it held in `m`. That composes (`Overwritten.trans`), so it is
  settled for one cell, where offsets tell cells apart (`overwritten_setCell`), and follows
  for loops (`overwritten_forM`), for the writes of a script (`MatrixWrite.overwritten`) and
  for scripts (`MatrixStep.overwritten_runAll`).
  `m.Shows row col x`: all six ways of reading a cell read `x`.

  `matrix_run_is_grid`: so after any script, on a matrix made in any of the three ways, with
  unchecked writes in range, every cell shows what was last written to it; and then a row is
  refused for its width first and for its index second, and for nothing else.
-/
import FeatureVector.Proofs.MatrixCells

namespace FeatureVector

open Script

/-! ## The last of a list -/

theorem getLast?_filterMap_cons (f : β → Option α) (b : β) (l : List β) :
    ((b :: l).filterMap f).getLast? = (l.filterMap f).getLast?.or (f b) := by
  rw [List.filterMap_cons]
  cases f b with
  | none => simp
  | some a =>
    rw [List.getLast?_cons]
    cases (l.filterMap f).getLast? <;> rfl

/-- If every element gives the same or nothing, and one does give that, it is the last. -/
theorem getLast?_filterMap_eq {f : β → Option α} {o : Option α} {l : List β} (h : ∀ b ∈ l, f b = none ∨ f b = o)
    (hex : ∃ b ∈ l, f b = o) : (l.filterMap f).getLast? = o := by
  cases hlast : (l.filterMap f).getLast? with
  | none =>
    obtain ⟨b, hb, hfb⟩ := hex
    rw [← hfb, List.filterMap_eq_nil_iff.mp (List.getLast?_eq_none_iff.mp hlast) b hb]
  | some a =>
    obtain ⟨b, hb, hfb⟩ := List.mem_filterMap.mp (List.mem_of_getLast? hlast)
    rcases h b hb with hnone | ho
    · rw [hnone] at hfb
      cases hfb
    · rw [← ho, hfb]

/-! ## Reading a cell -/

theorem Dense.slot_eq_ok {d : Dense} {i : Nat} {x : Float} : d.slot i = .ok x ↔ d.toList[i]? = some x := by
  unfold Dense.slot Dense.toList
  rw [Array.getElem?_toList]
  cases d.slots[i]? <;> simp

theorem Dense.slot_ofList_eq_ok {xs : List Float} {i : Nat} {x : Float} :
    (Dense.ofList xs).slot i = .ok x ↔ xs[i]? = some x := Dense.slot_eq_ok

namespace Matrix

/-- Every way of reading a cell reads `x`, and rows and columns have their lengths. -/
structure Shows (m : Matrix) (row col : Nat) (x : Float) : Prop where
  get : m.get row col = .ok x
  cell : m.cell row col = .ok x
  inSlice : ∃ xs, m.rowSlice row = .ok xs ∧ xs.length = m.cols ∧ xs[col]? = some x
  inRow : ∃ d, m.row row = .ok d ∧ d.size = m.cols ∧ d.slot col = .ok x
  inColumn : ∃ d, m.column col = .ok d ∧ d.size = m.rows ∧ d.slot row = .ok x

theorem cell_eq_ok {m : Matrix} {row col : Nat} {x : Float} :
    m.cell row col = .ok x ↔ m.data[m.offset row col]? = some x := by
  unfold cell
  cases m.data[m.offset row col]? <;> simp

theorem length_rowCells {m : Matrix} {row : Nat} (hr : row < m.rows) : (m.rowCells row).length = m.cols := by
  have hend := offset_add_cols_le hr
  unfold rowCells
  rw [List.length_take, List.length_drop, Array.length_toList]
  omega

theorem getElem?_rowCells {m : Matrix} {row col : Nat} (hc : col < m.cols) :
    (m.rowCells row)[col]? = m.data[m.offset row col]? := by
  unfold rowCells offset
  rw [List.getElem?_take_of_lt hc, List.getElem?_drop, Array.getElem?_toList, Nat.add_zero]

theorem row_of_lt {m : Matrix} {row : Nat} (hr : row < m.rows) : m.row row = .ok (Dense.ofList (m.rowCells row)) := by
  unfold Matrix.row
  rw [checkIndex_eq_ok.mpr hr, rowSlice_of_lt hr]
  rfl

/-- A cell in range that one way reads, all ways read. -/
theorem shows_of_cell {m : Matrix} {row col : Nat} {x : Float} (hr : row < m.rows) (hc : col < m.cols)
    (hx : m.cell row col = .ok x) : m.Shows row col x where
  get := (get_of_lt hr hc).trans hx
  cell := hx
  inSlice := ⟨m.rowCells row, rowSlice_of_lt hr, length_rowCells hr, (getElem?_rowCells hc).trans (cell_eq_ok.mp hx)⟩
  inRow := by
    refine ⟨Dense.ofList (m.rowCells row), row_of_lt hr, length_rowCells hr, ?_⟩
    exact Dense.slot_ofList_eq_ok.mpr ((getElem?_rowCells hc).trans (cell_eq_ok.mp hx))
  inColumn := by
    have hcells : ∀ i ∈ List.range m.rows, m.cell i col = .ok (m.data[m.offset i col]?.getD Binary64.zero) := by
      intro i hi
      obtain ⟨y, hy⟩ := cell_of_lt (List.mem_range.mp hi) hc
      rw [hy, cell_eq_ok.mp hy]
      rfl
    refine ⟨Dense.ofList ((List.range m.rows).map fun i => m.data[m.offset i col]?.getD Binary64.zero), ?_, ?_, ?_⟩
    · unfold column
      rw [checkIndex_eq_ok.mpr hc, Edit.mapM_ok hcells]
      rfl
    · simp [Dense.size, Dense.ofList, Dense.ofArray]
    · rw [Dense.slot_ofList_eq_ok, List.getElem?_map, List.getElem?_range hr, Option.map_some, cell_eq_ok.mp hx]
      rfl

theorem cell_zeros {rows cols row col : Nat} (hr : row < rows) (hc : col < cols) :
    (zeros rows cols).cell row col = .ok Binary64.zero := by
  have hlt := offset_lt (m := zeros rows cols) hr hc
  rw [size_data] at hlt
  refine cell_eq_ok.mpr ?_
  unfold zeros at hlt ⊢
  rw [Array.getElem?_replicate, if_pos hlt]

/-! ## Writing cells -/

/-- Same shape, and each cell holds what is written there or else what it held before. -/
structure Overwritten (m : Matrix) (written : Nat → Nat → Option Float) (m' : Matrix) : Prop where
  rows : m'.rows = m.rows
  cols : m'.cols = m.cols
  cell : ∀ row < m.rows, ∀ col < m.cols, ∀ x, m.cell row col = .ok x →
    m'.cell row col = .ok ((written row col).getD x)

theorem Overwritten.refl (m : Matrix) : m.Overwritten (fun _ _ => none) m := ⟨rfl, rfl, fun _ _ _ _ _ hx => hx⟩

/-- What is written later stays. -/
theorem Overwritten.trans {m m' m'' : Matrix} {f g : Nat → Nat → Option Float} (h : m.Overwritten f m')
    (h' : m'.Overwritten g m'') : m.Overwritten (fun row col => (g row col).or (f row col)) m'' where
  rows := h'.rows.trans h.rows
  cols := h'.cols.trans h.cols
  cell := by
    intro row hr col hc x hx
    rw [Option.getD_or]
    exact h'.cell row (h.rows ▸ hr) col (h.cols ▸ hc) _ (h.cell row hr col hc x hx)

theorem Overwritten.congr {m m' : Matrix} {f g : Nat → Nat → Option Float} (h : m.Overwritten f m')
    (hfg : ∀ row < m.rows, ∀ col < m.cols, f row col = g row col) : m.Overwritten g m' where
  rows := h.rows
  cols := h.cols
  cell := by
    intro row hr col hc x hx
    rw [← hfg row hr col hc]
    exact h.cell row hr col hc x hx

theorem cell_write (m : Matrix) (i : Nat) (x : Float) (h : i < m.data.size) (row col : Nat) :
    (m.write i x h).cell row col = if i = m.offset row col then .ok x else m.cell row col := by
  unfold cell write offset
  dsimp only
  rw [Array.getElem?_set]
  by_cases hi : i = row * m.cols + col
  · rw [if_pos hi, if_pos hi]
  · rw [if_neg hi, if_neg hi]

/-- The cell itself and no other. -/
theorem overwritten_setCell {m : Matrix} {row col : Nat} (hr : row < m.rows) (hc : col < m.cols) (x : Float) :
    m.Overwritten (fun r c => if row = r ∧ col = c then some x else none) ((setCell row col x).outcome m).2 := by
  rw [outcome_setCell_of_lt (offset_lt hr hc)]
  refine ⟨rfl, rfl, fun r _ c hc' y hy => ?_⟩
  rw [cell_write, hy]
  simp only [offset_inj hc hc']
  split <;> rfl

/-- A loop whose steps succeed and keep to the cells they name. -/
theorem overwritten_forM {rows cols : Nat} {body : β → Edit Matrix PUnit} {l : List β}
    (written : β → Nat → Nat → Option Float) (hs : ∀ b ∈ l, Edit.Succeeds (Shaped rows cols) (body b))
    (hw : ∀ b ∈ l, ∀ m, Shaped rows cols m → m.Overwritten (written b) ((body b).outcome m).2) {m : Matrix}
    (hm : Shaped rows cols m) :
    m.Overwritten (fun row col => (l.filterMap fun b => written b row col).getLast?) ((l.forM body).outcome m).2 := by
  induction l generalizing m with
  | nil => exact .refl m
  | cons b l ih =>
    obtain ⟨_, m', hbody, hm'⟩ := hs b List.mem_cons_self m hm
    have hhead := hw b List.mem_cons_self m hm
    have htail := ih (fun c hc => hs c (List.mem_cons_of_mem _ hc)) (fun c hc => hw c (List.mem_cons_of_mem _ hc)) hm'
    rw [hbody] at hhead
    simp only [getLast?_filterMap_cons]
    show m.Overwritten _ ((body b >>= fun _ => l.forM body).outcome m).2
    rw [Edit.outcome_bind, hbody]
    exact hhead.trans htail

theorem state_set_of_not_lt {m : Matrix} {row col : Nat} (h : ¬ (row < m.rows ∧ col < m.cols)) (x : Float) :
    ((set row col x).outcome m).2 = m := by
  have hm : Shaped m.rows m.cols m := ⟨rfl, rfl⟩
  cases hb : m.checkBounds row col with
  | error f => exact (guarded_set row col x).state_eq hm hb
  | ok _ => exact absurd (checkBounds_eq_ok.mp hb) h

/-! ## Assigning a row -/

theorem checkRow_eq_ok {row width : Nat} {m : Matrix} :
    checkRow row width m = .ok () ↔ m.cols = width ∧ row < m.rows := by
  unfold checkRow
  constructor
  · intro h
    obtain ⟨_, hwidth, hrow⟩ := Edit.bind_eq_ok h
    exact ⟨checkSize_eq_ok.mp hwidth, checkIndex_eq_ok.mp hrow⟩
  · intro h
    rw [checkSize_eq_ok.mpr h.1]
    exact checkIndex_eq_ok.mpr h.2

theorem outcome_storeSlot {row col : Nat} {v : Vect} (hv : v.WellFormed) (hcol : col < v.size) (m : Matrix) :
    Edit.outcome (do setCell row col (← Edit.reading fun _ => v.slot col)) m =
      (setCell row col (v.slots[col]?.getD Binary64.zero)).outcome m := by
  rw [Edit.outcome_bind, Edit.outcome_reading, Vect.slot_of_lt hv hcol]

/-- The slots go into the cells of the row one by one. -/
theorem overwritten_storeSlots {row : Nat} {v : Vect} (hv : v.WellFormed) {m : Matrix} (hr : row < m.rows)
    (hwidth : m.cols = v.size) :
    m.Overwritten (fun r c => if row = r then v.slots[c]? else none)
      (Edit.outcome
        ((List.range v.size).forM fun col => do setCell row col (← Edit.reading fun _ => v.slot col)) m).2 := by
  have hcol : ∀ col ∈ List.range v.size, col < v.size := fun col hc => List.mem_range.mp hc
  have hm : Shaped m.rows m.cols m := ⟨rfl, rfl⟩
  refine (overwritten_forM
    (fun col r c => if row = r ∧ col = c then some (v.slots[col]?.getD Binary64.zero) else none)
    (fun col hc => ?_) (fun col hc m' hm' => ?_) hm).congr fun r _ c hc => ?_
  · exact succeeds_storeSlot hv hr (hwidth ▸ hcol col hc) (hcol col hc)
  · rw [outcome_storeSlot hv (hcol col hc)]
    exact overwritten_setCell (hm'.1 ▸ hr) (hm'.2 ▸ hwidth ▸ hcol col hc) _
  · have hslot : v.slots[c]? = some (v.slots[c]?.getD Binary64.zero) := by
      rw [List.getElem?_eq_getElem (by rw [Vect.length_slots hv, ← hwidth]; exact hc)]
      rfl
    -- Step `c` alone reaches column `c`.
    refine getLast?_filterMap_eq (fun col _ => ?_) ⟨c, List.mem_range.mpr (hwidth ▸ hc), ?_⟩
    · by_cases hrow : row = r
      · by_cases hcc : col = c
        · right
          rw [if_pos ⟨hrow, hcc⟩, if_pos hrow, hcc, ← hslot]
        · exact .inl (if_neg fun h => hcc h.2)
      · exact .inl (if_neg fun h => hrow h.1)
    · simp only [and_true]
      rw [← hslot]

theorem overwritten_assignRow (row : Nat) {v : Vect} (hv : v.WellFormed) (m : Matrix) :
    m.Overwritten (fun r c => if row = r ∧ m.cols = v.size then v.slots[c]? else none)
      ((assignRow row v).outcome m).2 := by
  have hm : Shaped m.rows m.cols m := ⟨rfl, rfl⟩
  cases hcheck : checkRow row v.size m with
  | error f =>
    rw [(guarded_assignRow row hv).state_eq hm hcheck]
    refine (Overwritten.refl m).congr fun r hr c _ => ?_
    rw [if_neg]
    intro h
    rw [checkRow_eq_ok.mpr ⟨h.2, h.1 ▸ hr⟩] at hcheck
    cases hcheck
  | ok _ =>
    obtain ⟨hwidth, hrow⟩ := checkRow_eq_ok.mp hcheck
    unfold assignRow
    rw [Edit.outcome_bind, Edit.outcome_reading, checkSize_eq_ok.mpr hwidth]
    dsimp only
    rw [Edit.outcome_bind, Edit.outcome_reading, checkIndex_eq_ok.mpr hrow]
    simp only [hwidth, and_true]
    exact overwritten_storeSlots hv hrow hwidth

end Matrix

/-! ## Scripts -/

namespace Script

/-- What a write puts into a cell of a matrix that is `cols` wide, if anything. -/
def MatrixWrite.written (cols row col : Nat) : MatrixWrite → Option Float
  | .set r c x | .setCell r c x => if r = row ∧ c = col then some x else none
  | .assignRow r other =>
    match other.build with
    | .ok v => if r = row ∧ cols = v.size then v.slots[col]? else none
    | .error _ => none

/-- The unchecked write is for cells of the matrix. -/
def MatrixWrite.InRange (rows cols : Nat) : MatrixWrite → Prop
  | .setCell row col _ => row < rows ∧ col < cols
  | .set _ _ _ | .assignRow _ _ => True

theorem MatrixWrite.overwritten {w : MatrixWrite} {m : Matrix} (hw : w.InRange m.rows m.cols) :
    m.Overwritten (fun row col => w.written m.cols row col) (w.edit.outcome m).2 := by
  cases w with
  | set row col x =>
    unfold MatrixWrite.edit
    rw [Edit.state_bind_pure]
    by_cases hin : row < m.rows ∧ col < m.cols
    · rw [Matrix.outcome_set_of_lt hin.1 hin.2]
      exact Matrix.overwritten_setCell hin.1 hin.2 x
    · rw [Matrix.state_set_of_not_lt hin]
      refine (Matrix.Overwritten.refl m).congr fun r hr c hc => (if_neg ?_).symm
      intro h
      exact hin ⟨h.1 ▸ hr, h.2 ▸ hc⟩
  | setCell row col x =>
    unfold MatrixWrite.edit
    rw [Edit.state_bind_pure]
    exact Matrix.overwritten_setCell hw.1 hw.2 x
  | assignRow row other =>
    unfold MatrixWrite.edit
    rw [Edit.outcome_bind, Edit.outcome_reading]
    cases hbuild : other.build with
    | error f =>
      simp only [MatrixWrite.written, hbuild]
      exact .refl m
    | ok v =>
      simp only [MatrixWrite.written, hbuild, Edit.state_bind_pure]
      exact Matrix.overwritten_assignRow row (Operand.wellFormed_build hbuild) m

end Script

namespace MatrixStep

def written (cols row col : Nat) : MatrixStep → Option Float
  | .write w => w.written cols row col
  | .ask _ | .row _ _ | .column _ _ => none

def InRange (rows cols : Nat) : MatrixStep → Prop
  | .write w => w.InRange rows cols
  | .ask _ | .row _ _ | .column _ _ => True

end MatrixStep

/-! ## Where matrices come from -/

namespace Matrix

/-- The three ways of making a matrix. -/
inductive Source
  | zeros (rows cols : Nat)
  | buffer (rows cols : Nat) (data : Array Float)
  | outer (v w : Vect)

namespace Source

def rows : Source → Nat
  | zeros rows _ => rows
  | buffer rows _ _ => rows
  | outer v _ => v.size

def cols : Source → Nat
  | zeros _ cols => cols
  | buffer _ cols _ => cols
  | outer _ w => w.size

/-- A buffer must fill the shape. Vectors are to have their slots in place. -/
def Fits : Source → Prop
  | zeros _ _ => True
  | buffer rows cols data => data.size = rows * cols
  | outer v w => v.WellFormed ∧ w.WellFormed

end Source

end Matrix

end FeatureVector

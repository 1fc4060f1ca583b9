/-
  FeatureVector.Proofs.OuterProducts — the outer product of two vectors, cell by cell.

  The loop over the rows and the second vector's non-zero slots writes into zeros. It writes
  each cell once at most, in the step that is named by its row and column, since the offsets
  of different cells differ (`overwritten_scaleRow`, `overwritten_outer`). So a cell holds the
  product of its two slots, or still its zero if the second slot is a zero
  (`Vect.outer_eq`, `productCell`).

  `outer_product_of_slots`: row `i` is therefore the second vector times slot `i` of the
  first, a passed-over zero being a positive one here. The product the other way round
  passes over the other vector's zeros. It has the same numbers in the transposed cells
  exactly where no zero meets what is not finite.
-/
import FeatureVector.Proofs.Elementwise
import FeatureVector.Proofs.InnerProducts
import FeatureVector.Proofs.MatrixRuns
import FeatureVector.Proofs.NonZeroWalks

namespace FeatureVector

open Binary64

/-! ## One cell -/

/-- What is left in a cell for `x` in the first vector and `y` in the second. -/
def productCell (x y : Float) : Float := if y == zero then zero else y * x

theorem productCell_of_zero {y : Float} (hy : (y == zero) = true) (x : Float) : productCell x y = zero := if_pos hy

theorem productCell_of_not_zero {y : Float} (hy : (y == zero) = false) (x : Float) : productCell x y = y * x :=
  if_neg (Bool.eq_false_iff.mp hy)

/-- What is not finite is no zero. -/
theorem Clashes.not_zero {x y : Float} (h : Clashes x y) : (y == zero) = false := by
  refine Bool.eq_false_iff.mpr fun hy => ?_
  have hfinite := isFinite_eq_false_iff.mpr h.2
  rw [isFinite_of_zero hy] at hfinite
  cases hfinite

/-- A zero passed over leaves a zero, but its product with what is not finite is no number. -/
theorem productCell_of_clash {x y : Float} (h : Clashes x y) : ¬ SameNumber (productCell x y) (productCell y x) := by
  obtain ⟨s, hs⟩ := beq_zero_iff.mp h.1
  have hnan : value (productCell x y) = .nan := by
    rw [productCell_of_not_zero h.not_zero, mul_commutes]
    exact value_zero_mul_of_not_finite hs (isFinite_eq_false_iff.mpr h.2)
  intro hsame
  have hzero := (sameNumber_nan_iff hnan).mp hsame.symm
  rw [productCell_of_zero h.1] at hzero
  revert hzero
  decide

/-- Which of the two vectors is walked shows in a cell exactly if a zero meets there what is
    not finite. -/
theorem productCell_swap_iff (x y : Float) :
    SameNumber (productCell x y) (productCell y x) ↔ ¬ (Clashes x y ∨ Clashes y x) := by
  constructor
  · intro hsame hclash
    rcases hclash with hclash | hclash
    · exact productCell_of_clash hclash hsame
    · exact productCell_of_clash hclash hsame.symm
  · intro hclash
    obtain ⟨hxy, hyx⟩ := not_or.mp hclash
    cases hx : x == zero with
    | true =>
      cases hy : y == zero with
      | true => rw [productCell_of_zero hx, productCell_of_zero hy]; exact .refl zero
      | false =>
        rw [productCell_of_zero hx, productCell_of_not_zero hy, mul_commutes]
        exact sameNumber_zero_iff.mpr (mul_of_zero hx hxy)
    | false =>
      cases hy : y == zero with
      | true =>
        rw [productCell_of_zero hy, productCell_of_not_zero hx, mul_commutes]
        exact (sameNumber_zero_iff.mpr (mul_of_zero hy hyx)).symm
      | false =>
        rw [productCell_of_not_zero hx, productCell_of_not_zero hy, mul_commutes]
        exact .refl _

/-- A cell holds what scaling the second vector gives, but for the sign of a zero, which is positive. -/
theorem productCell_scaled (w : Vect) (x y : Float) :
    SameNumber (productCell x y) ((Arithmetic.scale x).slot w y x) ∧
      ((y == zero) = false → productCell x y = (Arithmetic.scale x).slot w y x ∧ productCell x y = y * x) ∧
      ((y == zero) = true → productCell x y = zero) := by
  cases hy : y == zero with
  | true =>
    have hkept : (Arithmetic.scale x).slot w y x = w.copied y :=
      Arithmetic.slot_of_not_drives (by simp [Arithmetic.drives, hy]) w
    rw [hkept, productCell_of_zero hy]
    refine ⟨((w.sameNumber_copied y).trans (sameNumber_zero_iff.mpr hy)).symm, ?_, fun _ => rfl⟩
    intro h
    cases h
  | false =>
    have hdriven : (Arithmetic.scale x).slot w y x = y * x :=
      Arithmetic.slot_of_drives (by simp [Arithmetic.drives, hy]) w
    rw [hdriven, productCell_of_not_zero hy]
    refine ⟨.refl _, fun _ => ⟨rfl, rfl⟩, ?_⟩
    intro h
    cases h

/-! ## The loops -/

namespace Matrix

/-- The step of a row writes its cells under the vector's non-zero slots, each once. -/
theorem overwritten_scaleRow {w : Vect} (hw : w.WellFormed) {rows row : Nat} (hr : row < rows) (scale : Float)
    {m : Matrix} (hm : Shaped rows w.size m) :
    m.Overwritten (fun r c => if row = r then
        w.slots[c]?.bind fun y => if y == zero then none else some (y * scale) else none)
      (Edit.outcome (w.nonZero.forM fun e => setCell row e.index (e.value * scale)) m).2 := by
  have hindex : ∀ e ∈ w.nonZero, e.index < w.size := fun e he => Vect.index_lt_of_mem_nonZero hw he
  refine (overwritten_forM (fun e r c => if row = r ∧ e.index = c then some (e.value * scale) else none)
    (fun e he => succeeds_setCell hr (hindex e he) _)
    (fun e he m' hm' => overwritten_setCell (hm'.1 ▸ hr) (hm'.2 ▸ hindex e he) _) hm).congr fun r _ c hc => ?_
  have hmem (e : Element) : e ∈ w.nonZero ↔ w.slots[e.index]? = some e.value ∧ (e.value == zero) = false := by
    rw [Vect.nonZero_eq hw, Walk.mem_elements_iff]
    simp [Pace.skips]
  obtain ⟨y, hslot⟩ : ∃ y, w.slots[c]? = some y := by
    refine ⟨_, List.getElem?_eq_getElem ?_⟩
    rw [Vect.length_slots hw, ← hm.2]
    exact hc
  have hvalue {e : Element} (he : e ∈ w.nonZero) (hindex : e.index = c) : e.value = y ∧ (y == zero) = false := by
    obtain ⟨hat, hne⟩ := (hmem e).mp he
    rw [hindex, hslot] at hat
    cases hat
    exact ⟨rfl, hne⟩
  rw [hslot, Option.bind_some]
  cases hy : y == zero with
  | true =>
    -- No step names this column.
    have hnone : ∀ e ∈ w.nonZero, (if row = r ∧ e.index = c then some (e.value * scale) else none) = none := by
      intro e he
      refine if_neg fun h => ?_
      rw [(hvalue he h.2).2] at hy
      cases hy
    rw [List.filterMap_eq_nil_iff.mpr hnone]
    simp
  | false =>
    refine getLast?_filterMap_eq (fun e he => ?_) ⟨⟨c, y⟩, (hmem _).mpr ⟨hslot, hy⟩, by simp⟩
    by_cases h : row = r ∧ e.index = c
    · right
      rw [if_pos h, if_pos h.1, (hvalue he h.2).1]
      simp
    · exact .inl (if_neg h)

end Matrix

namespace Vect

/-- A cell written once holds the product of its slots, if the second is not a zero. -/
theorem overwritten_outer {v w : Vect} (hv : v.WellFormed) (hw : w.WellFormed) {m : Matrix}
    (hm : v.outer w = .ok m) :
    (Matrix.zeros v.size w.size).Overwritten (fun r c => v.slots[r]?.bind fun x =>
      w.slots[c]?.bind fun y => if y == zero then none else some (y * x)) m := by
  have hrow : ∀ row ∈ List.range v.size, row < v.size := fun row h => List.mem_range.mp h
  have hread (row : Nat) (h : row < v.size) : v.slot row = .ok (v.slots[row]?.getD zero) := slot_of_lt hv h
  have hstate : ((((List.range v.size).forM fun row => do
      let scale ← Edit.reading fun _ => v.slot row
      w.nonZero.forM fun e => Matrix.setCell row e.index (e.value * scale)) : Edit Matrix Unit).outcome
        (Matrix.zeros v.size w.size)).2 = m := by
    unfold outer at hm
    exact Edit.state_of_exec hm
  have hzeros : Matrix.Shaped v.size w.size (Matrix.zeros v.size w.size) := ⟨rfl, rfl⟩
  rw [← hstate]
  refine (Matrix.overwritten_forM
    (fun row r c => if row = r then w.slots[c]?.bind fun y =>
      if y == zero then none else some (y * v.slots[row]?.getD zero) else none)
    (fun row h => ?_) (fun row h m' hm' => ?_) hzeros).congr fun r hr c _ => ?_
  · exact Edit.succeeds_bind (Edit.succeeds_reading fun _ _ => ⟨_, hread row (hrow row h)⟩) fun x =>
      Edit.succeeds_forM fun e he => Matrix.succeeds_setCell (hrow row h) (index_lt_of_mem_nonZero hw he) _
  · rw [Edit.outcome_bind, Edit.outcome_reading, hread row (hrow row h)]
    exact Matrix.overwritten_scaleRow hw (hrow row h) _ hm'
  · -- Step `r` alone writes row `r`.
    have hr : r < v.size := hr
    have hslot : v.slots[r]? = some (v.slots[r]?.getD zero) := by
      rw [List.getElem?_eq_getElem (by rw [length_slots hv]; exact hr)]
      rfl
    refine getLast?_filterMap_eq (fun row _ => ?_) ⟨r, List.mem_range.mpr hr, ?_⟩
    · by_cases h : row = r
      · right
        rw [if_pos h, h, hslot]
        rfl
      · exact .inl (if_neg h)
    · rw [if_pos rfl, hslot]
      rfl

/-- One row for each slot of the first vector, one column for each of the second, and every way
    of reading a cell shows its `productCell`. -/
theorem outer_eq {v w : Vect} (hv : v.WellFormed) (hw : w.WellFormed) :
    ∃ m, v.outer w = .ok m ∧ Matrix.Shaped v.size w.size m ∧
      ∀ (i j : Nat) (x y : Float), v.slots[i]? = some x → w.slots[j]? = some y →
        m.Shows i j (productCell x y) := by
  obtain ⟨m, hm, hrows, hcols⟩ := exists_outer hv hw
  refine ⟨m, hm, ⟨hrows, hcols⟩, fun i j x y hx hy => ?_⟩
  have hi : i < v.size := length_slots hv ▸ (List.getElem?_eq_some_iff.mp hx).1
  have hj : j < w.size := length_slots hw ▸ (List.getElem?_eq_some_iff.mp hy).1
  refine Matrix.shows_of_cell (hrows ▸ hi) (hcols ▸ hj) ?_
  rw [(overwritten_outer hv hw hm).cell i hi j hj zero (Matrix.cell_zeros hi hj), hx, hy, Option.bind_some,
    Option.bind_some]
  unfold productCell
  cases y == zero <;> rfl

end Vect

/-- The outer product has the vectors' sizes for its shape. Its row `i` is the second vector
    scaled by slot `i` of the first: to the bit where the second vector is not zero, and a
    positive zero where it is. And the product the other way round, which passes over the first
    vector's zeros instead, has the same number in the transposed cell exactly if no zero of
    one vector meets there what is not finite in the other. -/
theorem outer_product_of_slots {v w : Vect} (hv : v.WellFormed) (hw : w.WellFormed) :
    ∃ m m', v.outer w = .ok m ∧ m.rows = v.size ∧ m.cols = w.size ∧ w.outer v = .ok m' ∧
      (∀ (i : Nat) (x : Float), v.slots[i]? = some x →
        ∃ row d, m.row i = .ok row ∧ row.size = w.size ∧ w.scale x = .ok d ∧ d.size = w.size ∧
          ∀ (j : Nat) (y : Float), w.slots[j]? = some y →
            ∃ r s, m.Shows i j r ∧ row.slot j = .ok r ∧ d.slot j = .ok s ∧ SameNumber r s ∧
              ((y == zero) = false → r = s ∧ r = y * x) ∧ ((y == zero) = true → r = zero)) ∧
      ∀ (i j : Nat) (x y : Float), v.slots[i]? = some x → w.slots[j]? = some y →
        ∃ r r', m.Shows i j r ∧ m'.Shows j i r' ∧ (SameNumber r r' ↔ ¬ (Clashes x y ∨ Clashes y x)) := by
  obtain ⟨m, hm, ⟨hrows, hcols⟩, hcell⟩ := Vect.outer_eq hv hw
  obtain ⟨m', hm', -, hcell'⟩ := Vect.outer_eq hw hv
  refine ⟨m, m', hm, hrows, hcols, hm', fun i x hx => ?_, fun i j x y hx hy => ?_⟩
  · obtain ⟨d, hd, hsize, hslots⟩ := (Arithmetic.scale x).exists_apply hw trivial
    have hi : i < m.rows := by
      rw [hrows, ← Vect.length_slots hv]
      exact (List.getElem?_eq_some_iff.mp hx).1
    have hrow := Matrix.row_of_lt hi
    refine ⟨_, d, hrow, (Matrix.length_rowCells hi).trans hcols, hd, hsize, fun j y hy => ?_⟩
    have hshows := hcell i j x y hx hy
    have hcoln : j < w.slots.length := (List.getElem?_eq_some_iff.mp hy).1
    have hoperand : ((Arithmetic.scale x).operands w.size)[j]? = some x := by
      rw [Arithmetic.operands, List.getElem?_replicate, if_pos (Vect.length_slots hw ▸ hcoln)]
    have hslot : d.slot j = .ok ((Arithmetic.scale x).slot w y x) := by
      rw [Dense.slot_eq_ok, hslots, List.getElem?_zipWith, hy, hoperand]
    obtain ⟨row, hrow', -, hread⟩ := hshows.inRow
    rw [hrow] at hrow'
    cases hrow'
    exact ⟨_, _, hshows, hread, hslot, productCell_scaled w x y⟩
  · exact ⟨_, _, hcell i j x y hx hy, hcell' j i y x hy hx, productCell_swap_iff x y⟩

/-- A window in a window times storage. A zero passed over is positive where scaling keeps its
    sign; transposed it meets a number and stays a zero. The infinity meets a negative zero, and
    only one of the two products makes no number of them. -/
theorem outer_product_of_window_and_storage :
    let v : Vect := .view (.view (.dense (.ofList [9, 2, 1 / zero, 9])) ⟨1, 3, some "outer", none⟩)
      ⟨0, 2, none, none⟩
    let w : Vect := .dense (.ofList [negZero, 3, 5])
    ∃ m m', v.outer w = .ok m ∧ m.rows = 2 ∧ m.cols = 3 ∧ w.outer v = .ok m' ∧
      (∃ d, w.scale 2 = .ok d ∧ d.slot 0 = .ok negZero ∧ m.Shows 0 0 zero ∧ m.Shows 0 1 (3 * 2)) ∧
      (∃ r r', m.Shows 0 0 r ∧ m'.Shows 0 0 r' ∧ SameNumber r r') ∧
      ∃ r r', m.Shows 1 0 r ∧ m'.Shows 0 1 r' ∧ ¬ SameNumber r r' := by
  intro v w
  obtain ⟨m, m', hm, hrows, hcols, hm', hscaled, hswapped⟩ := @outer_product_of_slots v w (by decide) (by decide)
  obtain ⟨row, d, -, -, hd, -, hcells⟩ := hscaled 0 2 rfl
  obtain ⟨r, -, h00, -, -, -, -, hzero⟩ := hcells 0 negZero rfl
  obtain ⟨r', s, h01, -, -, -, hdriven, -⟩ := hcells 1 3 rfl
  obtain ⟨p, p', hp, hp', hsame⟩ := hswapped 0 0 2 negZero rfl rfl
  obtain ⟨q, q', hq, hq', hdiffer⟩ := hswapped 1 0 (1 / zero) negZero rfl rfl
  have hr : r = zero := hzero (by decide)
  have hr' : r' = 3 * 2 := (hdriven (by decide)).2
  rw [hr] at h00
  rw [hr'] at h01
  have hkept : w.scale 2 = .ok (.ofList [negZero, 3 * 2, 5 * 2]) := by decide
  rw [hkept] at hd
  cases hd
  refine ⟨m, m', hm, hrows, hcols, hm', ⟨_, hkept, rfl, h00, h01⟩, ⟨p, p', hp, hp', ?_⟩, q, q', hq, hq',
    fun h => ?_⟩
  · exact hsame.mpr (by decide)
  · have hclash : Clashes negZero (1 / zero) := by decide
    exact hdiffer.mp h (.inr hclash)

end FeatureVector

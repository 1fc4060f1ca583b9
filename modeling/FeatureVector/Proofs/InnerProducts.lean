/-
  FeatureVector.Proofs.InnerProducts — the product of two vectors, which passes over the zeros
  of the first.

  `Vect.dot_eq` reads it off the two lists of slots: the pairs whose first slot is not a zero,
  multiplied and summed up in order. A zero passed over would have added a zero, unless it
  meets an infinity or no number in the other vector (`Clashes`), whose product is no number.
  Without such a clash the product is the sum over all pairs, up to the sign of a zero
  (`Vect.sameNumber_dot`), and in that sum the factors of every pair may change places. So the
  order of the two vectors does not matter (`dot_commutes`), although other slots are visited
  and other terms added up.

  The product of a vector with itself has no clashes (`Vect.dotSelf_eq`).
-/
import FeatureVector.Proofs.Binary64.Sums
import FeatureVector.Proofs.CheckedEdits

namespace FeatureVector

open Binary64

/-- A zero meets what is not finite: their product is no number. -/
def Clashes (x y : Float) : Prop := (x == zero) = true ∧ (y.isNaN = true ∨ y.isInf = true)

instance (x y : Float) : Decidable (Clashes x y) := inferInstanceAs (Decidable (_ ∧ _))

/-- In some place a zero of one list meets what is not finite in the other. -/
def Clash (xs ys : List Float) : Prop := ∃ p ∈ xs.zip ys, Clashes p.1 p.2 ∨ Clashes p.2 p.1

instance (xs ys : List Float) : Decidable (Clash xs ys) := inferInstanceAs (Decidable (∃ p ∈ _, _))

theorem mul_of_zero {x y : Float} (hx : (x == zero) = true) (h : ¬ Clashes x y) : (x * y == zero) = true := by
  obtain ⟨s, hs⟩ := beq_zero_iff.mp hx
  cases hy : y.isFinite with
  | true => exact beq_zero_iff.mpr (value_zero_mul hs hy)
  | false => exact absurd ⟨hx, isFinite_eq_false_iff.mp hy⟩ h

theorem Clash.symm {xs ys : List Float} (h : Clash xs ys) : Clash ys xs := by
  obtain ⟨p, hp, hclash⟩ := h
  refine ⟨p.swap, ?_, hclash.symm⟩
  rw [← List.zip_swap]
  exact List.mem_map_of_mem hp

/-! ## Lists of slots -/

/-- The products of the pairs whose first entry is not a zero, summed up in order. -/
def sumOfProducts (xs ys : List Float) : Float :=
  sum (((xs.zip ys).filter fun p => !(p.1 == zero)).map fun p => p.1 * p.2)

/-- The squares of the entries that are not zero, summed up in order. -/
def sumOfSquares (xs : List Float) : Float := sum ((xs.filter fun x => !(x == zero)).map square)

theorem sumOfProducts_self (xs : List Float) : sumOfProducts xs xs = sumOfSquares xs := by
  have hzip : xs.zip xs = xs.map fun x => (x, x) := List.zipWith_self
  rw [sumOfProducts, hzip, List.filter_map, List.map_map]
  rfl

theorem sameNumber_sumOfProducts {xs ys : List Float} (h : ¬ Clash xs ys) :
    SameNumber (sumOfProducts xs ys) (sum (List.zipWith (· * ·) xs ys)) := by
  have hzip : List.zipWith (· * ·) xs ys = (xs.zip ys).map fun p => p.1 * p.2 := by
    rw [List.zip, List.map_zipWith]
  rw [hzip]
  refine sameNumber_sum_filter fun p hp hzero => mul_of_zero (by simpa using hzero) fun hclash => ?_
  exact h ⟨p, hp, .inl hclash⟩

/-- What a walk over the slots of one vector reads in another of its size. -/
theorem Walk.map_elements_zip (pace : Pace) (g : Float → Float → Float) {xs ys : List Float}
    (h : xs.length = ys.length) :
    (elements pace 0 xs).map (fun e => g e.value (ys[e.index]?.getD zero)) =
      ((xs.zip ys).filter fun p => !pace.skips p.1).map fun p => g p.1 p.2 := by
  have hzip : xs.zip ys = xs.zipIdx.map fun p => (p.1, ys[p.2]?.getD zero) := by
    refine List.ext_getElem (by simp [h]) fun i hi _ => ?_
    have hlt : i < ys.length := by
      rw [List.length_zip] at hi
      omega
    simp [hlt]
  rw [elements_eq_filter, hzip, List.filter_map, List.map_map, List.map_map]
  rfl

/-! ## Vectors -/

namespace Vect

theorem dot_eq {v w : Vect} (hv : v.WellFormed) (hw : w.WellFormed) (hsize : v.size = w.size) :
    v.dot w = .ok (sumOfProducts v.slots w.slots) := by
  have hlength : v.slots.length = w.slots.length := by rw [length_slots hv, length_slots hw, hsize]
  have hterm : ∀ e ∈ v.nonZero, (do return e.value * (← w.slot e.index)) =
      (.ok (e.value * (w.slots[e.index]?.getD zero)) : Except Fault Float) := by
    intro e he
    rw [slot_of_lt hw (hsize ▸ index_lt_of_mem_nonZero hv he)]
    rfl
  unfold dot sumNonZero sumOfProducts
  rw [checkSize_eq_ok.mpr hsize, Edit.mapM_ok hterm, nonZero_eq hv,
    Walk.map_elements_zip .nonZero (· * ·) hlength]
  rfl

theorem dotSelf_eq {v : Vect} (h : v.WellFormed) : v.dotSelf = .ok (sumOfSquares v.slots) := by
  have hdot := dot_eq h h rfl
  unfold dot at hdot
  rw [checkSize_eq_ok.mpr rfl, sumOfProducts_self] at hdot
  exact hdot

/-- Without a clash it is the sum of the products of all pairs. -/
theorem sameNumber_dot {v w : Vect} (hv : v.WellFormed) (hw : w.WellFormed) (hsize : v.size = w.size)
    (h : ¬ Clash v.slots w.slots) :
    ∃ s, v.dot w = .ok s ∧ SameNumber s (sum (List.zipWith (· * ·) v.slots w.slots)) :=
  ⟨_, dot_eq hv hw hsize, sameNumber_sumOfProducts h⟩

end Vect

/-- The product of two vectors is the same number in either order, unless a zero of one meets
    what is not finite in the other. It is that of the sum over every slot. -/
theorem dot_commutes {v w : Vect} (hv : v.WellFormed) (hw : w.WellFormed) (hsize : v.size = w.size)
    (hclash : ¬ Clash v.slots w.slots) :
    ∃ p q, v.dot w = .ok p ∧ w.dot v = .ok q ∧ SameNumber p q ∧
      SameNumber p (sum (List.zipWith (· * ·) v.slots w.slots)) := by
  obtain ⟨p, hp, hsame⟩ := Vect.sameNumber_dot hv hw hsize hclash
  obtain ⟨q, hq, hsame'⟩ := Vect.sameNumber_dot hw hv hsize.symm fun h => hclash h.symm
  have hswap : List.zipWith (· * ·) w.slots v.slots = List.zipWith (· * ·) v.slots w.slots := by
    rw [List.zipWith_comm]
    exact congrArg (List.zipWith · _ _) (funext fun x => funext fun y => mul_commutes y x)
  rw [hswap] at hsame'
  exact ⟨p, q, hp, hq, hsame.trans hsame'.symm, hsame⟩

/-- Storage and a window in a window. One way the sum is a positive zero, the other way, over
    other slots, a negative one. -/
theorem dot_of_storage_and_window :
    let v : Vect := .dense (.ofList [negZero, 3, zero])
    let w : Vect := .view (.view (.dense (.ofList [9, 5, zero, -7, 1 / zero])) ⟨1, 4, some "outer", none⟩)
      ⟨0, 3, none, none⟩
    v.dot w = .ok zero ∧ w.dot v = .ok negZero ∧ SameNumber zero negZero := by
  intro v w
  obtain ⟨p, q, hp, hq, hsame, -⟩ := @dot_commutes v w (by decide) (by decide) rfl (by decide)
  have hpositive : v.dot w = .ok zero := by decide
  have hnegative : w.dot v = .ok negZero := by decide
  rw [hpositive] at hp
  rw [hnegative] at hq
  cases hp
  cases hq
  exact ⟨hpositive, hnegative, hsame⟩

-- a zero that meets an infinity is passed over in one order only
example : (Vect.dense (.ofList [zero])).dot (.dense (.ofList [1 / zero])) = .ok negZero ∧
    (Vect.dense (.ofList [1 / zero])).dot (.dense (.ofList [zero])) = .ok (zero / zero) := by decide

end FeatureVector

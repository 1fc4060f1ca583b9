/-
  FeatureVector.Proofs.Subtraction — subtracting a vector is adding it times minus one.

  The difference passes over the zeros of the second vector, and the sum over those of its
  negated copy. Both have the same zeros, of whatever sign (`negated_slot_beq_zero`), and in the
  other slots `x - y` and `x + y * -1` are the same bits. So the two results are the same
  storage, cached length included (`exists_difference`). Contiguous storage is as far from
  another as that is from it (`sumOfDifferences_swap`).
-/
import FeatureVector.Proofs.Binary64.Negation
import FeatureVector.Proofs.Distances
import FeatureVector.Proofs.Elementwise

namespace FeatureVector

open Binary64

/-! ## The negated copy -/

namespace Arithmetic

/-- Times minus one, a slot is zero exactly if it was. -/
theorem negated_slot_beq_zero (w : Vect) (y : Float) : ((scale (-1)).slot w y (-1) == zero) = (y == zero) := by
  cases hy : y == zero with
  | true =>
    rw [slot_of_not_drives (by simp [drives, hy])]
    exact sameNumber_zero_iff.mp ((w.sameNumber_copied y).trans (sameNumber_zero_iff.mpr hy))
  | false =>
    rw [slot_of_drives (by simp [drives, hy])]
    show (y * -1 == zero) = false
    rw [mul_minus_one, neg_beq_zero, hy]

/-- A slot of the difference, as one of the sum with the negated copy. -/
theorem add_negated_slot (v w n : Vect) (x y : Float) :
    (add n).slot v x ((scale (-1)).slot w y (-1)) = (sub w).slot v x y := by
  have hzero := negated_slot_beq_zero w y
  cases hy : y == zero with
  | true =>
    rw [hy] at hzero
    rw [slot_of_not_drives (by simp [drives, hzero]), slot_of_not_drives (by simp [drives, hy])]
  | false =>
    rw [hy] at hzero
    have hadd : (add n).drives x ((scale (-1)).slot w y (-1)) = true := by simp [drives, hzero]
    have hscale : (scale (-1)).drives y (-1) = true := by simp [drives, hy]
    have hsub : (sub w).drives x y = true := by simp [drives, hy]
    rw [slot_of_drives hadd, slot_of_drives hscale, slot_of_drives hsub]
    exact (sub_eq_add_mul x y).symm

/-- The sum with the negated copy is the difference, as storage with its labels and its cached length. -/
theorem exists_difference {v w : Vect} (hv : v.WellFormed) (hw : w.WellFormed) (hsize : v.size = w.size) :
    ∃ n d, w.scale (-1) = .ok n ∧ v.add (.dense n) = .ok d ∧ v.sub w = .ok d ∧ d.name = v.name ∧
      d.bindings = v.bindings := by
  obtain ⟨n, hn, hnsize, hslots⟩ := exists_apply (scale (-1)) hw trivial
  rw [operands, zipWith_replicate_size hw] at hslots
  have hadd : v.add (.dense n) = _ := @apply_eq (add (.dense n)) v hv ⟨trivial, hsize.trans hnsize.symm⟩
  have hsub : v.sub w = _ := @apply_eq (sub w) v hv ⟨hw, hsize⟩
  have hnslots : (Vect.dense n).slots = w.slots.map fun y => (scale (-1)).slot w y (-1) := hslots
  have hidle : (add (.dense n)).idle v = (sub w).idle v := by
    show (Vect.dense n).slots.all (· == zero) = w.slots.all (· == zero)
    rw [hnslots, List.all_map]
    exact congrArg w.slots.all (funext (negated_slot_beq_zero w))
  have hzip : List.zipWith ((add (.dense n)).slot v) v.slots (Vect.dense n).slots =
      List.zipWith ((sub w).slot v) v.slots w.slots := by
    rw [hnslots, List.zipWith_map_right]
    simp only [add_negated_slot]
  rw [hidle, operands, hzip] at hadd
  exact ⟨n, _, hn, hadd, hsub, rfl, rfl⟩

end Arithmetic

/-! ## Distances -/

/-- Each difference changes its sign, which its square does not show. -/
theorem sumOfDifferences_swap (xs ys : List Float) : sumOfDifferences .every xs ys = sumOfDifferences .every ys xs := by
  rw [sumOfDifferences_every, sumOfDifferences_every, ← List.zip_swap xs ys, List.map_map]
  exact congrArg sum (List.map_congr_left fun p _ => square_sub_comm p.1 p.2)

/-- For vectors of one size in any storage: the first less the second is the first plus the
    second times minus one, in every bit of its slots and under the first's name and bindings.
    If both are contiguous, they are as far apart in either order, to the bit. -/
theorem subtraction_is_negated_addition {v w : Vect} (hv : v.WellFormed) (hw : w.WellFormed) (hsize : v.size = w.size) :
    (∃ n d, w.scale (-1) = .ok n ∧ v.add (.dense n) = .ok d ∧ v.sub w = .ok d ∧ d.name = v.name ∧
      d.bindings = v.bindings) ∧
    (v.kind = .dense → w.kind = .dense → ∃ x, v.distanceSquared w = .ok x ∧ w.distanceSquared v = .ok x) := by
  refine ⟨Arithmetic.exists_difference hv hw hsize, fun hdense hdense' => ?_⟩
  have counts {u : Vect} (hu : u.kind = .dense) : u.counted = .every := by
    cases u with
    | dense d => rfl
    | view p t => cases hu
  refine ⟨_, Vect.distanceSquared_eq hv hw hsize, ?_⟩
  rw [Vect.distanceSquared_eq hw hv hsize.symm, counts hdense, counts hdense', sumOfDifferences_swap]

/-- A window in a window less storage that has its zeros, an infinity and no number elsewhere,
    and two vectors in contiguous storage that differ in the sign of a zero. -/
theorem differences_of_window_and_storage :
    let v : Vect := .view (.view (.dense (.ofList [9, negZero, 3, negZero, 5, 7])) ⟨1, 5, some "outer", none⟩)
      ⟨0, 4, some "inner", none⟩
    let w : Vect := .dense (.ofList [zero, 2, negZero, negInfinity])
    let a : Vect := .dense (.ofList [zero, 1])
    let b : Vect := .dense (.ofList [negZero, 3])
    (∃ n d, w.scale (-1) = .ok n ∧ v.add (.dense n) = .ok d ∧ v.sub w = .ok d ∧ d.name = some "inner" ∧
      d.toList = [zero, 1, zero, 1 / zero]) ∧ a.distanceSquared b = .ok 4 ∧ b.distanceSquared a = .ok 4 := by
  intro v w a b
  obtain ⟨⟨n, d, hn, hadd, hsub, hname, -⟩, -⟩ := @subtraction_is_negated_addition v w (by decide) (by decide) rfl
  obtain ⟨-, hdistance⟩ := @subtraction_is_negated_addition a b (by decide) (by decide) (by decide)
  obtain ⟨x, hab, hba⟩ := hdistance rfl rfl
  have hslots : (v.sub w).map Dense.toList = .ok [zero, 1, zero, 1 / zero] := by decide +kernel
  have hfour : a.distanceSquared b = .ok 4 := by decide
  rw [hsub] at hslots
  rw [hfour] at hab
  cases hab
  exact ⟨⟨n, d, hn, hadd, hsub, hname, Except.ok.inj hslots⟩, hfour, hba⟩

end FeatureVector

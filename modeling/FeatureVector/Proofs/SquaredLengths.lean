/-
  FeatureVector.Proofs.SquaredLengths — the squared length over every slot and the one that
  passes over zeros.

  Contiguous storage answers with the sum of the squares of all its slots, from the cache if
  it was asked before. A window, and the product of a vector with itself, sum up the squares
  of the slots that are not zero. Every square that is passed over is a positive zero and no
  square is a negative one (`square_of_zero`, `square_ne_negZero`), squares that underflow
  included. So both are the same number, whatever the slots hold, and the same bits but for
  one case (`sumOfSquares_cases`): where there are slots and all are zeros, the full sum is a
  positive zero and the other the sum of nothing, a negative one. `lengths_agree` says so for
  storage in any state a caller can bring it to and any window with the same slots.
-/
import FeatureVector.Proofs.Binary64.Roots
import FeatureVector.Proofs.CacheCoherence
import FeatureVector.Proofs.InnerProducts

namespace FeatureVector

open Binary64

/-- Also when it underflows, a square is of positive sign. -/
theorem square_ne_negZero (x : Float) : square x ≠ negZero := by
  rw [Ne, eq_negZero_iff]
  intro h
  cases hx : value x with
  | zero s =>
    rw [square_of_zero (beq_zero_iff.mpr ⟨s, hx⟩), value_zero] at h
    cases h
  | finite s m =>
    rcases (rounds_square hx).cases with ⟨hzero, -⟩ | ⟨m', -, hfinite, -⟩ | ⟨hinf, -⟩
    · rw [h] at hzero
      cases hzero
    · rw [h] at hfinite
      cases hfinite
    · rw [h] at hinf
      cases hinf
  | nan =>
    have hnan : square x = packed .notANumber := by
      rw [square, mul_eq, hx]
      rfl
    rw [hnan, value_packed_nan] at h
    cases h
  | infinite s =>
    have hinf : square x = packed (.infinity (signOf (s != s))) := by
      rw [square, mul_eq, hx, ← signOf_mul]
      rfl
    rw [hinf, value_packed_infinity] at h
    cases h

/-- There are slots, and all are zeros. -/
def AllZeros (xs : List Float) : Prop := xs ≠ [] ∧ ∀ x ∈ xs, (x == zero) = true

instance (xs : List Float) : Decidable (AllZeros xs) := inferInstanceAs (Decidable (_ ∧ _))

/-- The sum of all squares beside the one without those of zeros. -/
theorem sumOfSquares_cases (xs : List Float) : SameNumber (sum (xs.map square)) (sumOfSquares xs) ∧
    (¬ AllZeros xs → sum (xs.map square) = sumOfSquares xs) ∧
      (AllZeros xs → sum (xs.map square) = zero ∧ sumOfSquares xs = negZero) := by
  have hskipped : ∀ x ∈ xs, (!(x == zero)) = false → square x = zero := by
    intro x _ hx
    exact square_of_zero (by simpa using hx)
  have hall : (xs ≠ [] ∧ ∀ x ∈ xs, (!(x == zero)) = false) ↔ AllZeros xs := by simp [AllZeros]
  obtain ⟨hsome, heq⟩ | ⟨hnone, hskipping, hfull⟩ := sum_filter_cases hskipped fun x _ _ => square_ne_negZero x
  · rw [hall] at hsome
    rw [sumOfSquares, heq]
    exact ⟨.refl _, fun _ => rfl, fun h => absurd h hsome⟩
  · rw [hall] at hnone
    rw [sumOfSquares, hskipping, hfull]
    exact ⟨.inl (by decide), fun h => absurd hnone h, fun _ => ⟨rfl, rfl⟩⟩

namespace Vect

theorem dot_self {v : Vect} (h : v.WellFormed) : v.dot v = .ok (sumOfSquares v.slots) := by
  rw [dot_eq h h rfl, sumOfProducts_self]

theorem lengthSquared_view {v : Vect} (h : v.WellFormed) (hkind : v.kind = .view) :
    (lengthSquared.outcome v).1 = .ok (sumOfSquares v.slots) := by
  cases v with
  | dense d => cases hkind
  | view p w =>
    show ((Edit.reading dotSelf).outcome (view p w)).1 = _
    rw [Edit.outcome_reading, dotSelf_eq h]

end Vect

/-- The squared length that storage answers with, from its cache or not, is the sum of all
    squares. It is the same number as that of a window with the same slots and as the product of
    either with itself, and in the same bits unless there are slots and all are zeros. -/
theorem lengths_agree {d : Dense} {w : Vect} (hd : Reached (.dense d)) (hw : w.WellFormed) (hkind : w.kind = .view)
    (hslots : w.slots = d.toList) :
    ∃ full skipping, (Vect.lengthSquared.outcome (.dense d)).1 = .ok full ∧
      (Vect.dense d).dot (.dense d) = .ok skipping ∧ (Vect.lengthSquared.outcome w).1 = .ok skipping ∧
      w.dot w = .ok skipping ∧ full = sum (d.toList.map square) ∧ SameNumber full skipping ∧
      (full.toBits = skipping.toBits ↔ ¬ AllZeros d.toList) ∧
      (AllZeros d.toList → full = zero ∧ skipping = negZero) := by
  have hlength := Vect.lengthSquared_view hw hkind
  have hdot := Vect.dot_self hw
  rw [hslots] at hlength hdot
  obtain ⟨hsame, hbits, hzeros⟩ := sumOfSquares_cases d.toList
  refine ⟨_, _, Vect.lengthSquared_dense (reached_coherent hd), Vect.dot_self trivial, hlength, hdot, rfl, hsame, ?_, hzeros⟩
  rw [Float.toBits_inj]
  refine ⟨fun heq hall => ?_, hbits⟩
  obtain ⟨hfull, hskipping⟩ := hzeros hall
  rw [Dense.fullLengthSquared, hfull] at heq
  exact zero_ne_negZero (heq.trans hskipping)

/-- Storage that has been asked before, a window in a window with its slots, and the two over
    zeros alone. -/
theorem lengths_of_asked_storage_and_window :
    let d : Dense := { Dense.ofList [negZero, 3, zero, 1e-200, 4] with cache := ⟨some 25⟩ }
    let w : Vect := .view (.view (.dense (.ofList [9, negZero, 3, zero, 1e-200, 4])) ⟨1, 5, some "outer", none⟩)
      ⟨0, 5, none, none⟩
    let z : Dense := .ofList [negZero, zero]
    let u : Vect := .view (.dense (.ofList [negZero, zero, 7])) ⟨0, 2, none, none⟩
    ((Vect.lengthSquared.outcome (.dense d)).1 = .ok 25 ∧ (Vect.lengthSquared.outcome w).1 = .ok 25) ∧
      (Vect.lengthSquared.outcome (.dense z)).1 = .ok zero ∧ (Vect.lengthSquared.outcome u).1 = .ok negZero := by
  intro d w z u
  have hasked : (Step.runAll [.lengthSquared] (.dense (.ofList [negZero, 3, zero, 1e-200, 4]))).2 = .dense d := by
    decide +kernel
  have hd : Reached (.dense d) := hasked ▸ (Reached.made _ _ _).runAll [.lengthSquared]
  obtain ⟨full, skipping, hfull, -, hskipping, -, -, -, hbits, -⟩ := @lengths_agree d w hd (by decide) rfl rfl
  have hsame : full = skipping := Float.toBits_inj.mp (hbits.mpr (by decide))
  have hcached : (Vect.lengthSquared.outcome (.dense d)).1 = .ok 25 := by decide
  rw [hcached] at hfull
  cases hfull
  obtain ⟨full', skipping', hfull', -, hskipping', -, -, -, -, hzeros⟩ :=
    @lengths_agree z u (Reached.made _ _ _) (by decide) rfl rfl
  obtain ⟨rfl, rfl⟩ := hzeros (by decide)
  exact ⟨⟨hcached, hsame ▸ hskipping⟩, hfull', hskipping'⟩

end FeatureVector

/-
  FeatureVector.Proofs.Normalization — when a normalized vector still has a direction.

  A vector is normalized by the root of the sum of its squares. That sum is rounded, and may
  leave the range of doubles although every slot is in it: the squares of small slots all
  underflow, and the slots are divided by zero; the square of a large one overflows, and the
  slots are divided by infinity. `normalized_direction_iff`: for a vector of finite slots,
  not all zero, these are the only ways to lose the direction. Whenever the sum is a finite
  double other than zero, every slot of the result is finite and not all of them are zero.

  `tiny_vector_normalizes_to_infinity` is a vector that loses it.
-/
import FeatureVector.Proofs.Binary64.Roots
import FeatureVector.Proofs.Elementwise
import FeatureVector.Proofs.InnerProducts

namespace FeatureVector

open Binary64

/-- Every slot is finite, and not all are zero. -/
def IsDirection (xs : List Float) : Prop := (∀ x ∈ xs, x.isFinite = true) ∧ ∃ x ∈ xs, (x == zero) = false

/-! ## The sum of the squares -/

theorem exists_finite {x : Float} (hfinite : x.isFinite = true) (hne : (x == zero) = false) :
    ∃ s m, value x = .finite s m := by
  rw [isFinite_eq] at hfinite
  cases hx : value x with
  | finite s m => exact ⟨s, m, rfl⟩
  | zero s => simp [beq_zero_iff.mpr ⟨s, hx⟩] at hne
  | nan | infinite s =>
    rw [hx] at hfinite
    cases hfinite

section

variable {xs : List Float} (hfinite : ∀ x ∈ xs, x.isFinite = true)

include hfinite

theorem nonneg_sumOfSquares : Nonneg (sumOfSquares xs) ∧
    (∀ x ∈ xs, (x == zero) = false → extent (square x) ≤ extent (sumOfSquares xs)) ∧
      ((sumOfSquares xs == zero) = true ↔ ∀ x ∈ xs, (square x == zero) = true) := by
  have hsquare : ∀ t ∈ (xs.filter fun x => !(x == zero)).map square, Nonneg t := by
    intro t ht
    obtain ⟨x, hx, rfl⟩ := List.mem_map.mp ht
    obtain ⟨hmem, hne⟩ := List.mem_filter.mp hx
    obtain ⟨s, m, hm⟩ := exists_finite (hfinite x hmem) (by simpa using hne)
    exact (rounds_square hm).nonneg
  have hmem {x : Float} (hx : x ∈ xs) (hne : (x == zero) = false) :
      square x ∈ (xs.filter fun x => !(x == zero)).map square :=
    List.mem_map_of_mem (List.mem_filter.mpr ⟨hx, by simp [hne]⟩)
  obtain ⟨hnonneg, hle, hzero⟩ := nonneg_sum hsquare
  refine ⟨hnonneg, fun x hx hne => hle _ (hmem hx hne), ?_⟩
  rw [beq_zero_iff]
  refine hzero.trans ⟨fun h x hx => ?_, fun h t ht => ?_⟩
  · rw [beq_zero_iff]
    by_cases hne : (x == zero) = true
    · obtain ⟨s, hs⟩ := beq_zero_iff.mp hne
      exact value_zero_mul hs (hfinite x hx)
    · exact h _ (hmem hx (Bool.eq_false_iff.mpr hne))
  · obtain ⟨x, hx, rfl⟩ := List.mem_map.mp ht
    exact beq_zero_iff.mp (h x (List.mem_filter.mp hx).1)

/-- Divided by the root of a sum that is a finite double other than zero, no entry overflows
    and one at least does not underflow. -/
theorem quotients_of_finite_sum {m : Magnitude} (hs : value (sumOfSquares xs) = .finite false m) :
    (∀ x ∈ xs, (x == zero) = false → (x / (sumOfSquares xs).sqrt).isFinite = true) ∧
      ∃ x ∈ xs, (x == zero) = false ∧ (x / (sumOfSquares xs).sqrt == zero) = false := by
  obtain ⟨-, hle, hzero⟩ := nonneg_sumOfSquares hfinite
  obtain ⟨r, hr, hlow, hhigh⟩ := exists_sqrt hs
  have hm := canonical_of_value hs
  refine ⟨fun x hx hne => ?_, ?_⟩
  · obtain ⟨s, n, hn⟩ := exists_finite (hfinite x hx) hne
    have hsquare := hle x hx hne
    rw [extent_finite hs] at hsquare
    have hnear := sq_le_of_extent_le hn hm hsquare
    exact isFinite_quotient hn hr (by linarith)
  · have hsome : ∃ x ∈ xs, (square x == zero) = false := by
      by_contra hnone
      have hall : (sumOfSquares xs == zero) = true := hzero.mpr fun x hx => by
        by_contra h
        exact hnone ⟨x, hx, Bool.eq_false_iff.mpr h⟩
      obtain ⟨s, hzs⟩ := beq_zero_iff.mp hall
      rw [hs] at hzs
      cases hzs
    obtain ⟨x, hx, hsquare⟩ := hsome
    have hne : (x == zero) = false := by
      rw [Bool.eq_false_iff]
      intro hxz
      obtain ⟨s, hs⟩ := beq_zero_iff.mp hxz
      have hsz : (square x == zero) = true := beq_zero_iff.mpr (value_zero_mul hs (hfinite x hx))
      rw [hsquare] at hsz
      cases hsz
    obtain ⟨s, n, hn⟩ := exists_finite (hfinite x hx) hne
    have hbound : r.toRat ^ 2 < 2 ^ (1028 : Int) := by
      have hsixteen : 16 * (2 : ℚ) ^ (1024 : Int) = 2 ^ (1028 : Int) := by
        rw [show (16 : ℚ) = 2 ^ (4 : Int) by norm_num, ← zpow_add₀ (by norm_num)]
        rfl
      calc r.toRat ^ 2 < 16 * m.toRat := hhigh
        _ < 16 * 2 ^ (1024 : Int) := (mul_lt_mul_iff_right₀ (by norm_num)).mpr (Magnitude.toRat_lt hm)
        _ = 2 ^ (1028 : Int) := hsixteen
    exact ⟨x, hx, hne, quotient_not_zero hn hr (le_sq_of_not_zero hn hsquare) hbound⟩

end

/-! ## The normalized vector -/

/-- The slots of a vector divided by a number: zeros are passed over. -/
def dividedSlots (v : Vect) (c : Float) : List Float := v.slots.map fun x => (Arithmetic.divScalar c).slot v x c

theorem Vect.normalize_eq {v : Vect} (h : v.WellFormed) : ∃ d, v.normalize = .ok d ∧ d.size = v.size ∧
    d.toList = dividedSlots v (sumOfSquares v.slots).sqrt := by
  obtain ⟨d, happly, hsize, hslots⟩ :=
    (Arithmetic.divScalar (sumOfSquares v.slots).sqrt).exists_apply h trivial
  refine ⟨d, ?_, hsize, hslots.trans (Arithmetic.zipWith_replicate_size h _ _)⟩
  unfold normalize
  rw [dotSelf_eq h]
  exact happly

section

variable {v : Vect} {x : Float}

theorem slot_divScalar (hx : (x == zero) = false) (c : Float) : (Arithmetic.divScalar c).slot v x c = x / c :=
  Arithmetic.slot_of_drives (by simp [Arithmetic.drives, hx]) v

theorem slot_divScalar_zero (hx : (x == zero) = true) (c : Float) :
    ((Arithmetic.divScalar c).slot v x c == zero) = true := by
  rw [Arithmetic.slot_of_not_drives (by simp [Arithmetic.drives, hx])]
  exact sameNumber_zero_iff.mp ((v.sameNumber_copied x).trans (sameNumber_zero_iff.mpr hx))

variable (hfinite : ∀ x ∈ v.slots, x.isFinite = true)

include hfinite

theorem isInf_of_sum_zero {s : Bool} (hs : value (sumOfSquares v.slots) = .zero s) (hx : x ∈ v.slots)
    (hne : (x == zero) = false) : (x / (sumOfSquares v.slots).sqrt).isInf = true := by
  obtain ⟨t, m, hm⟩ := exists_finite (hfinite x hx) hne
  exact value_div_zero hm (value_sqrt_zero hs)

theorem zero_of_sum_infinite (hs : value (sumOfSquares v.slots) = .infinite false) :
    ∀ r ∈ dividedSlots v (sumOfSquares v.slots).sqrt, (r == zero) = true := by
  intro r hr
  obtain ⟨x, hx, rfl⟩ := List.mem_map.mp hr
  by_cases hne : (x == zero) = true
  · exact slot_divScalar_zero hne _
  · rw [slot_divScalar (Bool.eq_false_iff.mpr hne)]
    obtain ⟨t, m, hm⟩ := exists_finite (hfinite x hx) (Bool.eq_false_iff.mpr hne)
    exact value_div_infinite hm (value_sqrt_infinite hs)

theorem isDirection_of_sum_finite {m : Magnitude} (hs : value (sumOfSquares v.slots) = .finite false m) :
    IsDirection (dividedSlots v (sumOfSquares v.slots).sqrt) := by
  obtain ⟨hquotients, x, hx, hne, hquotient⟩ := quotients_of_finite_sum hfinite hs
  refine ⟨fun r hr => ?_, _, List.mem_map_of_mem hx, ?_⟩
  · obtain ⟨y, hy, rfl⟩ := List.mem_map.mp hr
    by_cases hne : (y == zero) = true
    · exact isFinite_of_zero (slot_divScalar_zero hne _)
    · rw [slot_divScalar (Bool.eq_false_iff.mpr hne)]
      exact hquotients y hy (Bool.eq_false_iff.mpr hne)
  · rw [slot_divScalar hne]
    exact hquotient

end

/-- The sum of the squares of a vector of finite slots, not all zero, decides whether the
    normalized vector has a direction: it has one exactly if the sum is a finite double other
    than zero. The sum is zero exactly if every square underflows, and then every slot other
    than zero becomes infinite; if it overflows, every slot becomes a zero. -/
theorem normalized_direction_iff {v : Vect} (hv : v.WellFormed) (h : IsDirection v.slots) :
    ∃ s d, v.dotSelf = .ok s ∧ v.normalize = .ok d ∧ d.size = v.size ∧
      (IsDirection d.toList ↔ s.isFinite = true ∧ (s == zero) = false) ∧
      ((s == zero) = true ↔ ∀ x ∈ v.slots, (x * x == zero) = true) ∧
      ((s == zero) = true → ∀ (i : Nat) (x : Float), v.slots[i]? = some x → (x == zero) = false →
        ∃ r, d.toList[i]? = some r ∧ r.isInf = true) ∧
      (s.isFinite = false → ∀ r ∈ d.toList, (r == zero) = true) := by
  obtain ⟨hfinite, x₀, hx₀, hne₀⟩ := h
  obtain ⟨hnonneg, -, hzero⟩ := nonneg_sumOfSquares hfinite
  obtain ⟨d, hd, hsize, hslots⟩ := Vect.normalize_eq hv
  refine ⟨sumOfSquares v.slots, d, Vect.dotSelf_eq hv, hd, hsize, ?_, hzero, ?_, ?_⟩
  · rw [hslots, hnonneg.positive_iff]
    refine ⟨fun hdirection => ?_, fun ⟨m, hm⟩ => isDirection_of_sum_finite hfinite hm⟩
    obtain ⟨hall, r, hr, hne⟩ := hdirection
    rcases hnonneg with ⟨t, ht⟩ | hpositive | hinf
    · have hquotient := hall _ (List.mem_map_of_mem hx₀)
      rw [slot_divScalar hne₀, isFinite_eq_false_iff.mpr (.inr (isInf_of_sum_zero hfinite ht hx₀ hne₀))] at hquotient
      cases hquotient
    · exact hpositive
    · rw [zero_of_sum_infinite hfinite hinf r hr] at hne
      cases hne
  · intro hs i x hx hne
    obtain ⟨t, ht⟩ := beq_zero_iff.mp hs
    refine ⟨x / (sumOfSquares v.slots).sqrt, ?_, isInf_of_sum_zero hfinite ht (List.mem_of_getElem? hx) hne⟩
    rw [hslots, dividedSlots, List.getElem?_map, hx, Option.map_some, slot_divScalar hne]
  · intro hs
    rw [hslots]
    exact zero_of_sum_infinite hfinite (hnonneg.infinite_iff.mp hs)

/-- A window in a window of ordinary slots, one of them zero. -/
theorem normalized_window_has_direction :
    let v : Vect := .view (.view (.dense (.ofList [9, 3, zero, -4, 7])) ⟨1, 4, some "outer", none⟩) ⟨0, 3, none, none⟩
    ∃ d, v.normalize = .ok d ∧ d.size = 3 ∧ IsDirection d.toList := by
  intro v
  have hdirection : IsDirection v.slots := ⟨by decide, by decide⟩
  obtain ⟨s, d, hs, hd, hsize, hiff, -⟩ := normalized_direction_iff (v := v) (by decide) hdirection
  have hsum : v.dotSelf = .ok 25 := by decide
  rw [hsum] at hs
  cases hs
  exact ⟨d, hd, hsize, hiff.mpr (by decide)⟩

/-- The square of the only slot underflows, and the slot is divided by zero. -/
theorem tiny_vector_normalizes_to_infinity :
    let v : Vect := .dense (.ofList [1e-200])
    v.WellFormed ∧ IsDirection v.slots ∧
      ¬ ∃ d, v.normalize = .ok d ∧ IsDirection d.toList := by
  intro v
  have hinf : v.normalize = .ok (.ofList [1 / zero]) := by decide +kernel
  refine ⟨trivial, ⟨by decide +kernel, by decide +kernel⟩, ?_⟩
  rintro ⟨d, hd, hfinite, -⟩
  rw [hinf] at hd
  cases hd
  have hslot := hfinite (1 / zero) List.mem_cons_self
  revert hslot
  decide

-- the square of the only slot overflows, and the slot is divided by infinity
example : (Vect.dense (.ofList [1e200])).normalize = .ok (.ofList [zero]) := by decide +kernel

end FeatureVector

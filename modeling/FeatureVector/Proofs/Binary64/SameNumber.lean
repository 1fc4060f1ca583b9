/-
  FeatureVector.Proofs.Binary64.SameNumber — when two doubles count as one result, and what a
  zero does to a sum, a difference, a product and a quotient.

  `SameNumber x y`: equal as numbers, or neither is one; then the bits are the same too, unless
  both are zeros (`SameNumber.bits`). Summands and factors may change places (`add_commutes`,
  `mul_commutes`), and a summand stays the number it is when a zero of either sign is added or
  taken away (`sameNumber_add_zero`, `sameNumber_sub_zero`). A zero times a finite double is a
  zero, but times an infinity or no number it is no number (`value_zero_mul`,
  `value_zero_mul_of_not_finite`); divided by a zero or by no number it is no number, by
  anything else a zero (`value_zero_div`, `value_zero_div_of`).
-/
import FeatureVector.Proofs.Binary64.Bits

namespace FeatureVector.Binary64

open Float.Model Float.Model.UnpackedFloat

/-- Equal as numbers, or both no number. Only the sign of a zero is lost. -/
def SameNumber (x y : Float) : Prop := (x == y) = true ∨ (x.isNaN = true ∧ y.isNaN = true)

theorem sameNumber_iff {x y : Float} :
    SameNumber x y ↔ x = y ∨ ∃ s t, value x = .zero s ∧ value y = .zero t := by
  unfold SameNumber
  rw [beq_iff, isNaN_iff, isNaN_iff]
  constructor
  · rintro (⟨-, h | h⟩ | ⟨hx, hy⟩)
    · exact .inl (value_inj h)
    · exact .inr h
    · exact .inl (value_inj (hx.trans hy.symm))
  · rintro (rfl | ⟨s, t, hx, hy⟩)
    · by_cases h : value x = .nan
      · exact .inr ⟨h, h⟩
      · exact .inl ⟨h, .inl rfl⟩
    · exact .inl ⟨by rw [hx]; nofun, .inr ⟨s, t, hx, hy⟩⟩

theorem SameNumber.refl (x : Float) : SameNumber x x := sameNumber_iff.mpr (.inl rfl)

theorem SameNumber.symm {x y : Float} (h : SameNumber x y) : SameNumber y x := by
  rcases sameNumber_iff.mp h with rfl | ⟨s, t, hx, hy⟩
  · exact h
  · exact sameNumber_iff.mpr (.inr ⟨t, s, hy, hx⟩)

theorem SameNumber.trans {x y z : Float} (h : SameNumber x y) (h' : SameNumber y z) : SameNumber x z := by
  rcases sameNumber_iff.mp h with rfl | ⟨s, t, hx, hy⟩
  · exact h'
  · rcases sameNumber_iff.mp h' with rfl | ⟨_, t', -, hz⟩
    · exact h
    · exact sameNumber_iff.mpr (.inr ⟨s, t', hx, hz⟩)

/-- Only zeros are the same number in different bits. -/
theorem SameNumber.bits {x y : Float} (h : SameNumber x y) :
    x.toBits = y.toBits ∨ (x == zero) = true ∧ (y == zero) = true := by
  rcases sameNumber_iff.mp h with rfl | ⟨s, t, hx, hy⟩
  · exact .inl rfl
  · exact .inr ⟨beq_zero_iff.mpr ⟨s, hx⟩, beq_zero_iff.mpr ⟨t, hy⟩⟩

/-- Zeros of either sign are the same number. -/
theorem sameNumber_of_zeros {x y : Float} (hx : (x == zero) = true) (hy : (y == zero) = true) : SameNumber x y := by
  obtain ⟨s, hs⟩ := beq_zero_iff.mp hx
  obtain ⟨t, ht⟩ := beq_zero_iff.mp hy
  exact sameNumber_iff.mpr (.inr ⟨s, t, hs, ht⟩)

theorem not_isNaN_of_zero {x : Float} (hx : (x == zero) = true) : x.isNaN = false := by
  obtain ⟨s, hs⟩ := beq_zero_iff.mp hx
  refine Bool.eq_false_iff.mpr fun hnan => ?_
  rw [isNaN_iff.mp hnan] at hs
  cases hs

theorem isFinite_of_zero {x : Float} (hx : (x == zero) = true) : x.isFinite = true := by
  obtain ⟨s, hs⟩ := beq_zero_iff.mp hx
  rw [isFinite_eq, hs]
  rfl

theorem sameNumber_zero_iff {x : Float} : SameNumber x zero ↔ (x == zero) = true := by
  constructor
  · intro h
    rcases h with h | ⟨-, hnan⟩
    · exact h
    · exact absurd hnan (by decide)
  · exact .inl

theorem sameNumber_nan_iff {x y : Float} (hy : value y = .nan) : SameNumber x y ↔ x.isNaN = true := by
  rw [sameNumber_iff, isNaN_iff]
  constructor
  · rintro (rfl | ⟨_, t, -, h⟩)
    · exact hy
    · rw [hy] at h
      cases h
  · intro hx
    exact .inl (value_inj (hx.trans hy.symm))

/-! ## Arithmetic with zeros -/

theorem add_eq (x y : Float) : x + y = packed ((value x).unpacked.add .binary64 (value y).unpacked) := by
  rw [← unpack_eq, ← unpack_eq]
  rfl

theorem mul_eq (x y : Float) : x * y = packed ((value x).unpacked.mul .binary64 (value y).unpacked) := by
  rw [← unpack_eq, ← unpack_eq]
  rfl

theorem sub_eq (x y : Float) : x - y = packed ((value x).unpacked.sub .binary64 (value y).unpacked) := by
  rw [← unpack_eq, ← unpack_eq]
  rfl

theorem div_eq (x y : Float) : x / y = packed ((value x).unpacked.div .binary64 (value y).unpacked) := by
  rw [← unpack_eq, ← unpack_eq]
  rfl

theorem unpacked_add_commutes (u v : UnpackedFloat) : u.add .binary64 v = v.add .binary64 u := by
  cases u with
  | notANumber => cases v <;> rfl
  | infinity s =>
    cases v with
    | infinity t => cases s <;> cases t <;> rfl
    | notANumber | zero _ | finite _ _ _ _ => rfl
  | zero s =>
    cases v with
    | zero t => cases s <;> cases t <;> rfl
    | notANumber | infinity _ | finite _ _ _ _ => rfl
  | finite s m e _ =>
    cases v with
    | finite t n f _ =>
      -- both significands are brought to the smaller exponent, whichever comes first
      simp only [UnpackedFloat.add, min_comm e f, add_comm (s.apply _)]
    | notANumber | infinity _ | zero _ => rfl

theorem add_commutes (x y : Float) : x + y = y + x := by
  rw [add_eq, add_eq, unpacked_add_commutes]

theorem unpacked_mul_commutes (u v : UnpackedFloat) : u.mul .binary64 v = v.mul .binary64 u := by
  have hsign (s t : Sign) : s * t = t * s := by
    cases s <;> cases t <;> rfl
  cases u with
  | notANumber => cases v <;> rfl
  | infinity s | zero s =>
    cases v with
    | notANumber => rfl
    | infinity t | zero t | finite t _ _ _ => simp only [UnpackedFloat.mul, hsign s t]
  | finite s m e _ =>
    cases v with
    | notANumber => rfl
    | infinity t | zero t => simp only [UnpackedFloat.mul, hsign s t]
    | finite t n f _ => simp only [UnpackedFloat.mul, hsign s t, mul_comm m n, add_comm e f]

theorem mul_commutes (x y : Float) : x * y = y * x := by
  rw [mul_eq, mul_eq, unpacked_mul_commutes]

/-- A sum with something that is no number is no number. -/
theorem value_add_nan (x : Float) {y : Float} (hy : value y = .nan) : value (x + y) = .nan := by
  have hadd : (value x).unpacked.add .binary64 .notANumber = .notANumber := by
    cases (value x).unpacked <;> rfl
  rw [add_eq, hy, Value.unpacked, hadd, value_packed_nan]

/-- Zeros of either sign leave a summand the number it is. -/
theorem sameNumber_add_zero (x : Float) {z : Float} {negative : Bool} (hz : value z = .zero negative) :
    SameNumber x (x + z) := by
  rw [sameNumber_iff, add_eq, hz, Value.unpacked]
  by_cases hx : ∃ s, value x = .zero s
  · obtain ⟨s, hs⟩ := hx
    right
    rw [hs, Value.unpacked]
    cases s <;> cases negative
    · exact ⟨false, false, rfl, value_packed_zero false⟩
    · exact ⟨false, false, rfl, value_packed_zero false⟩
    · exact ⟨true, false, rfl, value_packed_zero false⟩
    · exact ⟨true, true, rfl, value_packed_zero true⟩
  · left
    have hadd : (value x).unpacked.add .binary64 (.zero (signOf negative)) = (value x).unpacked := by
      cases hv : value x with
      | zero s => exact absurd ⟨s, hv⟩ hx
      | nan | infinite s => rfl
      | finite s m =>
        rw [Value.unpacked_finite s (canonical_of_value hv)]
        rfl
    rw [hadd, packed_unpacked]

/-- A zero taken away is a zero of the other sign added. -/
theorem sameNumber_sub_zero (x : Float) {z : Float} {negative : Bool} (hz : value z = .zero negative) :
    SameNumber x (x - z) := by
  have hsub : (value x).unpacked.sub .binary64 (.zero (signOf negative)) =
      (value x).unpacked.add .binary64 (value (packed (.zero (signOf (!negative))))).unpacked := by
    rw [value_packed_zero]
    cases (value x).unpacked with
    | zero s => cases s <;> cases negative <;> rfl
    | notANumber | infinity _ | finite _ _ _ _ => rfl
  rw [sub_eq, hz, Value.unpacked, hsub, ← add_eq]
  exact sameNumber_add_zero x (value_packed_zero _)

theorem exists_signOf (sign : Sign) : ∃ negative, sign = signOf negative := by
  cases sign with
  | positive => exact ⟨false, rfl⟩
  | negative => exact ⟨true, rfl⟩

/-- A zero times a finite double is a zero. -/
theorem value_zero_mul {z y : Float} {negative : Bool} (hz : value z = .zero negative) (hy : y.isFinite = true) :
    ∃ s, value (z * y) = .zero s := by
  have hmul : ∃ sign, (UnpackedFloat.zero (signOf negative)).mul .binary64 (value y).unpacked = .zero sign := by
    rw [isFinite_eq] at hy
    revert hy
    cases (value y).unpacked with
    | notANumber | infinity _ => exact nofun
    | zero _ | finite _ _ _ _ => exact fun _ => ⟨_, rfl⟩
  obtain ⟨sign, hmul⟩ := hmul
  obtain ⟨s, rfl⟩ := exists_signOf sign
  exact ⟨s, by rw [mul_eq, hz, Value.unpacked, hmul, value_packed_zero]⟩

/-- A zero times a double that is not finite is no number. -/
theorem value_zero_mul_of_not_finite {z y : Float} {negative : Bool} (hz : value z = .zero negative)
    (hy : y.isFinite = false) : value (z * y) = .nan := by
  have hmul : (UnpackedFloat.zero (signOf negative)).mul .binary64 (value y).unpacked = .notANumber := by
    rw [isFinite_eq] at hy
    revert hy
    cases (value y).unpacked with
    | notANumber | infinity _ => exact fun _ => rfl
    | zero _ | finite _ _ _ _ => exact nofun
  rw [mul_eq, hz, Value.unpacked, hmul, value_packed_nan]

/-- A zero divided by a number other than zero is a zero. -/
theorem value_zero_div {z y : Float} {negative : Bool} (hz : value z = .zero negative) (hnan : y.isNaN = false)
    (hy : (y == zero) = false) : ∃ s, value (z / y) = .zero s := by
  have hdiv : ∃ sign, (UnpackedFloat.zero (signOf negative)).div .binary64 (value y).unpacked = .zero sign := by
    cases hv : value y with
    | nan => exact absurd (isNaN_iff.mpr hv) (Bool.eq_false_iff.mp hnan)
    | zero s => exact absurd (beq_zero_iff.mpr ⟨s, hv⟩) (Bool.eq_false_iff.mp hy)
    | infinite s => exact ⟨_, rfl⟩
    | finite s m =>
      rw [Value.unpacked_finite s (canonical_of_value hv)]
      exact ⟨_, rfl⟩
  obtain ⟨sign, hdiv⟩ := hdiv
  obtain ⟨s, rfl⟩ := exists_signOf sign
  exact ⟨s, by rw [div_eq, hz, Value.unpacked, hdiv, value_packed_zero]⟩

/-- A zero divided by a zero or by no number is no number. -/
theorem value_zero_div_of {z y : Float} {negative : Bool} (hz : value z = .zero negative)
    (hy : y.isNaN = true ∨ (y == zero) = true) : value (z / y) = .nan := by
  have hdiv : (UnpackedFloat.zero (signOf negative)).div .binary64 (value y).unpacked = .notANumber := by
    rcases hy with hy | hy
    · rw [isNaN_iff.mp hy]
      rfl
    · obtain ⟨s, hs⟩ := beq_zero_iff.mp hy
      rw [hs]
      rfl
  rw [div_eq, hz, Value.unpacked, hdiv, value_packed_nan]

/-- What is not finite is infinite or no number. -/
theorem isFinite_eq_false_iff {x : Float} : x.isFinite = false ↔ x.isNaN = true ∨ x.isInf = true := by
  have hnan : x.isNaN = (value x).unpacked.isNaN := by
    rw [← unpack_eq]
    rfl
  have hinf : x.isInf = (value x).unpacked.isInf := by
    rw [← unpack_eq]
    rfl
  rw [isFinite_eq, hnan, hinf]
  cases (value x).unpacked <;> simp [UnpackedFloat.isFinite, UnpackedFloat.isNaN, UnpackedFloat.isInf]

end FeatureVector.Binary64

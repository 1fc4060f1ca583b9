/-
  FeatureVector.Proofs.Binary64.Negation — the double of the other sign, and what differences
  have to do with it.

  Core's packing and rounding treat the sign apart from everything else (`unpack_pack_neg`,
  `round_neg`), so negating a double changes the sign of its value and nothing more
  (`value_neg`). Multiplying by minus one does the same (`mul_minus_one`). A difference is the
  sum with the negated double, to the bit (`sub_eq_add_negated`); taken the other way round it is
  the negated difference, unless both are zeros, which may have the same sign
  (`sameNumber_sub_swap`). Squares see neither (`square_sub_comm`).
-/
import FeatureVector.Proofs.Binary64.Sums

namespace FeatureVector.Binary64

open Float.Model Float.Model.UnpackedFloat

/-! ## Signs -/

theorem sign_neg_neg (s : Sign) : - -s = s := by
  cases s <;> rfl

theorem sign_apply_neg (s : Sign) (n : Int) : (-s).apply n = -s.apply n := by
  cases s with
  | positive => rfl
  | negative => exact (Int.neg_neg n).symm

theorem neg_signOf (negative : Bool) : -signOf negative = signOf !negative := by
  cases negative <;> rfl

/-! ## Core's steps under the other sign -/

theorem unpack_packComponents_neg (s : Sign) (exponent : BitVec 11) (fraction : BitVec 52) :
    UnpackedFloat.unpack .binary64 (packComponents .binary64 (-s) exponent fraction) =
      (UnpackedFloat.unpack .binary64 (packComponents .binary64 s exponent fraction)).neg := by
  unfold UnpackedFloat.unpack
  simp only [unpackMantissa_packComponents, unpackExponent_packComponents, unpackSign_packComponents,
    Sign.ofBitVec_toBitVec]
  split_ifs <;> rfl

theorem unpack_pack_neg (u : UnpackedFloat) : UnpackedFloat.unpack .binary64 (UnpackedFloat.pack .binary64 u.neg) =
    (UnpackedFloat.unpack .binary64 (UnpackedFloat.pack .binary64 u)).neg := by
  cases u with
  | notANumber =>
    have hnan : UnpackedFloat.unpack .binary64 (UnpackedFloat.pack .binary64 .notANumber) = .notANumber :=
      UnpackedFloat.isNaN_iff.mp (by decide)
    rw [UnpackedFloat.neg, hnan]
    rfl
  | infinity s | zero s => exact unpack_packComponents_neg s _ _
  | finite s significand exponent hpos =>
    simp only [UnpackedFloat.neg, UnpackedFloat.pack]
    split_ifs
    · exact unpack_packComponents_neg s _ _
    · exact unpack_packComponents_neg s _ _
    · exact unpack_packComponents_neg s _ _

theorem round_neg (s : Sign) (n : Nat) (e : Int) :
    UnpackedFloat.round .binary64 (-s) n e = (UnpackedFloat.round .binary64 s n e).neg := by
  simp only [UnpackedFloat.round, roundWithAccuracy]
  split <;> rfl

/-- Both are a positive zero for zero itself. -/
theorem normalize_neg (i e : Int) :
    UnpackedFloat.normalize .binary64 (-i) e .positive = (UnpackedFloat.normalize .binary64 i e .positive).neg ∨
      i = 0 := by
  by_cases hzero : i = 0
  · exact .inr hzero
  · left
    rcases lt_or_gt_of_ne hzero with hlt | hgt
    · have hi : compare i 0 = .lt := Int.compare_eq_lt.mpr hlt
      have hneg : compare (-i) 0 = .gt := Int.compare_eq_gt.mpr (by omega)
      simp only [UnpackedFloat.normalize, hi, hneg]
      exact round_neg .negative _ e
    · have hi : compare i 0 = .gt := Int.compare_eq_gt.mpr hgt
      have hneg : compare (-i) 0 = .lt := Int.compare_eq_lt.mpr (by omega)
      simp only [UnpackedFloat.normalize, hi, hneg, Int.neg_neg]
      exact round_neg .positive _ e

theorem unpacked_sub_eq (u v : UnpackedFloat) : u.sub .binary64 v = u.add .binary64 v.neg := by
  cases u with
  | notANumber => cases v <;> rfl
  | infinity s | zero s => cases v <;> rfl
  | finite s m e _ =>
    cases v with
    | notANumber | infinity _ | zero _ => rfl
    | finite t n f _ => simp only [UnpackedFloat.sub, UnpackedFloat.add, UnpackedFloat.neg, sign_apply_neg, sub_eq_add_neg]

/-- Taken the other way round, a difference has the other sign. Zeros may keep theirs. -/
theorem unpacked_sub_swap (u v : UnpackedFloat) : v.sub .binary64 u = (u.sub .binary64 v).neg ∨
    ∃ s t, v.sub .binary64 u = .zero s ∧ u.sub .binary64 v = .zero t := by
  cases u with
  | notANumber =>
    left
    cases v <;> rfl
  | infinity s =>
    left
    cases v with
    | infinity t => cases s <;> cases t <;> rfl
    | notANumber | zero _ | finite _ _ _ _ => rfl
  | zero s =>
    cases v with
    | zero t =>
      right
      cases s <;> cases t <;> exact ⟨_, _, rfl, rfl⟩
    | notANumber => exact .inl rfl
    | infinity t | finite t _ _ _ =>
      left
      simp only [UnpackedFloat.sub, UnpackedFloat.neg, sign_neg_neg]
  | finite s m e _ =>
    cases v with
    | notANumber | zero _ => exact .inl rfl
    | infinity t =>
      left
      simp only [UnpackedFloat.sub, UnpackedFloat.neg, sign_neg_neg]
    | finite t n f _ =>
      simp only [UnpackedFloat.sub, min_comm f e]
      generalize ((decreaseExponent m e (min e f)).1 : Int) = a
      generalize ((decreaseExponent n f (min e f)).1 : Int) = b
      rw [← Int.neg_sub]
      rcases normalize_neg (s.apply a - t.apply b) (min e f) with hneg | hzero
      · exact .inl hneg
      · rw [hzero]
        exact .inr ⟨_, _, rfl, rfl⟩

/-! ## Negated doubles -/

/-- The value with the other sign. -/
def Value.neg : Value → Value
  | .nan => .nan
  | .infinite negative => .infinite !negative
  | .zero negative => .zero !negative
  | .finite negative m => .finite (!negative) m

theorem Value.canonical_neg {v : Value} (h : v.Canonical) : v.neg.Canonical := by
  cases v with
  | finite negative m => exact h
  | nan | infinite _ | zero _ => trivial

theorem Value.unpacked_neg {v : Value} (h : v.Canonical) : v.neg.unpacked = v.unpacked.neg := by
  cases v with
  | nan => rfl
  | infinite negative | zero negative => simp only [neg, unpacked, neg_signOf, UnpackedFloat.neg]
  | finite negative m =>
    rw [neg, unpacked_finite _ h, unpacked_finite _ h, ← neg_signOf]
    rfl

theorem value_packed_neg (u : UnpackedFloat) : value (packed u.neg) = (value (packed u)).neg := by
  have hu := canonical_value (packed u)
  refine value_of_unpack (Value.canonical_neg hu) ?_
  rw [unpack_packed, unpack_pack_neg, ← unpack_packed, unpack_eq, Value.unpacked_neg hu]

theorem value_neg (x : Float) : value (-x) = (value x).neg := by
  have hneg : -x = packed (value x).unpacked.neg := by
    rw [← unpack_eq]
    rfl
  rw [hneg, value_packed_neg, packed_unpacked]

theorem packed_neg (u : UnpackedFloat) : packed u.neg = -packed u :=
  value_inj ((value_packed_neg u).trans (value_neg _).symm)

/-- Subtracting is adding the negated double. -/
theorem sub_eq_add_negated (x y : Float) : x - y = x + -y := by
  rw [sub_eq, add_eq, value_neg, Value.unpacked_neg (canonical_value y), unpacked_sub_eq]

theorem value_neg_one : value (-1) = .finite true ⟨2 ^ 52, -52, true⟩ := by decide

/-- Multiplying by minus one changes the sign and nothing more. -/
theorem mul_minus_one (x : Float) : x * -1 = -x := by
  apply value_inj
  rw [value_neg]
  have hsign (s : Bool) : signOf s * .negative = signOf !s := by
    cases s <;> rfl
  cases hx : value x with
  | nan =>
    rw [mul_eq, hx]
    exact value_packed_nan
  | infinite s =>
    rw [mul_eq, hx, value_neg_one]
    exact (congrArg (fun t => value (packed (.infinity t))) (hsign s)).trans (value_packed_infinity _)
  | zero s =>
    rw [mul_eq, hx, value_neg_one]
    exact (congrArg (fun t => value (packed (.zero t))) (hsign s)).trans (value_packed_zero _)
  | finite s m =>
    have hm := canonical_of_value hx
    have hone : Magnitude.toRat ⟨2 ^ 52, -52, true⟩ = 1 := by norm_num [Magnitude.toRat]
    have hrounds := roundsAs_mul hx value_neg_one
    rw [hone, mul_one] at hrounds
    rw [hrounds.value_of_catches hm (Magnitude.catches_toRat hm)]
    cases s <;> rfl

theorem neg_beq_zero (x : Float) : (-x == zero) = (x == zero) := by
  rw [Bool.eq_iff_iff, beq_zero_iff, beq_zero_iff, value_neg]
  cases value x <;> simp [Value.neg]

theorem sub_eq_add_mul (x y : Float) : x - y = x + y * -1 := by
  rw [mul_minus_one, sub_eq_add_negated]

theorem sameNumber_sub_swap (x y : Float) : SameNumber (y - x) (-(x - y)) := by
  rw [sub_eq, sub_eq, ← packed_neg]
  rcases unpacked_sub_swap (value x).unpacked (value y).unpacked with hneg | ⟨s, t, hs, ht⟩
  · rw [hneg]
    exact .refl _
  · obtain ⟨a, rfl⟩ := exists_signOf s
    obtain ⟨b, rfl⟩ := exists_signOf t
    rw [hs, ht]
    refine sameNumber_iff.mpr (.inr ⟨a, !b, value_packed_zero a, ?_⟩)
    rw [UnpackedFloat.neg, neg_signOf]
    exact value_packed_zero _

/-! ## Squares -/

theorem square_neg (x : Float) : square (-x) = square x := by
  have hmul (u : UnpackedFloat) : u.neg.mul .binary64 u.neg = u.mul .binary64 u := by
    cases u with
    | notANumber => rfl
    | infinity s | zero s | finite s _ _ _ => cases s <;> rfl
  rw [square, square, mul_eq, mul_eq, value_neg, Value.unpacked_neg (canonical_value x), hmul]

theorem SameNumber.square_eq {x y : Float} (h : SameNumber x y) : square x = square y := by
  rcases sameNumber_iff.mp h with rfl | ⟨s, t, hs, ht⟩
  · rfl
  · rw [square_of_zero (beq_zero_iff.mpr ⟨s, hs⟩), square_of_zero (beq_zero_iff.mpr ⟨t, ht⟩)]

theorem square_sub_comm (x y : Float) : square (x - y) = square (y - x) := by
  rw [(sameNumber_sub_swap x y).square_eq, square_neg]

end FeatureVector.Binary64

/-
  FeatureVector.Proofs.Binary64.Reals — the reals that round to a double.

  A finite double is `significand · 2 ^ exponent` in canonical form (`canonical_of_value`).
  It catches the reals up to half way to its neighbours, which lie half as far below when it
  is the least of its binade; the two ends belong to it when its significand is even
  (`Magnitude.Catches`). Neither is more than twice the other (`Catches.le_two_mul`). In a
  power of ten fine enough the ends are whole numbers: the `Interval` the decimal writer
  searches is this one (`Interval.contains_ofMagnitude`).
-/
import Mathlib.Algebra.Order.Field.Power
import Mathlib.Algebra.Order.Field.Rat
import Mathlib.Tactic
import FeatureVector.Decimal

namespace FeatureVector

namespace Binary64.Magnitude

/-- What the bits of a finite double can say. -/
structure Canonical (m : Magnitude) : Prop where
  pos : 0 < m.significand
  lt : m.significand < 2 ^ 53
  least : -1074 ≤ m.exponent
  greatest : m.exponent ≤ 971
  full : m.exponent = -1074 ∨ 2 ^ 52 ≤ m.significand
  thin : m.thinBelow = true ↔ m.significand = 2 ^ 52 ∧ -1074 < m.exponent

/-- Significand and exponent say where the neighbours lie. -/
theorem Canonical.ext {m m' : Magnitude} (h : m.Canonical) (h' : m'.Canonical)
    (hsig : m.significand = m'.significand) (hexp : m.exponent = m'.exponent) : m = m' := by
  have hthin : m.thinBelow = m'.thinBelow := by
    rw [Bool.eq_iff_iff, h.thin, h'.thin, hsig, hexp]
  cases m
  cases m'
  cases hsig
  cases hexp
  cases hthin
  rfl

def toRat (m : Magnitude) : ℚ := m.significand * 2 ^ m.exponent

/-- The lower end, in quarters of the last place. -/
def lowQuarters (m : Magnitude) : Nat := 4 * m.significand - if m.thinBelow then 1 else 2

/-- The upper end, in quarters of the last place. -/
def highQuarters (m : Magnitude) : Nat := 4 * m.significand + 2

/-- The real is nearest to this double; half way, the significand is even. -/
def Catches (m : Magnitude) (v : ℚ) : Prop :=
  if m.significand % 2 = 0 then
    m.lowQuarters * 2 ^ (m.exponent - 2) ≤ v ∧ v ≤ m.highQuarters * 2 ^ (m.exponent - 2)
  else m.lowQuarters * 2 ^ (m.exponent - 2) < v ∧ v < m.highQuarters * 2 ^ (m.exponent - 2)

instance (m : Magnitude) (v : ℚ) : Decidable (m.Catches v) := by
  unfold Catches
  infer_instance

theorem Catches.low_le {m : Magnitude} {v : ℚ} (h : m.Catches v) :
    m.lowQuarters * 2 ^ (m.exponent - 2) ≤ v := by
  unfold Catches at h
  split at h
  · exact h.1
  · exact h.1.le

theorem Catches.le_high {m : Magnitude} {v : ℚ} (h : m.Catches v) :
    v ≤ m.highQuarters * 2 ^ (m.exponent - 2) := by
  unfold Catches at h
  split at h
  · exact h.2
  · exact h.2.le

/-! A double and what it catches. -/

theorem toRat_eq_quarters (m : Magnitude) : m.toRat = 4 * m.significand * 2 ^ (m.exponent - 2) := by
  rw [toRat, zpow_sub₀ (by norm_num)]
  norm_num
  ring

theorem lowQuarters_ge (m : Magnitude) : 4 * (m.significand : ℚ) - 2 ≤ m.lowQuarters := by
  have hle : 4 * m.significand ≤ m.lowQuarters + 2 := by
    unfold lowQuarters
    split <;> omega
  have hq : ((4 * m.significand : Nat) : ℚ) ≤ ((m.lowQuarters + 2 : Nat) : ℚ) := by exact_mod_cast hle
  push_cast at hq
  linarith

section

variable {m : Magnitude} (hm : m.Canonical) {v : ℚ}

include hm

theorem toRat_pos : 0 < m.toRat := by
  have hpos : (0 : ℚ) < m.significand := by exact_mod_cast hm.pos
  exact mul_pos hpos (by positivity)

/-- A double catches itself. -/
theorem catches_toRat : m.Catches m.toRat := by
  have hunit : (0 : ℚ) < 2 ^ (m.exponent - 2) := by positivity
  have hpos := hm.pos
  have hlow : (m.lowQuarters : ℚ) < 4 * m.significand := by
    have : m.lowQuarters < 4 * m.significand := by
      unfold lowQuarters
      split <;> omega
    exact_mod_cast this
  have hhigh : 4 * (m.significand : ℚ) < m.highQuarters := by
    unfold highQuarters
    push_cast
    linarith
  rw [toRat_eq_quarters]
  unfold Catches
  rw [mul_le_mul_iff_left₀ hunit, mul_le_mul_iff_left₀ hunit, mul_lt_mul_iff_left₀ hunit,
    mul_lt_mul_iff_left₀ hunit]
  split
  · exact ⟨hlow.le, hhigh.le⟩
  · exact ⟨hlow, hhigh⟩

/-- From one on, significands have all their bits. -/
theorem Catches.full (h : m.Catches v) (hv : 1 ≤ v) : 2 ^ 52 ≤ m.significand := by
  refine hm.full.resolve_left fun hexp => ?_
  have hhigh := h.le_high
  have hle : (m.highQuarters : ℚ) ≤ 2 ^ 56 := by
    have hlt := hm.lt
    have : m.highQuarters ≤ 2 ^ 56 := by
      unfold highQuarters
      omega
    exact_mod_cast this
  have hpow : (2 : ℚ) ^ (m.exponent - 2) ≤ 2 ^ (-57 : Int) :=
    zpow_le_zpow_right₀ (by norm_num) (by omega)
  have hsmall : (m.highQuarters : ℚ) * 2 ^ (m.exponent - 2) ≤ 2 ^ 56 * 2 ^ (-57 : Int) :=
    mul_le_mul hle hpow (by positivity) (by positivity)
  norm_num at hsmall
  linarith

/-- Of a double and what it catches, neither is more than twice the other. -/
theorem Catches.le_two_mul (h : m.Catches v) : v ≤ 2 * m.toRat ∧ m.toRat ≤ 2 * v := by
  have hhigh := h.le_high
  have hlow := h.low_le
  have hunit : (0 : ℚ) < 2 ^ (m.exponent - 2) := by positivity
  have hrat : m.toRat = 4 * m.significand * 2 ^ (m.exponent - 2) := m.toRat_eq_quarters
  have hpos : (1 : ℚ) ≤ m.significand := by exact_mod_cast hm.pos
  have hq := m.lowQuarters_ge
  constructor
  · refine le_trans hhigh ?_
    rw [hrat, highQuarters, ← mul_assoc]
    push_cast
    exact (mul_le_mul_iff_left₀ hunit).mpr (by linarith)
  · refine le_trans ?_ (mul_le_mul_of_nonneg_left hlow (by norm_num : (0 : ℚ) ≤ 2))
    rw [hrat, ← mul_assoc]
    exact (mul_le_mul_iff_left₀ hunit).mpr (by linarith)

omit hm in
/-- Rounding adds at most one part in `2 ^ 53 - 1`. -/
theorem Catches.toRat_le (h : m.Catches v) (hfull : 2 ^ 52 ≤ m.significand) :
    (2 ^ 53 - 1) * m.toRat ≤ 2 ^ 53 * v := by
  have hlow := h.low_le
  have hunit : (0 : ℚ) < 2 ^ (m.exponent - 2) := by positivity
  have hquarters := m.lowQuarters_ge
  have hsig : (2 : ℚ) ^ 52 ≤ m.significand := by exact_mod_cast hfull
  have hrat : m.toRat = 4 * m.significand * 2 ^ (m.exponent - 2) := m.toRat_eq_quarters
  calc (2 ^ 53 - 1) * m.toRat = ((2 ^ 53 - 1) * (4 * m.significand)) * 2 ^ (m.exponent - 2) := by
        rw [hrat]
        ring
    _ ≤ (2 ^ 53 * (4 * (m.significand : ℚ) - 2)) * 2 ^ (m.exponent - 2) :=
        (mul_le_mul_iff_left₀ hunit).mpr (by linarith)
    _ ≤ 2 ^ 53 * (m.lowQuarters * 2 ^ (m.exponent - 2)) := by
        rw [mul_assoc]
        exact (mul_le_mul_iff_right₀ (by positivity)).mpr ((mul_le_mul_iff_left₀ hunit).mpr hquarters)
    _ ≤ 2 ^ 53 * v := (mul_le_mul_iff_right₀ (by positivity)).mpr hlow

end

end Binary64.Magnitude

namespace Binary64

theorem canonical_of_valueOfBits {bits : Nat} {negative : Bool} {m : Magnitude}
    (h : valueOfBits bits = .finite negative m) : m.Canonical := by
  unfold valueOfBits at h
  extract_lets sign biased fraction at h
  have hfraction : fraction < 2 ^ 52 := Nat.mod_lt _ (by decide)
  have hbiased : biased < 2 ^ 11 := Nat.mod_lt _ (by decide)
  clear_value sign biased fraction
  split at h
  · split at h <;> cases h
  · rename_i hinf
    split at h
    · split at h
      · cases h
      · rename_i hzero
        cases h
        constructor
        · exact Nat.pos_of_ne_zero hzero
        · show fraction < 2 ^ 53
          omega
        · exact le_refl _
        · show (-1074 : Int) ≤ 971
          decide
        · exact Or.inl rfl
        · simp
    · rename_i hsub
      cases h
      constructor
      · show 0 < 2 ^ 52 + fraction
        omega
      · show 2 ^ 52 + fraction < 2 ^ 53
        omega
      · show (-1074 : Int) ≤ (biased : Int) - 1075
        omega
      · show (biased : Int) - 1075 ≤ 971
        omega
      · right
        show 2 ^ 52 ≤ 2 ^ 52 + fraction
        omega
      · show (fraction == 0 && decide (1 < biased)) = true ↔
          2 ^ 52 + fraction = 2 ^ 52 ∧ (-1074 : Int) < (biased : Int) - 1075
        rw [Bool.and_eq_true, beq_iff_eq, decide_eq_true_eq]
        omega

theorem canonical_of_value {x : Float} {negative : Bool} {m : Magnitude}
    (h : value x = .finite negative m) : m.Canonical := canonical_of_valueOfBits h

end Binary64

/-! ## The interval in powers of ten -/

namespace Interval

open Binary64

/-- A quarter of the last place is a whole number of units. -/
theorem factor_mul_scale (quarter : Int) :
    ((if 0 ≤ quarter then 2 ^ quarter.toNat else 5 ^ (-quarter).toNat : Nat) : ℚ) * 10 ^ (min quarter 0) =
      2 ^ quarter := by
  by_cases h : 0 ≤ quarter
  · rw [if_pos h, min_eq_right h, zpow_zero, mul_one, Nat.cast_pow, ← zpow_natCast, Int.toNat_of_nonneg h]
    norm_num
  · have hneg : ((-quarter).toNat : Int) = -quarter := Int.toNat_of_nonneg (by omega)
    rw [if_neg h, min_eq_left (by omega), Nat.cast_pow, ← zpow_natCast, hneg,
      show (10 : ℚ) = 5 * 2 by norm_num, mul_zpow, ← mul_assoc, zpow_neg]
    push_cast
    rw [inv_mul_cancel₀ (by positivity), one_mul]

variable (m : Magnitude)

theorem low_mul_scale :
    ((ofMagnitude m).low : ℚ) * 10 ^ (ofMagnitude m).scale = m.lowQuarters * 2 ^ (m.exponent - 2) := by
  rw [← factor_mul_scale, ← mul_assoc, ← Nat.cast_mul]
  rfl

theorem high_mul_scale :
    ((ofMagnitude m).high : ℚ) * 10 ^ (ofMagnitude m).scale = m.highQuarters * 2 ^ (m.exponent - 2) := by
  rw [← factor_mul_scale, ← mul_assoc, ← Nat.cast_mul]
  rfl

/-- The interval the writer searches holds the multiples of its unit that round to the double. -/
theorem contains_ofMagnitude (x : Nat) :
    (ofMagnitude m).contains x = true ↔ m.Catches (x * 10 ^ (ofMagnitude m).scale) := by
  have hunit : (0 : ℚ) < 10 ^ (ofMagnitude m).scale := by positivity
  unfold contains Magnitude.Catches
  rw [← low_mul_scale, ← high_mul_scale, mul_le_mul_iff_left₀ hunit, mul_le_mul_iff_left₀ hunit,
    mul_lt_mul_iff_left₀ hunit, mul_lt_mul_iff_left₀ hunit,
    show (ofMagnitude m).closed = (m.significand % 2 == 0) from rfl]
  by_cases h : m.significand % 2 = 0 <;> simp [h]

end Interval

end FeatureVector

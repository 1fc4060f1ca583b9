/-
  FeatureVector.Proofs.Binary64.Rounding — rounding a real to the nearest double.

  A positive real is placed at a power of two when 53 bits reach from it to that power
  (`Placed`); its multiple nearest to the real, half way the even one (`Nearest`), is what
  it is rounded to, carried over when it takes one bit more (`carry`). This gives a double
  exactly when the double catches the real (`catches_iff`), so no two doubles catch the same
  one (`Magnitude.Catches.unique`).
-/
import Mathlib.Data.Int.Log
import FeatureVector.Proofs.Binary64.Reals

namespace FeatureVector.Binary64

open Float.Model Float.Model.UnpackedFloat

/-! ## Rounding a real -/

/-- The whole number nearest to the real; half way, it is even. -/
def Nearest (r : Nat) (x : ℚ) : Prop :=
  if r % 2 = 0 then (r : ℚ) - 1 / 2 ≤ x ∧ x ≤ r + 1 / 2 else (r : ℚ) - 1 / 2 < x ∧ x < r + 1 / 2

theorem Nearest.ge {r : Nat} {x : ℚ} (h : Nearest r x) : (r : ℚ) - 1 / 2 ≤ x := by
  unfold Nearest at h
  split at h
  · exact h.1
  · exact h.1.le

theorem Nearest.le {r : Nat} {x : ℚ} (h : Nearest r x) : x ≤ r + 1 / 2 := by
  unfold Nearest at h
  split at h
  · exact h.2
  · exact h.2.le

theorem Nearest.not_lt {r r' : Nat} {x : ℚ} (h : Nearest r x) (h' : Nearest r' x) : ¬ r < r' := by
  intro hlt
  have hle : (r : ℚ) + 1 ≤ r' := by exact_mod_cast hlt
  have hr := h.le
  have hr' := h'.ge
  unfold Nearest at h h'
  -- only two neighbours can share a point, half way between them, and one of them is odd
  have heq : (r' : ℚ) = r + 1 := by linarith
  have heq' : r' = r + 1 := by exact_mod_cast heq
  split at h <;> split at h'
  · omega
  · linarith [h'.1]
  · linarith [h.2]
  · omega

theorem Nearest.unique {r r' : Nat} {x : ℚ} (h : Nearest r x) (h' : Nearest r' x) : r = r' := by
  have := h.not_lt h'
  have := h'.not_lt h
  omega

theorem exists_nearest {x : ℚ} (hx : 0 ≤ x) : ∃ r, Nearest r x := by
  obtain ⟨n, hle, hlt⟩ : ∃ n : Nat, (n : ℚ) ≤ x ∧ x < n + 1 := ⟨⌊x⌋₊, Nat.floor_le hx, Nat.lt_floor_add_one x⟩
  rcases lt_trichotomy x (n + 1 / 2) with hbelow | hhalf | habove
  · refine ⟨n, ?_⟩
    unfold Nearest
    split <;> constructor <;> linarith
  · refine ⟨n + n % 2, ?_⟩
    unfold Nearest
    rw [if_pos (by omega)]
    rcases Nat.mod_two_eq_zero_or_one n with hmod | hmod
    · rw [hmod]
      push_cast
      constructor <;> linarith
    · rw [hmod]
      push_cast
      constructor <;> linarith
  · refine ⟨n + 1, ?_⟩
    unfold Nearest
    push_cast
    split <;> constructor <;> linarith

/-- The last place of the double nearest to the real, a carry apart. -/
structure Placed (v : ℚ) (t : Int) : Prop where
  least : -1074 ≤ t
  lt : v < 2 ^ 53 * 2 ^ t
  full : t = -1074 ∨ 2 ^ 52 * 2 ^ t ≤ v

theorem two_mul_zpow (t : Int) : (2 : ℚ) * 2 ^ t = 2 ^ (t + 1) := by
  rw [zpow_add₀ (by norm_num), zpow_one, mul_comm]

theorem Placed.not_lt {v : ℚ} {t t' : Int} (h : Placed v t) (h' : Placed v t') : ¬ t < t' := by
  intro hlt
  have hpow : (2 : ℚ) ^ (t + 1) ≤ 2 ^ t' := zpow_le_zpow_right₀ (by norm_num) hlt
  rcases h'.full with hleast | hfull
  · have := h.least
    omega
  · have hv := h.lt
    rw [← two_mul_zpow] at hpow
    linarith

theorem Placed.unique {v : ℚ} {t t' : Int} (h : Placed v t) (h' : Placed v t') : t = t' := by
  have := h.not_lt h'
  have := h'.not_lt h
  omega

theorem exists_placed {v : ℚ} (hv : 0 < v) : ∃ t, Placed v t := by
  obtain ⟨k, hk⟩ : ∃ k, Int.log 2 v = k := ⟨_, rfl⟩
  have hge : (2 : ℚ) ^ k ≤ v := hk ▸ Int.zpow_log_le_self (by decide) hv
  have hlt : v < 2 ^ (k + 1) := hk ▸ Int.lt_zpow_succ_log_self (by decide) v
  refine ⟨max (-1074) (k - 52), le_max_left _ _, ?_, ?_⟩
  · calc v < 2 ^ (k + 1) := hlt
      _ ≤ 2 ^ ((53 : Nat) + max (-1074) (k - 52)) := zpow_le_zpow_right₀ (by norm_num) (by omega)
      _ = 2 ^ 53 * 2 ^ max (-1074) (k - 52) := by rw [zpow_add₀ (by norm_num), zpow_natCast]
  · by_cases hsmall : k - 52 ≤ -1074
    · exact .inl (max_eq_left hsmall)
    · right
      rw [max_eq_right (by omega)]
      calc (2 : ℚ) ^ 52 * 2 ^ (k - 52) = 2 ^ ((52 : Nat) + (k - 52)) := by rw [zpow_add₀ (by norm_num), zpow_natCast]
        _ = 2 ^ k := by congr 1; omega
        _ ≤ v := hge

/-- A multiple of 54 bits becomes one of 53. -/
def carry (r : Nat) (t : Int) : Nat × Int := if r = 2 ^ 53 then (2 ^ 52, t + 1) else (r, t)

theorem Placed.le_of_nearest {v : ℚ} {t : Int} {r : Nat} (h : Placed v t) (hr : Nearest r (v / 2 ^ t)) :
    r ≤ 2 ^ 53 := by
  have hunit : (0 : ℚ) < 2 ^ t := by positivity
  have hlt : v / 2 ^ t < 2 ^ 53 := (div_lt_iff₀ hunit).mpr h.lt
  have hge := hr.ge
  have hr : (r : ℚ) < ((2 ^ 53 + 1 : Nat) : ℚ) := by
    push_cast
    linarith
  have : r < 2 ^ 53 + 1 := by exact_mod_cast hr
  omega

/-! ## What a double catches -/

section

variable {m : Magnitude} (hm : m.Canonical) {v : ℚ}

/-- In units of the last place. -/
theorem catches_iff_div :
    m.Catches v ↔ if m.significand % 2 = 0 then
      (m.lowQuarters : ℚ) / 4 ≤ v / 2 ^ m.exponent ∧ v / 2 ^ m.exponent ≤ m.highQuarters / 4
      else (m.lowQuarters : ℚ) / 4 < v / 2 ^ m.exponent ∧ v / 2 ^ m.exponent < m.highQuarters / 4 := by
  have hunit : (0 : ℚ) < 2 ^ m.exponent := by positivity
  have hquarter : (2 : ℚ) ^ (m.exponent - 2) = 2 ^ m.exponent / 4 := by
    rw [zpow_sub₀ (by norm_num)]
    norm_num
  unfold Magnitude.Catches
  rw [hquarter, le_div_iff₀ hunit, div_le_iff₀ hunit, lt_div_iff₀ hunit, div_lt_iff₀ hunit,
    div_mul_eq_mul_div, div_mul_eq_mul_div, mul_div_assoc', mul_div_assoc']

include hm

theorem catches_iff_of_not_thin (h : m.thinBelow = false) :
    m.Catches v ↔ Nearest m.significand (v / 2 ^ m.exponent) := by
  have hpos := hm.pos
  have hlow : (m.lowQuarters : ℚ) / 4 = m.significand - 1 / 2 := by
    have : ((m.lowQuarters + 2 : Nat) : ℚ) = ((4 * m.significand : Nat) : ℚ) := by
      congr 1
      simp only [Magnitude.lowQuarters, h, Bool.false_eq_true, if_false]
      omega
    push_cast at this
    linarith
  have hhigh : (m.highQuarters : ℚ) / 4 = m.significand + 1 / 2 := by
    unfold Magnitude.highQuarters
    push_cast
    ring
  rw [catches_iff_div, hlow, hhigh, Nearest]

theorem catches_iff_of_thin (h : m.thinBelow = true) :
    m.Catches v ↔ (2 : ℚ) ^ 52 - 1 / 4 ≤ v / 2 ^ m.exponent ∧ v / 2 ^ m.exponent ≤ 2 ^ 52 + 1 / 2 := by
  obtain ⟨hsig, -⟩ := hm.thin.mp h
  have hlow : (m.lowQuarters : ℚ) / 4 = 2 ^ 52 - 1 / 4 := by
    simp only [Magnitude.lowQuarters, h, hsig, if_true]
    norm_num
  have hhigh : (m.highQuarters : ℚ) / 4 = 2 ^ 52 + 1 / 2 := by
    simp only [Magnitude.highQuarters, hsig]
    norm_num
  rw [catches_iff_div, hlow, hhigh, hsig, if_pos (by decide)]

/-- The multiple of the double's own last place is the significand. -/
theorem carry_eq_of_placed {t : Int} {r : Nat} (hp : Placed v t) (hr : Nearest r (v / 2 ^ t))
    (hplaced : Placed v m.exponent) (hnear : Nearest m.significand (v / 2 ^ m.exponent)) :
    carry r t = (m.significand, m.exponent) := by
  obtain rfl := hp.unique hplaced
  rw [hr.unique hnear, carry, if_neg hm.lt.ne]

/-- At the end of the binade below, the multiple of that one's last place carries over. -/
theorem carry_eq_of_below {t : Int} {r : Nat} (hp : Placed v t) (hr : Nearest r (v / 2 ^ t))
    (hthin : m.thinBelow = true) (hlow : (2 : ℚ) ^ 52 - 1 / 4 ≤ v / 2 ^ m.exponent)
    (hhigh : v / 2 ^ m.exponent < 2 ^ 52) : carry r t = (m.significand, m.exponent) := by
  obtain ⟨hsig, hexp⟩ := hm.thin.mp hthin
  have hhalf : v / 2 ^ (m.exponent - 1) = 2 * (v / 2 ^ m.exponent) := by
    rw [zpow_sub₀ (by norm_num), zpow_one]
    field_simp
  have hunit : (0 : ℚ) < 2 ^ (m.exponent - 1) := by positivity
  have hplaced : Placed v (m.exponent - 1) := by
    refine ⟨by omega, ?_, Or.inr ?_⟩
    · rw [← div_lt_iff₀ hunit, hhalf]
      linarith
    · rw [← le_div_iff₀ hunit, hhalf]
      linarith
  obtain rfl := hp.unique hplaced
  have hnear : Nearest (2 ^ 53) (v / 2 ^ (m.exponent - 1)) := by
    rw [Nearest, if_pos (by decide), hhalf]
    push_cast
    constructor <;> linarith
  rw [hr.unique hnear, hsig, carry, if_pos rfl, Int.sub_add_cancel]

/-- A double with neighbours equally far away rounds in its own binade. -/
theorem placed_of_nearest (hthin : m.thinBelow = false) (hnear : Nearest m.significand (v / 2 ^ m.exponent)) :
    Placed v m.exponent := by
  have hunit : (0 : ℚ) < 2 ^ m.exponent := by positivity
  have hlt : (m.significand : ℚ) + 1 ≤ 2 ^ 53 := by exact_mod_cast hm.lt
  refine ⟨hm.least, ?_, ?_⟩
  · rw [← div_lt_iff₀ hunit]
    linarith [hnear.le]
  · by_cases hexp : m.exponent = -1074
    · exact Or.inl hexp
    · right
      have hfull := hm.full.resolve_left hexp
      have hne : m.significand ≠ 2 ^ 52 := by
        intro hsig
        have := hm.thin.mpr ⟨hsig, lt_of_le_of_ne hm.least (Ne.symm hexp)⟩
        rw [hthin] at this
        cases this
      have hge : (2 : ℚ) ^ 52 + 1 ≤ m.significand := by
        exact_mod_cast lt_of_le_of_ne hfull (Ne.symm hne)
      rw [← le_div_iff₀ hunit]
      linarith [hnear.ge]

theorem Magnitude.Catches.carry_eq {t : Int} {r : Nat} (h : m.Catches v) (hp : Placed v t)
    (hr : Nearest r (v / 2 ^ t)) : carry r t = (m.significand, m.exponent) := by
  have hunit : (0 : ℚ) < 2 ^ m.exponent := by positivity
  by_cases hthin : m.thinBelow = true
  · obtain ⟨hsig, -⟩ := hm.thin.mp hthin
    obtain ⟨hlow, hhigh⟩ := (catches_iff_of_thin hm hthin).mp h
    by_cases hv : 2 ^ 52 ≤ v / 2 ^ m.exponent
    · have hplaced : Placed v m.exponent := by
        refine ⟨hm.least, ?_, Or.inr ((le_div_iff₀ hunit).mp hv)⟩
        rw [← div_lt_iff₀ hunit]
        linarith
      refine carry_eq_of_placed hm hp hr hplaced ?_
      rw [hsig, Nearest, if_pos (by decide)]
      push_cast
      constructor <;> linarith
    · exact carry_eq_of_below hm hp hr hthin hlow (not_le.mp hv)
  · rw [Bool.not_eq_true] at hthin
    have hnear := (catches_iff_of_not_thin hm hthin).mp h
    exact carry_eq_of_placed hm hp hr (placed_of_nearest hm hthin hnear) hnear

theorem catches_of_carry_eq {t : Int} {r : Nat} (hp : Placed v t) (hr : Nearest r (v / 2 ^ t))
    (h : carry r t = (m.significand, m.exponent)) : m.Catches v := by
  have hunit : (0 : ℚ) < 2 ^ t := by positivity
  unfold carry at h
  split at h
  · rename_i hcarry
    obtain ⟨hsig, hexp⟩ := Prod.mk.inj h
    have hleast := hp.least
    have hthin : m.thinBelow = true := hm.thin.mpr ⟨hsig.symm, by omega⟩
    have hhalf : v / 2 ^ m.exponent = v / 2 ^ t / 2 := by
      rw [← hexp, zpow_add₀ (by norm_num), zpow_one, div_div]
    have hge := hr.ge
    have hlt := (div_lt_iff₀ hunit).mpr hp.lt
    rw [hcarry] at hge
    push_cast at hge
    rw [catches_iff_of_thin hm hthin, hhalf]
    constructor <;> linarith
  · obtain ⟨rfl, rfl⟩ := Prod.mk.inj h
    by_cases hthin : m.thinBelow = true
    · obtain ⟨hsig, hexp⟩ := hm.thin.mp hthin
      have hle := hr.le
      rw [hsig] at hle
      push_cast at hle
      have hfull := (le_div_iff₀ hunit).mpr (hp.full.resolve_left hexp.ne')
      rw [catches_iff_of_thin hm hthin]
      constructor <;> linarith
    · exact (catches_iff_of_not_thin hm (Bool.not_eq_true _ ▸ hthin)).mpr hr

/-- Rounding a real gives a double exactly when the double catches the real. -/
theorem catches_iff {t : Int} {r : Nat} (hp : Placed v t) (hr : Nearest r (v / 2 ^ t)) :
    m.Catches v ↔ carry r t = (m.significand, m.exponent) :=
  ⟨fun h => h.carry_eq hm hp hr, catches_of_carry_eq hm hp hr⟩

theorem Magnitude.Catches.pos (h : m.Catches v) : 0 < v := by
  have hlow : 0 < m.lowQuarters := by
    have := hm.pos
    unfold Magnitude.lowQuarters
    split <;> omega
  exact lt_of_lt_of_le (by positivity) h.low_le

/-- A real is caught by one double at most. -/
theorem Magnitude.Catches.unique {m' : Magnitude} (hm' : m'.Canonical) (h : m.Catches v) (h' : m'.Catches v) :
    m = m' := by
  have hv := h.pos hm
  obtain ⟨t, hp⟩ := exists_placed hv
  have hscaled : 0 ≤ v / 2 ^ t := by positivity
  obtain ⟨r, hr⟩ := exists_nearest hscaled
  obtain ⟨hsig, hexp⟩ := Prod.mk.inj ((h.carry_eq hm hp hr).symm.trans (h'.carry_eq hm' hp hr))
  exact hm.ext hm' hsig hexp

end

end FeatureVector.Binary64

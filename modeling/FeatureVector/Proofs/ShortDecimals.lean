/-
  FeatureVector.Proofs.ShortDecimals — doubles whose decimal is short come back.

  A whole number below `2 ^ 53` times a power of two is a double (`exists_toRat_eq`), and
  rounding leaves a double as it is (`Rounds.toRat_eq`). So the significand and the power of
  ten of a short decimal are exact, the last step is the decimal itself, and the double it
  was written for catches it (`survives_of_short`).
-/
import FeatureVector.Proofs.Reading

namespace FeatureVector

namespace Binary64

namespace Magnitude

/-- Whole numbers of 53 bits times a power of two are doubles. -/
theorem exists_toRat_eq {n j : Nat} (hpos : 0 < n) (hlt : n < 2 ^ 53) (hj : j ≤ 971) :
    ∃ m : Magnitude, m.Canonical ∧ m.toRat = n * 2 ^ j := by
  have hlog : n.log2 < 53 := (Nat.log2_lt hpos.ne').mpr hlt
  obtain ⟨k, hk⟩ : ∃ k, k + n.log2 = 52 := ⟨52 - n.log2, by omega⟩
  have hlow : 2 ^ 52 ≤ n * 2 ^ k := by
    rw [← hk, Nat.add_comm, pow_add]
    exact Nat.mul_le_mul_right _ (Nat.log2_self_le hpos.ne')
  have hhigh : n * 2 ^ k < 2 ^ 53 := by
    rw [show (53 : Nat) = n.log2 + 1 + k by omega, pow_add]
    exact (Nat.mul_lt_mul_right (by positivity)).mpr Nat.lt_log2_self
  refine ⟨⟨n * 2 ^ k, (j : Int) - k, decide (n * 2 ^ k = 2 ^ 52)⟩, ⟨?_, hhigh, ?_, ?_, Or.inr hlow, ?_⟩, ?_⟩
  · show 0 < n * 2 ^ k
    omega
  · show (-1074 : Int) ≤ (j : Int) - k
    omega
  · show (j : Int) - k ≤ 971
    omega
  · show decide (n * 2 ^ k = 2 ^ 52) = true ↔ n * 2 ^ k = 2 ^ 52 ∧ (-1074 : Int) < (j : Int) - k
    rw [decide_eq_true_eq]
    omega
  · rw [toRat]
    show ((n * 2 ^ k : Nat) : ℚ) * 2 ^ ((j : Int) - k) = n * 2 ^ j
    rw [zpow_sub₀ (by norm_num), zpow_natCast, zpow_natCast]
    push_cast
    field_simp

end Magnitude

/-- Rounding leaves a double as it is. -/
theorem Rounds.toRat_eq {v : ℚ} {y : Float} {m : Magnitude} (h : Rounds v y) (hm : m.Canonical) (hv : m.toRat = v) :
    toRat y = v := by
  rw [toRat_of_value (h.value_of_catches hm (hv ▸ m.catches_toRat hm)), hv]

end Binary64

namespace Numeral

open Binary64

theorem toRat_word {s : Nat} (hpos : 0 < s) (hlt : s < 2 ^ 53) : toRat s.toUInt64.toFloat = s := by
  obtain ⟨m, hm, hs⟩ := Magnitude.exists_toRat_eq hpos hlt (Nat.zero_le 971)
  rw [pow_zero, mul_one] at hs
  exact (rounds_ofNat hpos (by omega)).toRat_eq hm hs

theorem toRat_power {k : Nat} (hk : k ≤ 22) : toRat (power k) = 10 ^ k := by
  have hfive : 5 ^ k < 2 ^ 53 := lt_of_le_of_lt (Nat.pow_le_pow_right (by decide) hk) (by decide)
  obtain ⟨m, hm, hs⟩ := Magnitude.exists_toRat_eq (j := k) (by positivity) hfive (by omega)
  rw [Nat.cast_pow, Nat.cast_ofNat, ← mul_pow] at hs
  refine (rounds_power (by unfold maxPower; omega)).toRat_eq hm ?_
  rw [hs]
  norm_num

theorem lastStep_eq {s : Nat} {e : Int} (hpos : 0 < s) (hlt : s < 2 ^ 53) (he : e.natAbs ≤ 22) :
    lastStep s.toUInt64.toFloat e = s * 10 ^ e := by
  unfold lastStep
  by_cases hneg : e < 0
  · obtain ⟨k, hk⟩ : ∃ k : Nat, e = -(k : Int) := ⟨(-e).toNat, by omega⟩
    have hnat : (-e).toNat = k := by omega
    have hrounds : (k - 1) / maxPower = 0 := Nat.div_eq_of_lt (by unfold maxPower; omega)
    rw [if_pos hneg, hnat, hrounds]
    simp only [Nat.mul_zero, Nat.sub_zero]
    rw [toRat_power (by omega), divideOut, toRat_word hpos hlt, hk, zpow_neg, zpow_natCast, div_eq_mul_inv]
  · obtain ⟨k, hk⟩ : ∃ k : Nat, e = k := ⟨e.toNat, by omega⟩
    rw [if_neg hneg, hk, Int.toNat_natCast, toRat_power (by omega), toRat_word hpos hlt, zpow_natCast]

end Numeral

open Binary64

/-- A double comes back when it is read as a whole number below `2 ^ 53` times or divided by
    a power of ten up to the twenty-second. -/
theorem survives_of_short {x : Float} {negative : Bool} {m : Magnitude} (h : value x = .finite negative m)
    (hsig : m.decimal.written.1 < 2 ^ 53) (hpower : m.decimal.written.2.natAbs ≤ 22) : Survives x := by
  have hm := canonical_of_value h
  unfold Survives
  rw [h]
  show m.Catches (Numeral.lastStep m.decimal.written.1.toUInt64.toFloat m.decimal.written.2)
  rw [Numeral.lastStep_eq (m.written_pos hm) hsig hpower]
  exact m.catches_written hm

end FeatureVector

/-
  FeatureVector.Proofs.Reading — the two roundings of the number reader, and which doubles
  survive them.

  The reader rounds the significand, and then its product with, or quotient by, the rounded
  power of ten (`rounds_scale?`). `lastStep` is that product or quotient before it is rounded.
  - It never overflows on what the writer writes (`exists_read`): below the two largest
    doubles the two roundings cannot carry a product over the largest, those two are computed.
  - A double comes back exactly when it catches the last step (`Survives`, `exists_toFloat?`).
-/
import FeatureVector.Proofs.Binary64.Negation
import FeatureVector.Proofs.Json.Floats

namespace FeatureVector

namespace Binary64

/-- The real a double stands for; zero for what is no number. -/
def toRat (x : Float) : ℚ :=
  match value x with
  | .finite negative m => if negative then -m.toRat else m.toRat
  | .nan | .infinite _ | .zero _ => 0

theorem toRat_of_value {x : Float} {m : Magnitude} (h : value x = .finite false m) : toRat x = m.toRat := by
  rw [toRat, h]
  rfl

end Binary64

namespace Numeral

open Binary64 Float.Model Float.Model.UnpackedFloat

/-! ## Powers of ten -/

set_option maxRecDepth 8192 in
/-- Core rounds powers of ten, the small ones from a table. -/
theorem power_eq {k : Nat} (hk : k ≤ maxPower) :
    power k = packed (roundWithAccuracy .binary64 .positive (2 ^ 53 * 10 ^ k) (-53) .exact) := by
  by_cases hsmall : k < 23
  · have htable : ∀ k < 23,
        power k = packed (roundWithAccuracy .binary64 .positive (2 ^ 53 * 10 ^ k) (-53) .exact) := by
      decide
    exact htable k hsmall
  · have hk308 : k ≤ 308 := hk
    have hlarge : ¬ (k : Int) > 2 ^ 11 := by
      norm_num
      omega
    have htiny : ¬ (k : Int) < -((2 ^ 11 : Int) + (Nat.log2 1 : Nat)) := by
      norm_num
      omega
    unfold power Float.ofScientific
    rw [dif_neg (by omega)]
    show packed (UnpackedFloat.ofScientific .binary64 1 (k : Int)) = _
    unfold UnpackedFloat.ofScientific
    rw [dif_neg (by decide), if_neg hlarge, if_neg htiny, if_pos (by omega)]
    rfl

theorem rounds_power {k : Nat} (hk : k ≤ maxPower) : Rounds (10 ^ k) (power k) := by
  rw [power_eq hk]
  refine rounds_of_roundWithAccuracy (measures_exact _) ?_ ?_
  · rw [show (-53 : Int) = -((53 : Nat) : Int) from rfl, zpow_neg, zpow_natCast]
    simp only [Nat.cast_mul, Nat.cast_pow, Nat.cast_ofNat]
    rw [mul_right_comm, mul_inv_cancel₀ (by positivity), one_mul]
  · have hlog : 53 ≤ (2 ^ 53 * 10 ^ k).log2 :=
      (Nat.le_log2 (by positivity)).mpr (Nat.le_mul_of_pos_right _ (by positivity))
    rw [targetExponent_eq]
    omega

theorem tiny_lt_one : (2 : ℚ) ^ (-1075 : Int) < 1 := zpow_lt_one_of_neg₀ (by norm_num) (by norm_num)

/-- The doubles end between two neighbouring powers of ten. -/
theorem overflow_bounds : 10 ^ maxPower + 2 ^ 970 < 2 ^ 54 * 2 ^ 970 ∧ 2 ^ 54 * 2 ^ 970 < 10 ^ (maxPower + 1) := by
  decide +kernel

/-- The largest real that does not overflow, and the powers of ten below it. -/
theorem pow_lt_overflow {k : Nat} (hk : k ≤ maxPower) : (10 : ℚ) ^ k < (2 ^ 54 - 1) * 2 ^ (970 : Int) := by
  have hpow : 10 ^ k ≤ 10 ^ maxPower := Nat.pow_le_pow_right (by decide) hk
  have hlt : ((10 ^ k + 2 ^ 970 : Nat) : ℚ) < ((2 ^ 54 * 2 ^ 970 : Nat) : ℚ) :=
    Nat.cast_lt.mpr (lt_of_le_of_lt (Nat.add_le_add_right hpow _) overflow_bounds.1)
  simp only [Nat.cast_add, Nat.cast_mul, Nat.cast_pow, Nat.cast_ofNat] at hlt
  rw [show (970 : Int) = ((970 : Nat) : Int) from rfl, zpow_natCast]
  generalize (2 : ℚ) ^ 970 = unit at hlt ⊢
  linarith

theorem overflow_lt_pow {k : Nat} (hk : maxPower < k) : 2 ^ 54 * 2 ^ (970 : Int) < (10 : ℚ) ^ k := by
  have hpow : 10 ^ (maxPower + 1) ≤ 10 ^ k := Nat.pow_le_pow_right (by decide) hk
  have hq : ((2 ^ 54 * 2 ^ 970 : Nat) : ℚ) < ((10 ^ k : Nat) : ℚ) :=
    Nat.cast_lt.mpr (lt_of_lt_of_le overflow_bounds.2 hpow)
  simp only [Nat.cast_mul, Nat.cast_pow, Nat.cast_ofNat] at hq
  rw [show (970 : Int) = ((970 : Nat) : Int) from rfl, zpow_natCast]
  exact hq

theorem tiny_mul_maxPower : 2 ^ (-1075 : Int) * (4 * 10 ^ maxPower) < (1 : ℚ) := by
  have hunit : (0 : ℚ) < 2 ^ (970 : Int) := by positivity
  have hmax : 4 * (10 : ℚ) ^ maxPower < 2 ^ (56 : Int) * 2 ^ (970 : Int) := by
    have hlt := pow_lt_overflow (le_refl maxPower)
    generalize (2 : ℚ) ^ (970 : Int) = unit at hunit hlt ⊢
    linarith
  calc 2 ^ (-1075 : Int) * (4 * 10 ^ maxPower) < 2 ^ (-1075 : Int) * (2 ^ (56 : Int) * 2 ^ (970 : Int)) :=
        mul_lt_mul_of_pos_left hmax (by positivity)
    _ = 2 ^ (-1075 + (56 + 970) : Int) := by rw [zpow_add₀ two_ne_zero, zpow_add₀ two_ne_zero]
    _ < 1 := zpow_lt_one_of_neg₀ (by norm_num) (by norm_num)

/-- A significand divided by more than `10 ^ 616` is below a quarter of the least double. -/
theorem lt_tiny_mul_pow {k : Nat} (hk : 616 < k) : (10 : ℚ) ^ 17 < 2 ^ (-1076 : Int) * 10 ^ k :=
  calc (10 : ℚ) ^ 17 < 2 ^ (-1076 + (54 + 970) : Int) * 10 ^ 33 := by norm_num
    _ = 2 ^ (-1076 : Int) * (2 ^ 54 * 2 ^ (970 : Int) * 10 ^ 33) := by
        rw [zpow_add₀ two_ne_zero, zpow_add₀ two_ne_zero, mul_assoc, zpow_ofNat 2 54]
    _ < 2 ^ (-1076 : Int) * (10 ^ (maxPower + 1) * 10 ^ 33) := by
        gcongr
        exact overflow_lt_pow (Nat.lt_succ_self _)
    _ = 2 ^ (-1076 : Int) * 10 ^ (maxPower + 1 + 33) := by rw [← pow_add]
    _ ≤ 2 ^ (-1076 : Int) * 10 ^ k := by
        gcongr
        · norm_num
        · unfold maxPower
          omega

theorem exists_power {k : Nat} (hk : k ≤ maxPower) :
    ∃ m : Magnitude, m.Canonical ∧ Binary64.value (power k) = .finite false m ∧ m.Catches (10 ^ k) := by
  have hone : (1 : ℚ) ≤ 10 ^ k := one_le_pow₀ (by norm_num)
  exact (rounds_power hk).exists_finite (lt_of_lt_of_le tiny_lt_one hone) (pow_lt_overflow hk)

theorem exists_word {s : Nat} (hpos : 0 < s) (hle : s ≤ 10 ^ 17) :
    ∃ m : Magnitude, m.Canonical ∧ Binary64.value s.toUInt64.toFloat = .finite false m ∧ m.Catches s := by
  have hone : (1 : ℚ) ≤ s := by exact_mod_cast hpos
  have hword : s < 2 ^ 64 := lt_of_le_of_lt hle (by decide)
  have hsmall : (s : ℚ) ≤ 10 ^ 17 := by exact_mod_cast hle
  exact (rounds_ofNat hpos hword).exists_finite (lt_of_lt_of_le tiny_lt_one hone)
    (lt_of_le_of_lt hsmall (pow_lt_overflow (by decide)))

/-! ## The last step -/

/-- The result of the reader's last operation before it is rounded. -/
def lastStep (x : Float) (e : Int) : ℚ :=
  if e < 0 then
    let rounds := ((-e).toNat - 1) / maxPower
    toRat (divideOut x rounds) / toRat (power ((-e).toNat - maxPower * rounds))
  else toRat x * toRat (power e.toNat)

theorem ne_zero_of_value {x : Float} {negative : Bool} {m : Magnitude}
    (h : Binary64.value x = .finite negative m) : (x == Binary64.zero) = false := by
  rw [← Bool.not_eq_true, Binary64.beq_zero_iff, h]
  exact nofun

/-- A significand the writer can write, divided by the largest power of ten or not. -/
theorem exists_divideOut {s : Nat} (hpos : 0 < s) (hle : s ≤ 10 ^ 17) (rounds : Nat) (hrounds : rounds ≤ 1) :
    ∃ m, Binary64.value (divideOut s.toUInt64.toFloat rounds) = .finite false m := by
  obtain ⟨ms, hms, hs, hcs⟩ := exists_word hpos hle
  obtain ⟨mp, hmp, hp, hcp⟩ := exists_power (le_refl maxPower)
  rcases Nat.le_one_iff_eq_zero_or_eq_one.mp hrounds with rfl | rfl
  · exact ⟨ms, hs⟩
  · have hdivide : divideOut s.toUInt64.toFloat 1 = s.toUInt64.toFloat / power maxPower := by
      rw [divideOut, ne_zero_of_value hs]
      rfl
    have hspos := ms.toRat_pos hms
    have hppos := mp.toRat_pos hmp
    obtain ⟨hs1, hs2⟩ := hcs.le_two_mul hms
    obtain ⟨hp1, hp2⟩ := hcp.le_two_mul hmp
    have hone : (1 : ℚ) ≤ s := by exact_mod_cast hpos
    have hten : (s : ℚ) ≤ 10 ^ 17 := by exact_mod_cast hle
    have hlow : 2 ^ (-1075 : Int) < ms.toRat / mp.toRat := by
      rw [lt_div_iff₀ hppos]
      calc 2 ^ (-1075 : Int) * mp.toRat ≤ 2 ^ (-1075 : Int) * (2 * 10 ^ maxPower) :=
            (mul_le_mul_iff_right₀ (by positivity)).mpr hp2
        _ < 1 / 2 := by linarith [tiny_mul_maxPower]
        _ ≤ ms.toRat := by linarith
    have hhigh : ms.toRat / mp.toRat < (2 ^ 54 - 1) * 2 ^ (970 : Int) := by
      have hhuge : (10 : ℚ) ^ 18 ≤ 10 ^ maxPower := pow_le_pow_right₀ (by norm_num) (by decide)
      have hlt : ms.toRat / mp.toRat < 10 ^ 0 := by
        rw [div_lt_iff₀ hppos]
        linarith
      exact lt_trans hlt (pow_lt_overflow (by decide))
    obtain ⟨m, -, hm, -⟩ := (rounds_div hs hp).exists_finite hlow hhigh
    exact ⟨m, by rw [hdivide, hm]⟩

theorem rounds_scale? {s : Nat} (hpos : 0 < s) (hle : s ≤ 10 ^ 17) {e : Int} (he : -616 ≤ e) {y : Float}
    (hy : scale? s.toUInt64.toFloat e = some y) : Rounds (lastStep s.toUInt64.toFloat e) y := by
  obtain ⟨ms, hms, hs, -⟩ := exists_word hpos hle
  unfold scale? at hy
  unfold lastStep
  by_cases hneg : e < 0
  · rw [if_pos hneg] at hy ⊢
    have hyx := (Option.some.inj hy).symm
    obtain ⟨m, hm⟩ := exists_divideOut hpos hle (((-e).toNat - 1) / maxPower) (by unfold maxPower; omega)
    obtain ⟨mp, hmp, hp, -⟩ := exists_power
      (k := (-e).toNat - maxPower * (((-e).toNat - 1) / maxPower)) (by unfold maxPower; omega)
    rw [hyx, scaleDown]
    simp only
    rw [toRat_of_value hm, toRat_of_value hp]
    exact rounds_div hm hp
  · rw [if_neg hneg] at hy ⊢
    split at hy
    · rename_i hmax
      obtain ⟨mp, hmp, hp, -⟩ := exists_power (k := e.toNat) (by omega)
      have hyx : y = s.toUInt64.toFloat * power e.toNat := by
        simp only at hy
        split at hy
        · cases hy
        · exact (Option.some.inj hy).symm
      rw [hyx, toRat_of_value hs, toRat_of_value hp]
      exact rounds_mul hs hp
    · rw [ne_zero_of_value hs] at hy
      cases hy

/-! ## No overflow -/

theorem isInf_of_value {x : Float} {negative : Bool} {m : Magnitude} (h : Binary64.value x = .finite negative m) :
    x.isInf = false := by
  show x.toModel.unpack.isInf = false
  rw [unpack_of_value h]
  rfl

/-- Two roundings do not carry over the last three halves of a place. -/
theorem product_lt {ms mp : Magnitude} (hms : ms.Canonical) (hmp : mp.Canonical) {v w : ℚ} (hs : ms.Catches v)
    (hp : mp.Catches w) (hv : 1 ≤ v) (hw : 1 ≤ w) (h : v * w ≤ (2 ^ 53 - 5 / 2) * 2 ^ (970 + 1 : Int)) :
    ms.toRat * mp.toRat < (2 ^ 54 - 1) * 2 ^ (970 : Int) := by
  have hs' := hs.toRat_le (hs.full hms hv)
  have hp' := hp.toRat_le (hp.full hmp hw)
  have hpos := mp.toRat_pos hmp
  have hunit : (0 : ℚ) < 2 ^ (970 : Int) := by positivity
  rw [← two_mul_zpow] at h
  generalize (2 : ℚ) ^ (970 : Int) = unit at h hunit ⊢
  have hmul : ((2 ^ 53 - 1) * ms.toRat) * ((2 ^ 53 - 1) * mp.toRat) ≤ (2 ^ 53 * v) * (2 ^ 53 * w) :=
    mul_le_mul hs' hp' (by positivity) (by positivity)
  have hsquare : (2 ^ 53 - 1) ^ 2 * (ms.toRat * mp.toRat) ≤ 2 ^ 106 * (v * w) := by
    linarith
  have hfactor : (0 : ℚ) < (2 ^ 53 - 1) ^ 2 := by norm_num
  refine lt_of_mul_lt_mul_left ?_ hfactor.le
  linarith

theorem scale?_of_le {s e : Nat} (hpos : 0 < s) (hle : s ≤ 10 ^ 17)
    (h : (s : ℚ) * 10 ^ e ≤ (2 ^ 53 - 5 / 2) * 2 ^ (970 + 1 : Int)) :
    ∃ y, scale? s.toUInt64.toFloat e = some y := by
  have hone : (1 : ℚ) ≤ s := by exact_mod_cast hpos
  have hten : (1 : ℚ) ≤ 10 ^ e := one_le_pow₀ (by norm_num)
  have he : e ≤ maxPower := by
    by_contra hgt
    have hover := overflow_lt_pow (Nat.not_le.mp hgt)
    have hunit : (0 : ℚ) < 2 ^ (970 : Int) := by positivity
    have hle : 1 * (10 : ℚ) ^ e ≤ s * 10 ^ e := mul_le_mul_of_nonneg_right hone (by positivity)
    rw [← two_mul_zpow] at h
    generalize (2 : ℚ) ^ (970 : Int) = unit at h hover hunit
    linarith
  obtain ⟨ms, hms, hs, hcs⟩ := exists_word hpos hle
  obtain ⟨mp, hmp, hp, hcp⟩ := exists_power he
  have hlow : 2 ^ (-1075 : Int) < ms.toRat * mp.toRat := by
    have hs1 := (hcs.le_two_mul hms).1
    have hp1 := (hcp.le_two_mul hmp).1
    have htiny : (2 : ℚ) ^ (-1075 : Int) < 2 ^ (-2 : Int) := zpow_lt_zpow_right₀ (by norm_num) (by norm_num)
    have hquarter : (1 / 2 : ℚ) * (1 / 2) ≤ ms.toRat * mp.toRat :=
      mul_le_mul (by linarith) (by linarith) (by norm_num) (ms.toRat_pos hms).le
    rw [show (2 : ℚ) ^ (-2 : Int) = 1 / 2 * (1 / 2) by norm_num] at htiny
    exact lt_of_lt_of_le htiny hquarter
  obtain ⟨m, -, hm, -⟩ := (rounds_mul hs hp).exists_finite hlow (product_lt hms hmp hcs hcp hone hten h)
  refine ⟨s.toUInt64.toFloat * power e, ?_⟩
  unfold scale?
  rw [if_neg (by omega), if_pos (by omega), Int.toNat_natCast]
  simp only [isInf_of_value hm, Bool.false_eq_true, if_false]

end Numeral

/-! ## Doubles the writer writes -/

namespace Binary64.Magnitude

open Numeral

/-- The largest double or the one below it. -/
def IsTop (m : Magnitude) : Prop := m.exponent = 971 ∧ 2 ^ 53 - 2 ≤ m.significand

/-- The decimal a double is written as in JSON. -/
def decimal (m : Magnitude) : Decimal := .ofMagnitude NumberStyle.json.tie m

variable {m : Magnitude} (hm : m.Canonical)

include hm

theorem written_pos : 0 < m.decimal.written.1 := by
  have hpos := (Decimal.ofMagnitude_spec hm NumberStyle.json.tie).2.1
  unfold Decimal.written
  split
  · exact Nat.mul_pos hpos (by positivity)
  · exact hpos

theorem written_le : m.decimal.written.1 ≤ 10 ^ 17 := by
  obtain ⟨hnormal, -, hle, -⟩ := Decimal.ofMagnitude_spec hm NumberStyle.json.tie
  exact Decimal.written_le hnormal hle

theorem catches_written : m.Catches (m.decimal.written.1 * 10 ^ m.decimal.written.2) := by
  rw [Decimal.written_toRat]
  exact (Decimal.ofMagnitude_spec hm NumberStyle.json.tie).2.2.2

theorem IsTop.eq (h : m.IsTop) : m = ⟨2 ^ 53 - 2, 971, false⟩ ∨ m = ⟨2 ^ 53 - 1, 971, false⟩ := by
  obtain ⟨hexp, hsig⟩ := h
  have hlt := hm.lt
  have hthin : m.thinBelow = false := by
    rw [← Bool.not_eq_true, hm.thin]
    omega
  obtain ⟨significand, exponent, thinBelow⟩ := m
  simp only at hexp hsig hlt hthin
  subst hexp
  subst hthin
  rcases (by omega : significand = 2 ^ 53 - 2 ∨ significand = 2 ^ 53 - 1) with rfl | rfl
  · exact Or.inl rfl
  · exact Or.inr rfl

theorem high_le_of_not_top (h : ¬ m.IsTop) :
    m.highQuarters * 2 ^ (m.exponent - 2) ≤ ((2 : ℚ) ^ 53 - 5 / 2) * 2 ^ (970 + 1 : Int) := by
  have hlt := hm.lt
  have hgreatest := hm.greatest
  rw [← two_mul_zpow, show (970 : Int) = 969 + 1 from rfl, ← two_mul_zpow]
  by_cases hexp : m.exponent = 971
  · have hsig : m.highQuarters + 10 ≤ 2 ^ 55 := by
      have hnot : ¬ 2 ^ 53 - 2 ≤ m.significand := fun hsig => h ⟨hexp, hsig⟩
      unfold highQuarters
      omega
    have hq : ((m.highQuarters + 10 : Nat) : ℚ) ≤ ((2 ^ 55 : Nat) : ℚ) := Nat.cast_le.mpr hsig
    push_cast at hq
    have hunit : (0 : ℚ) < 2 ^ (969 : Int) := by positivity
    rw [hexp, show (971 - 2 : Int) = 969 from rfl]
    generalize (2 : ℚ) ^ (969 : Int) = unit at hunit ⊢
    nlinarith
  · have hsig : m.highQuarters ≤ 2 ^ 55 + 2 := by
      unfold highQuarters
      omega
    have hq : (m.highQuarters : ℚ) ≤ 2 ^ 55 + 2 := by exact_mod_cast hsig
    have hunit : (0 : ℚ) < 2 ^ (968 : Int) := by positivity
    have hpow : (2 : ℚ) ^ (m.exponent - 2) ≤ 2 ^ (968 : Int) := zpow_le_zpow_right₀ (by norm_num) (by omega)
    have hle : (m.highQuarters : ℚ) * 2 ^ (m.exponent - 2) ≤ (2 ^ 55 + 2) * 2 ^ (968 : Int) :=
      mul_le_mul hq hpow (by positivity) (by norm_num)
    rw [show (969 : Int) = 968 + 1 from rfl, ← two_mul_zpow]
    generalize (2 : ℚ) ^ (968 : Int) = unit at hunit hle ⊢
    linarith

/-- Whatever double is written is read as some number. -/
theorem exists_read : ∃ y, scale? m.decimal.written.1.toUInt64.toFloat m.decimal.written.2 = some y := by
  by_cases hneg : m.decimal.written.2 < 0
  · exact ⟨_, if_pos hneg⟩
  · by_cases htop : m.IsTop
    · rcases htop.eq hm with rfl | rfl
      · exact Option.isSome_iff_exists.mp (by decide +kernel)
      · exact Option.isSome_iff_exists.mp (by decide +kernel)
    · obtain ⟨e, he⟩ : ∃ e : Nat, m.decimal.written.2 = e := ⟨m.decimal.written.2.toNat, by omega⟩
      have hcatches := catches_written hm
      rw [he, zpow_natCast] at hcatches
      rw [he]
      exact scale?_of_le (written_pos hm) (written_le hm) (le_trans hcatches.le_high (high_le_of_not_top hm htop))

/-- Nothing the writer writes needs more than two divisions. -/
theorem le_written : -616 ≤ m.decimal.written.2 := by
  by_contra hlt
  obtain ⟨k, hk⟩ : ∃ k : Nat, m.decimal.written.2 = -(k : Int) := ⟨(-m.decimal.written.2).toNat, by omega⟩
  have hlow := (catches_written hm).low_le
  have hpos := hm.pos
  have hquarters : (1 : ℚ) ≤ m.lowQuarters := by
    have : 1 ≤ m.lowQuarters := by
      unfold lowQuarters
      split <;> omega
    exact_mod_cast this
  have hunit : (2 : ℚ) ^ (-1076 : Int) ≤ 2 ^ (m.exponent - 2) :=
    zpow_le_zpow_right₀ (by norm_num) (by have := hm.least; omega)
  have hle : 1 * (2 : ℚ) ^ (-1076 : Int) ≤ m.lowQuarters * 2 ^ (m.exponent - 2) :=
    mul_le_mul hquarters hunit (by positivity) (by positivity)
  have hsig : (m.decimal.written.1 : ℚ) ≤ 10 ^ 17 := by exact_mod_cast written_le hm
  rw [hk, zpow_neg, zpow_natCast, ← div_eq_mul_inv] at hlow
  have hlast : (2 : ℚ) ^ (-1076 : Int) * 10 ^ k ≤ 10 ^ 17 := by
    have hdiv := le_trans hle hlow
    rw [one_mul, le_div_iff₀ (by positivity)] at hdiv
    exact le_trans hdiv hsig
  exact absurd hlast (not_le.mpr (lt_tiny_mul_pow (by omega)))

end Binary64.Magnitude

namespace Binary64

/-! ## Signs -/

theorem value_signed_iff (negative : Bool) (m : Magnitude) (y : Float) :
    value (if negative then -y else y) = .finite negative m ↔ value y = .finite false m := by
  cases negative with
  | false => rfl
  | true =>
    rw [if_pos rfl, value_neg]
    cases value y <;> simp [Value.neg]

end Binary64

/-! ## What comes back -/

open Binary64

/-- Whether the reader makes the same double of what the writer writes: the last step before
    it is rounded is among the reals that round to the double. -/
def Survives (x : Float) : Prop :=
  match value x with
  | .finite _ m => m.Catches (Numeral.lastStep m.decimal.written.1.toUInt64.toFloat m.decimal.written.2)
  | .zero _ => True
  | .nan | .infinite _ => False

instance : (x : Float) → Decidable (Survives x) := fun x =>
  match h : value x with
  | .finite _ m =>
    decidable_of_iff (m.Catches (Numeral.lastStep m.decimal.written.1.toUInt64.toFloat m.decimal.written.2))
      (by rw [Survives, h])
  | .zero _ => isTrue (by rw [Survives, h]; trivial)
  | .nan | .infinite _ => isFalse (by rw [Survives, h]; exact id)

/-- The numeral of a finite double is read as a number, and as the double if it survives. -/
theorem exists_toFloat? {x : Float} {n : Numeral} (h : NumberStyle.json.numeral? x = some n) :
    ∃ y, n.toFloat? = some y ∧ (y = x ↔ Survives x) := by
  unfold NumberStyle.numeral? at h
  unfold Survives
  cases hx : value x with
  | nan | infinite _ =>
    rw [hx] at h
    cases h
  | zero negative =>
    rw [hx] at h
    cases h
    have hread : ∀ negative, (NumberStyle.json.numeral negative .zero).toFloat? =
        some (packed (.zero (signOf negative))) := by
      decide
    refine ⟨_, hread negative, iff_of_true (value_inj ?_) trivial⟩
    rw [value_packed_zero, hx]
  | finite negative m =>
    rw [hx] at h
    cases h
    have hm := canonical_of_value hx
    obtain ⟨hnormal, -, hle, -⟩ := Decimal.ofMagnitude_spec hm NumberStyle.json.tie
    obtain ⟨z, hz⟩ := m.exists_read hm
    have hleading := Decimal.natAbs_leading_lt hm NumberStyle.json.tie
    have hmodulus : (NumberStyle.json.numeral negative m.decimal).modulus? = some z :=
      (Decimal.modulus?_json hnormal negative hle (by rw [Numeral.maxExponent, Nat.pow_eq]; omega)).trans hz
    refine ⟨if negative then -z else z, ?_, ?_⟩
    · show (NumberStyle.json.numeral negative m.decimal).toFloat? = _
      rw [Numeral.toFloat?, hmodulus, Option.map_some, NumberStyle.negative_numeral]
    · have hrounds := Numeral.rounds_scale? (m.written_pos hm) (m.written_le hm) (m.le_written hm) hz
      show _ ↔ m.Catches (Numeral.lastStep m.decimal.written.1.toUInt64.toFloat m.decimal.written.2)
      rw [← hrounds.value_eq_iff hm, ← value_signed_iff negative, ← hx]
      exact ⟨fun hy => by rw [hy], value_inj⟩

end FeatureVector

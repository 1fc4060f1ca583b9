/-
  FeatureVector.Proofs.Binary64.Operations — core's arithmetic on doubles is exact arithmetic,
  rounded once.

  A mantissa with its round and sticky bits says where a real lies between two whole numbers
  (`Measures`), and shifting keeps that; so core's rounding is the rounding of reals
  (`roundWithAccuracy_eq`). From it, for the product, the quotient, the sum and the conversion
  of a whole number (`rounds_mul`, `rounds_div`, `rounds_add`, `rounds_ofNat`): the result of
  positive doubles is the rounding of the exact one (`Rounds`), which says when it is a given
  double (`Rounds.value_eq_iff`) and that it is one at all unless it underflows or overflows
  (`Rounds.exists_finite`). Products and quotients of any signs are rounded by their modulus
  (`RoundsAs`, `roundsAs_mul`, `roundsAs_div`).
-/
import FeatureVector.Proofs.Binary64.Bits
import FeatureVector.Proofs.Binary64.Rounding

namespace FeatureVector.Binary64

open Float.Model Float.Model.UnpackedFloat

/-! ## Mantissas with a round and a sticky bit -/

/-- The mantissa and its two bits are what is known of the real. -/
structure Measures (em : ExtendedMantissa) (x : ℚ) : Prop where
  ge : em.mantissa ≤ x
  lt : x < em.mantissa + 1
  round : em.roundBit = true ↔ (em.mantissa : ℚ) + 1 / 2 ≤ x
  sticky : em.stickyBit = false ↔ x = em.mantissa ∨ x = em.mantissa + 1 / 2

theorem measures_exact (n : Nat) : Measures (.ofMantissaAndAccuracy n .exact) n := by
  constructor <;> simp [ExtendedMantissa.ofMantissaAndAccuracy]

theorem measures_inexact (n : Nat) {f : ℚ} (hpos : 0 < f) (hlt : f < 1) {o : Ordering}
    (ho : (o = .lt ∧ f < 1 / 2) ∨ (o = .eq ∧ f = 1 / 2) ∨ (o = .gt ∧ 1 / 2 < f)) :
    Measures (.ofMantissaAndAccuracy n (.inexact o)) (n + f) := by
  rcases ho with ⟨rfl, hf⟩ | ⟨rfl, hf⟩ | ⟨rfl, hf⟩
  · constructor <;> simp [ExtendedMantissa.ofMantissaAndAccuracy]
    · exact hpos.le
    · exact hlt
    · linarith
    · constructor <;> intro h <;> linarith
  · constructor <;> simp [ExtendedMantissa.ofMantissaAndAccuracy]
    · exact hpos.le
    · exact hlt
    · linarith
    · right
      linarith
  · constructor <;> simp [ExtendedMantissa.ofMantissaAndAccuracy]
    · exact hpos.le
    · exact hlt
    · linarith
    · constructor <;> intro h <;> linarith

theorem measures_quotient (num : Nat) {den : Nat} (h : 0 < den) :
    Measures (.ofMantissaAndAccuracy (num / den) (accuracyOfFraction (num % den) den)) ((num : ℚ) / den) := by
  have hden : (0 : ℚ) < den := by exact_mod_cast h
  have hsplit : (num : ℚ) / den = (num / den : Nat) + ((num % den : Nat) : ℚ) / den := by
    have hnum : (num : ℚ) = (num / den : Nat) * den + (num % den : Nat) := by
      exact_mod_cast (Nat.div_add_mod' num den).symm
    rw [eq_comm, ← mul_div_cancel_right₀ ((num / den : Nat) : ℚ) hden.ne', ← add_div, ← hnum]
  have hrest : num % den < den := Nat.mod_lt num h
  rw [hsplit]
  generalize num / den = n
  generalize num % den = rest at hrest
  unfold accuracyOfFraction
  split
  · rename_i hzero
    rw [hzero, Nat.cast_zero, zero_div, add_zero]
    exact measures_exact n
  · rename_i hzero
    have hpos : (0 : ℚ) < rest := by exact_mod_cast Nat.pos_of_ne_zero hzero
    refine measures_inexact n (div_pos hpos hden) ?_ ?_
    · rw [div_lt_one hden]
      exact_mod_cast hrest
    · rcases lt_trichotomy (2 * rest) den with hcmp | hcmp | hcmp
      · have hq : 2 * (rest : ℚ) < den := by exact_mod_cast hcmp
        refine Or.inl ⟨Nat.compare_eq_lt.mpr hcmp, ?_⟩
        rw [div_lt_div_iff₀ hden (by norm_num)]
        linarith
      · have hq : 2 * (rest : ℚ) = den := by exact_mod_cast hcmp
        refine Or.inr (Or.inl ⟨Nat.compare_eq_eq.mpr hcmp, ?_⟩)
        rw [div_eq_div_iff hden.ne' (by norm_num)]
        linarith
      · have hq : (den : ℚ) < 2 * rest := by exact_mod_cast hcmp
        refine Or.inr (Or.inr ⟨Nat.compare_eq_gt.mpr hcmp, ?_⟩)
        rw [div_lt_div_iff₀ (by norm_num) hden]
        linarith

theorem Measures.shiftRightOne {em : ExtendedMantissa} {x : ℚ} (h : Measures em x) :
    Measures em.shiftRightOne (x / 2) := by
  have hge := h.ge
  have hlt := h.lt
  have hround := h.round
  have hsticky := h.sticky
  have hsplit : (em.mantissa : ℚ) = 2 * (em.mantissa / 2 : Nat) + (em.mantissa % 2 : Nat) := by
    exact_mod_cast (Nat.div_add_mod em.mantissa 2).symm
  have hnone : (em.roundBit || em.stickyBit) = false ↔ x = em.mantissa := by
    rw [Bool.or_eq_false_iff, ← Bool.not_eq_true, hround, hsticky]
    constructor
    · rintro ⟨hr, hx | hx⟩
      · exact hx
      · exact absurd hx.ge hr
    · intro hx
      exact ⟨by linarith, Or.inl hx⟩
  have hhalf : em.shiftRightOne = ⟨em.mantissa / 2, em.mantissa % 2 != 0, em.roundBit || em.stickyBit⟩ := rfl
  rw [hhalf]
  rcases (by omega : em.mantissa % 2 = 0 ∨ em.mantissa % 2 = 1) with hb | hb
  · rw [hb, Nat.cast_zero, add_zero] at hsplit
    refine ⟨by linarith, by linarith, ?_, hnone.trans ⟨fun hx => Or.inl (by linarith), ?_⟩⟩
    · rw [hb]
      exact iff_of_false Bool.false_ne_true (by linarith)
    · rintro (hx | hx) <;> linarith
  · rw [hb, Nat.cast_one] at hsplit
    refine ⟨by linarith, by linarith, ?_, hnone.trans ⟨fun hx => Or.inr (by linarith), ?_⟩⟩
    · rw [hb]
      exact iff_of_true rfl (by linarith)
    · rintro (hx | hx) <;> linarith

theorem Measures.shiftRight {em : ExtendedMantissa} {x : ℚ} (h : Measures em x) (n : Nat) :
    Measures (em >>> n) (x / 2 ^ n) := by
  show Measures (n.repeat ExtendedMantissa.shiftRightOne em) (x / 2 ^ n)
  induction n with
  | zero =>
    rw [pow_zero, div_one]
    exact h
  | succ n ih =>
    rw [pow_succ, ← div_div]
    exact ih.shiftRightOne

theorem Measures.nearest {em : ExtendedMantissa} {x : ℚ} (h : Measures em x) : Nearest em.roundedMantissa x := by
  obtain ⟨n, round, sticky⟩ := em
  obtain ⟨hge, hlt, hround, hsticky⟩ := h
  simp only at hge hlt hround hsticky
  cases round with
  | false =>
    have hx : x < n + 1 / 2 := by simpa using hround
    show Nearest (Accuracy.roundToNearestEven n (ExtendedMantissa.accuracy ⟨n, false, sticky⟩)) x
    have hn : Accuracy.roundToNearestEven n (ExtendedMantissa.accuracy ⟨n, false, sticky⟩) = n := by
      cases sticky <;> rfl
    rw [hn, Nearest]
    split <;> constructor <;> linarith
  | true =>
    have hx : (n : ℚ) + 1 / 2 ≤ x := by simpa using hround
    cases sticky with
    | true =>
      have hne : x ≠ n + 1 / 2 := by
        intro hx
        simp [hx] at hsticky
      have hgt : (n : ℚ) + 1 / 2 < x := lt_of_le_of_ne hx hne.symm
      show Nearest (n + 1) x
      rw [Nearest]
      push_cast
      split <;> constructor <;> linarith
    | false =>
      have heq : x = n + 1 / 2 := by
        rcases hsticky.mp rfl with hx' | hx'
        · linarith
        · exact hx'
      show Nearest (n + n % 2) x
      rcases (by omega : n % 2 = 0 ∨ n % 2 = 1) with hb | hb
      · rw [hb, Nearest, if_pos (by omega), heq]
        push_cast
        constructor <;> linarith
      · rw [hb, Nearest, if_pos (by omega), heq]
        push_cast
        constructor <;> linarith

/-! ## Core's rounding -/

theorem targetExponent_eq (mantissa : Nat) (exponent : Int) :
    Format.binary64.targetExponent (totalExponent mantissa exponent) =
      max (mantissa.log2 + 1 + exponent - 53) (-1074) := rfl

/-- Core shifts to the last place of the double. -/
theorem placed_target {mantissa : Nat} {exponent t : Int} {x : ℚ} (hge : mantissa ≤ x) (hlt : x < mantissa + 1)
    (ht : Format.binary64.targetExponent (totalExponent mantissa exponent) = t) (hle : exponent ≤ t) :
    Placed (x * 2 ^ exponent) t := by
  rw [targetExponent_eq] at ht
  have hunit : (0 : ℚ) < 2 ^ exponent := by positivity
  refine ⟨by omega, ?_, ?_⟩
  · have hx : x < 2 ^ (mantissa.log2 + 1) := by
      have hlog : mantissa + 1 ≤ 2 ^ (mantissa.log2 + 1) := Nat.lt_log2_self
      have : (mantissa : ℚ) + 1 ≤ 2 ^ (mantissa.log2 + 1) := by exact_mod_cast hlog
      linarith
    calc x * 2 ^ exponent < 2 ^ (mantissa.log2 + 1) * 2 ^ exponent := (mul_lt_mul_iff_left₀ hunit).mpr hx
      _ = 2 ^ ((mantissa.log2 + 1 : Nat) + exponent) := by rw [zpow_add₀ (by norm_num), zpow_natCast]
      _ ≤ 2 ^ ((53 : Nat) + t) := zpow_le_zpow_right₀ (by norm_num) (by omega)
      _ = 2 ^ 53 * 2 ^ t := by rw [zpow_add₀ (by norm_num), zpow_natCast]
  · by_cases hzero : mantissa = 0
    · left
      rw [hzero, Nat.log2_zero] at ht
      omega
    · by_cases hleast : t = -1074
      · exact Or.inl hleast
      · right
        have hx : 2 ^ mantissa.log2 ≤ x := by
          have hlog : 2 ^ mantissa.log2 ≤ mantissa := Nat.log2_self_le hzero
          have : (2 : ℚ) ^ mantissa.log2 ≤ mantissa := by exact_mod_cast hlog
          linarith
        calc (2 : ℚ) ^ 52 * 2 ^ t = 2 ^ ((52 : Nat) + t) := by rw [zpow_add₀ (by norm_num), zpow_natCast]
          _ = 2 ^ ((mantissa.log2 : Int) + exponent) := by
            congr 1
            omega
          _ = 2 ^ mantissa.log2 * 2 ^ exponent := by rw [zpow_add₀ (by norm_num), zpow_natCast]
          _ ≤ x * 2 ^ exponent := (mul_le_mul_iff_left₀ hunit).mpr hx

/-- The unpacked double with a multiple of a last place. -/
def assemble (sign : Sign) (p : Nat × Int) : UnpackedFloat :=
  if h : p.1 = 0 then .zero sign else .finite sign p.1 p.2 (Nat.pos_of_ne_zero h)

theorem shiftToTargetExponent_eq (mantissa : Nat) (exponent : Int) (accuracy : Accuracy) (shift : Nat)
    (h : (Format.binary64.targetExponent (totalExponent mantissa exponent) - exponent).toNat = shift) :
    shiftToTargetExponent .binary64 mantissa exponent accuracy =
      (ExtendedMantissa.ofMantissaAndAccuracy mantissa accuracy >>> shift, exponent + shift) := by
  subst h
  rfl

/-- Core shifts once more, which carries. -/
theorem shiftToTargetExponent_carry {v : ℚ} {t : Int} {r : Nat} (hp : Placed v t) (hr : Nearest r (v / 2 ^ t)) :
    shiftToTargetExponent .binary64 r t .exact = (⟨(carry r t).1, false, false⟩, (carry r t).2) := by
  have hr53 := hp.le_of_nearest hr
  have hleast := hp.least
  unfold carry
  split
  · rename_i hcarry
    have hlog : r.log2 = 53 := by rw [hcarry, Nat.log2_two_pow]
    rw [shiftToTargetExponent_eq r t .exact 1 (by rw [targetExponent_eq]; omega), hcarry]
    rfl
  · rename_i hcarry
    have hlog : r.log2 < 53 := by
      by_cases hzero : r = 0
      · rw [hzero, Nat.log2_zero]
        decide
      · exact (Nat.log2_lt hzero).mpr (by omega)
    rw [shiftToTargetExponent_eq r t .exact 0 (by rw [targetExponent_eq]; omega), Nat.cast_zero, Int.add_zero]
    rfl

theorem roundWithAccuracy_eq (sign : Sign) {mantissa : Nat} {exponent : Int} {accuracy : Accuracy} {x : ℚ}
    (hx : Measures (.ofMantissaAndAccuracy mantissa accuracy) x)
    (hle : exponent ≤ Format.binary64.targetExponent (totalExponent mantissa exponent)) :
    ∃ t r, Placed (x * 2 ^ exponent) t ∧ Nearest r (x * 2 ^ exponent / 2 ^ t) ∧
      roundWithAccuracy .binary64 sign mantissa exponent accuracy = assemble sign (carry r t) := by
  obtain ⟨t, ht⟩ : ∃ t, Format.binary64.targetExponent (totalExponent mantissa exponent) = t := ⟨_, rfl⟩
  rw [ht] at hle
  have hmantissa : (ExtendedMantissa.ofMantissaAndAccuracy mantissa accuracy).mantissa = mantissa := by
    cases accuracy with
    | exact => rfl
    | inexact o => cases o <;> rfl
  have hplaced : Placed (x * 2 ^ exponent) t :=
    placed_target (hmantissa ▸ hx.ge) (hmantissa ▸ hx.lt) ht hle
  obtain ⟨shift, hshift⟩ : ∃ shift : Nat, t = exponent + shift := ⟨(t - exponent).toNat, by omega⟩
  have hdiv : x * 2 ^ exponent / 2 ^ t = x / 2 ^ shift := by
    rw [hshift, zpow_add₀ (by norm_num), zpow_natCast, mul_comm x, mul_div_mul_left _ _ (by positivity)]
  obtain ⟨r, hr⟩ : ∃ r, (ExtendedMantissa.ofMantissaAndAccuracy mantissa accuracy >>> shift).roundedMantissa = r :=
    ⟨_, rfl⟩
  have hnear : Nearest r (x * 2 ^ exponent / 2 ^ t) := by
    rw [hdiv, ← hr]
    exact (hx.shiftRight shift).nearest
  have hfirst : shiftToTargetExponent .binary64 mantissa exponent accuracy =
      (ExtendedMantissa.ofMantissaAndAccuracy mantissa accuracy >>> shift, t) := by
    rw [shiftToTargetExponent_eq mantissa exponent accuracy shift (by omega), ← hshift]
  have hsecond := shiftToTargetExponent_carry hplaced hnear
  refine ⟨t, r, hplaced, hnear, ?_⟩
  unfold roundWithAccuracy assemble
  simp only [hfirst, hr, hsecond]

/-! ## Rounded results -/

/-- The double a real that is not negative is rounded to. -/
def Rounds (v : ℚ) (y : Float) : Prop :=
  ∃ t r, Placed v t ∧ Nearest r (v / 2 ^ t) ∧ y = packed (assemble .positive (carry r t))

/-- The double a real of this sign is rounded to, given its modulus. -/
def RoundsAs (negative : Bool) (v : ℚ) (y : Float) : Prop :=
  ∃ t r, Placed v t ∧ Nearest r (v / 2 ^ t) ∧ y = packed (assemble (signOf negative) (carry r t))

theorem roundsAs_false {v : ℚ} {y : Float} : RoundsAs false v y ↔ Rounds v y := Iff.rfl

theorem canonical_of_carry {v : ℚ} {t : Int} {r : Nat} (hp : Placed v t) (hr : Nearest r (v / 2 ^ t))
    (hpos : (carry r t).1 ≠ 0) (hle : (carry r t).2 ≤ 971) :
    ∃ m : Magnitude, m.Canonical ∧ (m.significand, m.exponent) = carry r t := by
  have hleast := hp.least
  have hr53 := hp.le_of_nearest hr
  have hfull : t = -1074 ∨ 2 ^ 52 ≤ r := by
    refine hp.full.imp_right fun hv => ?_
    have hunit : (0 : ℚ) < 2 ^ t := by positivity
    have hge : (2 : ℚ) ^ 52 ≤ r + 1 / 2 := le_trans ((le_div_iff₀ hunit).mpr hv) hr.le
    have hlt : ((2 ^ 52 : Nat) : ℚ) < ((r + 1 : Nat) : ℚ) := by
      push_cast
      linarith
    have : 2 ^ 52 < r + 1 := by exact_mod_cast hlt
    omega
  by_cases hcarry : r = 2 ^ 53
  · rw [carry, if_pos hcarry] at hle ⊢
    have hlow : (-1074 : Int) < t + 1 := by omega
    have hlt : 2 ^ 52 < 2 ^ 53 := by decide
    exact ⟨⟨2 ^ 52, t + 1, true⟩,
      ⟨Nat.two_pow_pos 52, hlt, hlow.le, hle, Or.inr le_rfl, iff_of_true rfl ⟨rfl, hlow⟩⟩, rfl⟩
  · rw [carry, if_neg hcarry] at hpos hle ⊢
    have hlt : r < 2 ^ 53 := by omega
    exact ⟨⟨r, t, decide (r = 2 ^ 52 ∧ -1074 < t)⟩,
      ⟨Nat.pos_of_ne_zero hpos, hlt, hleast, hle, hfull, decide_eq_true_iff⟩, rfl⟩

theorem RoundsAs.value_of_catches {negative : Bool} {v : ℚ} {y : Float} {m : Magnitude} (h : RoundsAs negative v y)
    (hm : m.Canonical) (hv : m.Catches v) : value y = .finite negative m := by
  obtain ⟨t, r, hp, hr, rfl⟩ := h
  rw [(catches_iff hm hp hr).mp hv, assemble, dif_neg hm.pos.ne']
  exact value_packed_finite negative hm

theorem Rounds.value_of_catches {v : ℚ} {y : Float} {m : Magnitude} (h : Rounds v y) (hm : m.Canonical)
    (hv : m.Catches v) : value y = .finite false m := (roundsAs_false.mpr h).value_of_catches hm hv

/-- What is rounded to zero is at most half the least double. -/
theorem le_of_carry_eq_zero {v : ℚ} {t : Int} {r : Nat} (hp : Placed v t) (hr : Nearest r (v / 2 ^ t))
    (hzero : (carry r t).1 = 0) : v ≤ 2 ^ (-1075 : Int) := by
  have hunit : (0 : ℚ) < 2 ^ t := by positivity
  have hrzero : r = 0 := by
    unfold carry at hzero
    split at hzero
    · cases hzero
    · exact hzero
  have hle := hr.le
  rw [hrzero, Nat.cast_zero, zero_add] at hle
  rcases hp.full with hleast | hfull
  · rw [hleast, div_le_iff₀ (by positivity)] at hle
    rw [show (-1074 : Int) = -1075 + 1 from rfl, ← two_mul_zpow] at hle
    linarith
  · have hge := (le_div_iff₀ hunit).mpr hfull
    linarith

/-- What overflows is at least half a place past the largest double. -/
theorem le_of_lt_carry {v : ℚ} {t : Int} {r : Nat} (hp : Placed v t) (hr : Nearest r (v / 2 ^ t))
    (hlt : 971 < (carry r t).2) : (2 ^ 54 - 1) * 2 ^ (970 : Int) ≤ v := by
  have hunit : (0 : ℚ) < 2 ^ t := by positivity
  unfold carry at hlt
  split at hlt
  · rename_i hcarry
    have hpow : (2 : ℚ) ^ (970 + 1 : Int) ≤ 2 ^ t := zpow_le_zpow_right₀ (by norm_num) (by omega)
    have hge := (le_div_iff₀ hunit).mp hr.ge
    rw [← two_mul_zpow] at hpow
    rw [hcarry] at hge
    push_cast at hge
    generalize (2 : ℚ) ^ (970 : Int) = unit at hpow ⊢
    linarith
  · have hpow : (2 : ℚ) ^ (970 + 1 + 1 : Int) ≤ 2 ^ t := zpow_le_zpow_right₀ (by norm_num) (by omega)
    have hge := hp.full.resolve_left (by omega)
    rw [← two_mul_zpow, ← two_mul_zpow] at hpow
    have hpos : (0 : ℚ) < 2 ^ (970 : Int) := by positivity
    generalize (2 : ℚ) ^ (970 : Int) = unit at hpow hpos ⊢
    linarith

/-- Zero, a double that catches the modulus, or overflow, under the sign. -/
theorem RoundsAs.cases {negative : Bool} {v : ℚ} {y : Float} (h : RoundsAs negative v y) :
    (value y = .zero negative ∧ v ≤ 2 ^ (-1075 : Int)) ∨
      (∃ m : Magnitude, m.Canonical ∧ value y = .finite negative m ∧ m.Catches v) ∨
      (value y = .infinite negative ∧ (2 ^ 54 - 1) * 2 ^ (970 : Int) ≤ v) := by
  obtain ⟨t, r, hp, hr, rfl⟩ := h
  by_cases hzero : (carry r t).1 = 0
  · left
    rw [assemble, dif_pos hzero]
    exact ⟨value_packed_zero negative, le_of_carry_eq_zero hp hr hzero⟩
  · right
    by_cases hle : (carry r t).2 ≤ 971
    · left
      obtain ⟨m, hm, hcarry⟩ := canonical_of_carry hp hr hzero hle
      refine ⟨m, hm, ?_, (catches_iff hm hp hr).mpr hcarry.symm⟩
      rw [← hcarry, assemble, dif_neg hm.pos.ne']
      exact value_packed_finite negative hm
    · right
      rw [assemble, dif_neg hzero, packed_of_lt _ _ (by omega)]
      exact ⟨value_packed_infinity negative, le_of_lt_carry hp hr (not_le.mp hle)⟩

theorem Rounds.cases {v : ℚ} {y : Float} (h : Rounds v y) :
    (value y = .zero false ∧ v ≤ 2 ^ (-1075 : Int)) ∨
      (∃ m : Magnitude, m.Canonical ∧ value y = .finite false m ∧ m.Catches v) ∨
      (value y = .infinite false ∧ (2 ^ 54 - 1) * 2 ^ (970 : Int) ≤ v) := (roundsAs_false.mpr h).cases

theorem Rounds.value_eq_iff {v : ℚ} {y : Float} {m : Magnitude} (h : Rounds v y) (hm : m.Canonical) :
    value y = .finite false m ↔ m.Catches v := by
  refine ⟨fun hy => ?_, h.value_of_catches hm⟩
  rcases h.cases with ⟨hzero, -⟩ | ⟨m', -, hfinite, hcatches⟩ | ⟨hinf, -⟩
  · rw [hy] at hzero
    cases hzero
  · rw [hy] at hfinite
    cases hfinite
    exact hcatches
  · rw [hy] at hinf
    cases hinf

/-- Between underflow and overflow. -/
theorem Rounds.exists_finite {v : ℚ} {y : Float} (h : Rounds v y) (hlow : 2 ^ (-1075 : Int) < v)
    (hhigh : v < (2 ^ 54 - 1) * 2 ^ (970 : Int)) :
    ∃ m : Magnitude, m.Canonical ∧ value y = .finite false m ∧ m.Catches v := by
  rcases h.cases with ⟨-, hle⟩ | hfinite | ⟨-, hge⟩
  · exact absurd hlow (not_lt.mpr hle)
  · exact hfinite
  · exact absurd hhigh (not_lt.mpr hge)

theorem roundsAs_of_roundWithAccuracy (negative : Bool) {mantissa : Nat} {exponent : Int} {accuracy : Accuracy}
    {x v : ℚ} (hx : Measures (.ofMantissaAndAccuracy mantissa accuracy) x) (hv : x * 2 ^ exponent = v)
    (hle : exponent ≤ Format.binary64.targetExponent (totalExponent mantissa exponent)) :
    RoundsAs negative v (packed (roundWithAccuracy .binary64 (signOf negative) mantissa exponent accuracy)) := by
  obtain ⟨t, r, hp, hr, heq⟩ := roundWithAccuracy_eq (signOf negative) hx hle
  rw [hv] at hp hr
  exact ⟨t, r, hp, hr, by rw [heq]⟩

theorem rounds_of_roundWithAccuracy {mantissa : Nat} {exponent : Int} {accuracy : Accuracy} {x v : ℚ}
    (hx : Measures (.ofMantissaAndAccuracy mantissa accuracy) x) (hv : x * 2 ^ exponent = v)
    (hle : exponent ≤ Format.binary64.targetExponent (totalExponent mantissa exponent)) :
    Rounds v (packed (roundWithAccuracy .binary64 .positive mantissa exponent accuracy)) :=
  roundsAs_of_roundWithAccuracy false hx hv hle

/-! ## Product and quotient -/

theorem signOf_mul (s t : Bool) : signOf s * signOf t = signOf (s != t) := by
  cases s <;> cases t <;> rfl

theorem signOf_div (s t : Bool) : signOf s / signOf t = signOf (s != t) := by
  cases s <;> cases t <;> rfl

section

variable {a b : Float} {s t : Bool} {ma mb : Magnitude} (ha : value a = .finite s ma) (hb : value b = .finite t mb)

include ha hb

theorem roundsAs_mul : RoundsAs (s != t) (ma.toRat * mb.toRat) (a * b) := by
  have hma := canonical_of_value ha
  have hmb := canonical_of_value hb
  have hmul : a * b = packed (roundWithAccuracy .binary64 (signOf (s != t)) (ma.significand * mb.significand)
      (ma.exponent + mb.exponent) .exact) := by
    show packed (UnpackedFloat.mul .binary64 a.toModel.unpack b.toModel.unpack) = _
    rw [unpack_of_value ha, unpack_of_value hb, ← signOf_mul]
    rfl
  rw [hmul]
  refine roundsAs_of_roundWithAccuracy _ (measures_exact _) ?_ ?_
  · rw [zpow_add₀ (by norm_num), Magnitude.toRat, Magnitude.toRat]
    push_cast
    ring
  · rw [targetExponent_eq]
    by_cases hbig : 2 ^ 52 ≤ ma.significand * mb.significand
    · have hlog : 52 ≤ (ma.significand * mb.significand).log2 :=
        (Nat.le_log2 (by omega)).mpr hbig
      omega
    · have hea : ma.exponent = -1074 := by
        refine hma.full.resolve_right fun h => hbig ?_
        exact le_trans h (Nat.le_mul_of_pos_right _ hmb.pos)
      have heb : mb.exponent = -1074 := by
        refine hmb.full.resolve_right fun h => hbig ?_
        exact le_trans h (Nat.le_mul_of_pos_left _ hma.pos)
      omega

theorem roundsAs_div : RoundsAs (s != t) (ma.toRat / mb.toRat) (a / b) := by
  have hma := canonical_of_value ha
  have hmb := canonical_of_value hb
  obtain ⟨e, he⟩ : ∃ e, min (ma.exponent - mb.exponent) (Format.binary64.targetExponent
      (totalExponent ma.significand ma.exponent - totalExponent mb.significand mb.exponent)) = e := ⟨_, rfl⟩
  obtain ⟨shift, hshift⟩ : ∃ shift : Nat, ma.exponent - mb.exponent = e + shift :=
    ⟨(ma.exponent - mb.exponent - e).toNat, by omega⟩
  have hdiv : a / b = packed (roundWithAccuracy .binary64 (signOf (s != t))
      (ma.significand <<< shift / mb.significand) e
      (accuracyOfFraction (ma.significand <<< shift % mb.significand) mb.significand)) := by
    have hcore : divCore .binary64 ma.significand ma.exponent mb.significand mb.exponent =
        (ma.significand <<< shift / mb.significand, e,
          accuracyOfFraction (ma.significand <<< shift % mb.significand) mb.significand) := by
      unfold divCore
      simp only [he, show (ma.exponent - mb.exponent - e).toNat = shift by omega]
    show packed (UnpackedFloat.div .binary64 a.toModel.unpack b.toModel.unpack) = _
    rw [unpack_of_value ha, unpack_of_value hb]
    simp only [UnpackedFloat.div, hcore, signOf_div]
  rw [hdiv]
  refine roundsAs_of_roundWithAccuracy _ (measures_quotient _ hmb.pos) ?_ ?_
  · have hpow : (2 : ℚ) ^ shift * 2 ^ e = 2 ^ ma.exponent / 2 ^ mb.exponent := by
      rw [← zpow_sub₀ (by norm_num), hshift, zpow_add₀ (by norm_num), zpow_natCast, mul_comm]
    rw [Nat.shiftLeft_eq, Magnitude.toRat, Magnitude.toRat, ← div_mul_div_comm, ← hpow]
    push_cast
    ring
  · rw [targetExponent_eq]
    by_cases hleast : e ≤ -1074
    · omega
    · have htotal : e ≤ (ma.significand.log2 + 1 + ma.exponent) - (mb.significand.log2 + 1 + mb.exponent) - 53 := by
        have hmin : e ≤ max ((ma.significand.log2 + 1 + ma.exponent) - (mb.significand.log2 + 1 + mb.exponent) - 53)
            (-1074) := he ▸ min_le_right _ _
        omega
      have hquotient : 2 ^ 52 ≤ ma.significand <<< shift / mb.significand := by
        rw [Nat.le_div_iff_mul_le hmb.pos, Nat.shiftLeft_eq]
        calc 2 ^ 52 * mb.significand ≤ 2 ^ 52 * 2 ^ (mb.significand.log2 + 1) :=
              Nat.mul_le_mul_left _ Nat.lt_log2_self.le
          _ = 2 ^ (52 + (mb.significand.log2 + 1)) := (pow_add _ _ _).symm
          _ ≤ 2 ^ (ma.significand.log2 + shift) := Nat.pow_le_pow_right (by decide) (by omega)
          _ = 2 ^ ma.significand.log2 * 2 ^ shift := pow_add _ _ _
          _ ≤ ma.significand * 2 ^ shift := Nat.mul_le_mul_right _ (Nat.log2_self_le hma.pos.ne')
      have hlog : 52 ≤ (ma.significand <<< shift / mb.significand).log2 :=
        (Nat.le_log2 (by omega)).mpr hquotient
      omega

end

section

variable {a b : Float} {ma mb : Magnitude} (ha : value a = .finite false ma) (hb : value b = .finite false mb)

include ha hb

theorem rounds_mul : Rounds (ma.toRat * mb.toRat) (a * b) := roundsAs_mul ha hb

theorem rounds_div : Rounds (ma.toRat / mb.toRat) (a / b) := roundsAs_div ha hb

end

/-! ## Whole numbers and sums -/

theorem log2_shiftLeft {n : Nat} (hpos : 0 < n) (shift : Nat) : (n <<< shift).log2 = n.log2 + shift := by
  have hlog := (Nat.log2_eq_iff hpos.ne').mp rfl
  rw [Nat.shiftLeft_eq, Nat.log2_eq_iff (by positivity), pow_add, add_right_comm, pow_add _ (n.log2 + 1)]
  exact ⟨Nat.mul_le_mul_right _ hlog.1, (Nat.mul_lt_mul_right (by positivity)).mpr hlog.2⟩

/-- Core's rounding of a whole number of units of any size. -/
theorem roundsAs_round (negative : Bool) {n : Nat} (hpos : 0 < n) (e : Int) :
    RoundsAs negative (n * 2 ^ e) (packed (UnpackedFloat.round .binary64 (signOf negative) n e)) := by
  obtain ⟨t, ht⟩ : ∃ t, Format.binary64.targetExponent (totalExponent n e) = t := ⟨_, rfl⟩
  obtain ⟨shift, hshift⟩ : ∃ shift : Nat, (e - t).toNat = shift := ⟨_, rfl⟩
  have hround : UnpackedFloat.round .binary64 (signOf negative) n e =
      roundWithAccuracy .binary64 (signOf negative) (n <<< shift) (e - (shift : Int)) .exact := by
    simp only [UnpackedFloat.round, decreaseExponent, ht, hshift]
  rw [hround]
  refine roundsAs_of_roundWithAccuracy negative (measures_exact _) ?_ ?_
  · rw [Nat.shiftLeft_eq, zpow_sub₀ (by norm_num), zpow_natCast]
    push_cast
    field_simp
  · have hlog := log2_shiftLeft hpos shift
    rw [targetExponent_eq] at ht ⊢
    omega

theorem rounds_ofNat {n : Nat} (hpos : 0 < n) (hlt : n < 2 ^ 64) : Rounds n n.toUInt64.toFloat := by
  have hword : n.toUInt64.toNat = n := by
    rw [Nat.toUInt64, UInt64.toNat_ofNat', Nat.mod_eq_of_lt hlt]
  have hround : n.toUInt64.toFloat = packed (UnpackedFloat.round .binary64 .positive n 0) := by
    show packed (UnpackedFloat.ofNat .binary64 n.toUInt64.toNat) = _
    have hsign : compare (n : Int) 0 = .gt := Int.compare_eq_gt.mpr (by omega)
    simp only [hword, UnpackedFloat.ofNat, UnpackedFloat.ofInt, UnpackedFloat.normalize, hsign, Int.toNat_natCast]
  have hexact := roundsAs_round false hpos 0
  rw [zpow_zero, mul_one] at hexact
  rw [hround]
  exact hexact

theorem rounds_add {a b : Float} {ma mb : Magnitude} (ha : value a = .finite false ma)
    (hb : value b = .finite false mb) : Rounds (ma.toRat + mb.toRat) (a + b) := by
  obtain ⟨e, he⟩ : ∃ e, min ma.exponent mb.exponent = e := ⟨_, rfl⟩
  obtain ⟨i, hi⟩ : ∃ i : Nat, ma.exponent = e + i := ⟨(ma.exponent - e).toNat, by omega⟩
  obtain ⟨j, hj⟩ : ∃ j : Nat, mb.exponent = e + j := ⟨(mb.exponent - e).toNat, by omega⟩
  obtain ⟨n, hn⟩ : ∃ n, ma.significand <<< i + mb.significand <<< j = n := ⟨_, rfl⟩
  have hpos : 0 < n := by
    have hma := (canonical_of_value ha).pos
    rw [← hn, Nat.shiftLeft_eq]
    positivity
  have hadd : a + b = packed (UnpackedFloat.round .binary64 .positive n e) := by
    have hsum : ((ma.significand <<< i : Nat) : Int) + (mb.significand <<< j : Nat) = n := by exact_mod_cast hn
    have hsign : compare (n : Int) 0 = .gt := Int.compare_eq_gt.mpr (by omega)
    show packed (UnpackedFloat.add .binary64 a.toModel.unpack b.toModel.unpack) = _
    rw [unpack_of_value ha, unpack_of_value hb]
    simp only [UnpackedFloat.add, decreaseExponent, he, show (ma.exponent - e).toNat = i by omega,
      show (mb.exponent - e).toNat = j by omega]
    show packed (UnpackedFloat.normalize .binary64 (((ma.significand <<< i : Nat) : Int) + (mb.significand <<< j : Nat))
      e .positive) = _
    simp only [hsum, UnpackedFloat.normalize, hsign, Int.toNat_natCast]
  have hunits : ma.toRat + mb.toRat = n * 2 ^ e := by
    rw [Magnitude.toRat, Magnitude.toRat, hi, hj, zpow_add₀ (by norm_num), zpow_add₀ (by norm_num), ← hn,
      Nat.shiftLeft_eq, Nat.shiftLeft_eq]
    push_cast
    simp only [zpow_natCast]
    ring
  rw [hadd, hunits]
  exact roundsAs_round false hpos e

end FeatureVector.Binary64

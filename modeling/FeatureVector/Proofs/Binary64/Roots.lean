/-
  FeatureVector.Proofs.Binary64.Roots — sums of squares and their square roots.

  A sum of doubles that are not negative is none of them less (`nonneg_sum`): rounding never
  takes a result below a double that the exact one is not below (`Rounds.le_extent`). So a sum
  of squares is zero only if every square is, and finite only if every square is.

  The root of a positive double, squared, is within a factor of sixteen of the double
  (`exists_sqrt`). That is all it takes to tell that a quotient by it does not overflow
  (`isFinite_quotient`) and when it does not underflow (`quotient_not_zero`).
-/
import FeatureVector.Proofs.Binary64.Operations
import FeatureVector.Proofs.Binary64.SameNumber

namespace FeatureVector.Binary64

open Float.Model Float.Model.UnpackedFloat

/-! ## Order of rounded results -/

namespace Magnitude

variable {m m' : Magnitude} (hm : m.Canonical) (hm' : m'.Canonical)

include hm

theorem le_toRat : 2 ^ (-1074 : Int) ≤ m.toRat := by
  have hsig : (1 : ℚ) ≤ m.significand := by exact_mod_cast hm.pos
  have hexp : (2 : ℚ) ^ (-1074 : Int) ≤ 2 ^ m.exponent := zpow_le_zpow_right₀ (by norm_num) hm.least
  calc (2 : ℚ) ^ (-1074 : Int) ≤ 2 ^ m.exponent := hexp
    _ ≤ m.significand * 2 ^ m.exponent := le_mul_of_one_le_left (by positivity) hsig

theorem toRat_lt : m.toRat < 2 ^ (1024 : Int) := by
  have hsig : (m.significand : ℚ) < 2 ^ 53 := by exact_mod_cast hm.lt
  have hexp : (2 : ℚ) ^ m.exponent ≤ 2 ^ (971 : Int) := zpow_le_zpow_right₀ (by norm_num) hm.greatest
  calc m.toRat < 2 ^ 53 * 2 ^ m.exponent := (mul_lt_mul_iff_left₀ (by positivity)).mpr hsig
    _ ≤ 2 ^ 53 * 2 ^ (971 : Int) := mul_le_mul_of_nonneg_left hexp (by positivity)
    _ = 2 ^ (1024 : Int) := by
        rw [← zpow_natCast, ← zpow_add₀ (by norm_num)]
        rfl

include hm'

theorem toRat_lt_of_exponent_lt (h : m.exponent < m'.exponent) : m.toRat < m'.toRat := by
  have hfull : (2 : ℚ) ^ 52 ≤ m'.significand := by
    have hleast := hm.least
    exact_mod_cast hm'.full.resolve_left (by omega)
  have hsig : (m.significand : ℚ) < 2 ^ 53 := by exact_mod_cast hm.lt
  have hpow : (2 : ℚ) ^ (m.exponent + 1) ≤ 2 ^ m'.exponent := zpow_le_zpow_right₀ (by norm_num) (by omega)
  rw [← two_mul_zpow] at hpow
  calc m.toRat < 2 ^ 53 * 2 ^ m.exponent := (mul_lt_mul_iff_left₀ (by positivity)).mpr hsig
    _ = 2 ^ 52 * (2 * 2 ^ m.exponent) := by ring
    _ ≤ 2 ^ 52 * 2 ^ m'.exponent := mul_le_mul_of_nonneg_left hpow (by positivity)
    _ ≤ m'.toRat := (mul_le_mul_iff_left₀ (by positivity)).mpr hfull

/-- The next larger double is at least one last place away. -/
theorem toRat_add_le (h : m.toRat < m'.toRat) : m.toRat + 2 ^ m.exponent ≤ m'.toRat := by
  have hunit : (0 : ℚ) < 2 ^ m.exponent := by positivity
  have hexp : m.exponent ≤ m'.exponent := by
    by_contra hlt
    exact h.asymm (toRat_lt_of_exponent_lt hm' hm (not_le.mp hlt))
  obtain ⟨k, hk⟩ : ∃ k : Nat, m'.exponent = m.exponent + k := ⟨(m'.exponent - m.exponent).toNat, by omega⟩
  have hunits : m'.toRat = (m'.significand * 2 ^ k : Nat) * 2 ^ m.exponent := by
    rw [toRat, hk, zpow_add₀ (by norm_num), zpow_natCast]
    push_cast
    ring
  rw [hunits] at h ⊢
  have hlt : m.significand < m'.significand * 2 ^ k := by
    exact_mod_cast (mul_lt_mul_iff_left₀ hunit).mp h
  have hle : (m.significand : ℚ) + 1 ≤ (m'.significand * 2 ^ k : Nat) := by exact_mod_cast hlt
  calc m.toRat + 2 ^ m.exponent = (m.significand + 1) * 2 ^ m.exponent := by
        rw [toRat]
        ring
    _ ≤ _ := (mul_le_mul_iff_left₀ hunit).mpr hle

/-- A double not above what is rounded is not above the result. -/
theorem Catches.le_of_le {v : ℚ} (h : m.Catches v) (hle : m'.toRat ≤ v) : m'.toRat ≤ m.toRat := by
  by_contra hlt
  have hnext := toRat_add_le hm hm' (not_le.mp hlt)
  have hhigh := h.le_high
  have hunit : (0 : ℚ) < 2 ^ (m.exponent - 2) := by positivity
  have hquarters : (m.highQuarters : ℚ) * 2 ^ (m.exponent - 2) = m.toRat + 2 * 2 ^ (m.exponent - 2) := by
    rw [toRat_eq_quarters, highQuarters]
    push_cast
    ring
  have hunits : (2 : ℚ) ^ m.exponent = 4 * 2 ^ (m.exponent - 2) := by
    rw [zpow_sub₀ (by norm_num)]
    norm_num
    ring
  linarith

end Magnitude

/-! ## Doubles that are not negative -/

/-- Zero of either sign, positive, or positive infinity. -/
def Nonneg (x : Float) : Prop :=
  (∃ s, value x = .zero s) ∨ (∃ m, value x = .finite false m) ∨ value x = .infinite false

/-- The modulus of a number, above every other if it is infinite. -/
def extent (x : Float) : WithTop ℚ :=
  match value x with
  | .finite _ m => m.toRat
  | .infinite _ => ⊤
  | .zero _ | .nan => 0

theorem extent_zero {x : Float} {s : Bool} (h : value x = .zero s) : extent x = 0 := by
  rw [extent, h]

theorem extent_finite {x : Float} {s : Bool} {m : Magnitude} (h : value x = .finite s m) : extent x = m.toRat := by
  rw [extent, h]

theorem extent_infinite {x : Float} {s : Bool} (h : value x = .infinite s) : extent x = ⊤ := by
  rw [extent, h]

theorem SameNumber.extent_eq {x y : Float} (h : SameNumber x y) : extent x = extent y := by
  rcases sameNumber_iff.mp h with rfl | ⟨s, t, hx, hy⟩
  · rfl
  · rw [extent_zero hx, extent_zero hy]

theorem SameNumber.nonneg {x y : Float} (h : SameNumber x y) (hx : Nonneg x) : Nonneg y := by
  rcases sameNumber_iff.mp h with rfl | ⟨s, t, -, hy⟩
  · exact hx
  · exact .inl ⟨t, hy⟩

theorem Nonneg.extent_ge {x : Float} (h : Nonneg x) : 0 ≤ extent x := by
  rcases h with ⟨s, hx⟩ | ⟨m, hx⟩ | hx
  · rw [extent_zero hx]
  · rw [extent_finite hx]
    exact_mod_cast (Magnitude.toRat_pos (canonical_of_value hx)).le
  · rw [extent_infinite hx]
    exact le_top

theorem Nonneg.extent_eq_zero_iff {x : Float} (h : Nonneg x) : extent x = 0 ↔ ∃ s, value x = .zero s := by
  refine ⟨fun hx => ?_, fun ⟨s, hs⟩ => extent_zero hs⟩
  rcases h with hzero | ⟨m, hm⟩ | hinf
  · exact hzero
  · rw [extent_finite hm] at hx
    have hpos := Magnitude.toRat_pos (canonical_of_value hm)
    have : m.toRat = 0 := by exact_mod_cast hx
    linarith
  · rw [extent_infinite hinf] at hx
    cases hx

theorem Nonneg.infinite_iff {x : Float} (h : Nonneg x) : x.isFinite = false ↔ value x = .infinite false := by
  rw [isFinite_eq]
  rcases h with ⟨s, hx⟩ | ⟨m, hx⟩ | hx
  · simp [hx, Value.unpacked, UnpackedFloat.isFinite]
  · rw [hx, Value.unpacked_finite false (canonical_of_value hx)]
    simp [UnpackedFloat.isFinite]
  · simp [hx, Value.unpacked, UnpackedFloat.isFinite]

theorem Nonneg.positive_iff {x : Float} (h : Nonneg x) :
    x.isFinite = true ∧ (x == zero) = false ↔ ∃ m, value x = .finite false m := by
  rw [← Bool.not_eq_false, h.infinite_iff, ← Bool.not_eq_true, beq_zero_iff]
  rcases h with ⟨s, hx⟩ | ⟨m, hx⟩ | hx
  · simp [hx]
  · simp [hx]
  · simp [hx]

theorem Rounds.nonneg {v : ℚ} {y : Float} (h : Rounds v y) : Nonneg y := by
  rcases h.cases with ⟨hzero, -⟩ | ⟨m, -, hm, -⟩ | ⟨hinf, -⟩
  · exact .inl ⟨false, hzero⟩
  · exact .inr (.inl ⟨m, hm⟩)
  · exact .inr (.inr hinf)

/-- A double not above what is rounded is not above the result. -/
theorem Rounds.le_extent {v : ℚ} {y : Float} (h : Rounds v y) {m : Magnitude} (hm : m.Canonical) (hle : m.toRat ≤ v) :
    m.toRat ≤ extent y := by
  rcases h.cases with ⟨-, hsmall⟩ | ⟨m', hm', hy, hcatches⟩ | ⟨hinf, -⟩
  · have hleast := Magnitude.le_toRat hm
    have hpow : (2 : ℚ) ^ (-1075 : Int) < 2 ^ (-1074 : Int) := zpow_lt_zpow_right₀ (by norm_num) (by decide)
    linarith
  · rw [extent_finite hy]
    exact_mod_cast hcatches.le_of_le hm' hm hle
  · rw [extent_infinite hinf]
    exact le_top

theorem value_infinite_add {x y : Float} (hx : value x = .infinite false) (hy : Nonneg y) :
    value (x + y) = .infinite false := by
  have hadd : (UnpackedFloat.infinity (signOf false)).add .binary64 (value y).unpacked = .infinity (signOf false) := by
    rcases hy with ⟨s, hs⟩ | ⟨m, hm⟩ | hinf
    · rw [hs]
      rfl
    · rw [hm, Value.unpacked_finite false (canonical_of_value hm)]
      rfl
    · rw [hinf]
      rfl
  rw [add_eq, hx, Value.unpacked, hadd, value_packed_infinity]

/-- A sum is not negative and not less than its first summand. -/
theorem nonneg_add {x y : Float} (hx : Nonneg x) (hy : Nonneg y) : Nonneg (x + y) ∧ extent x ≤ extent (x + y) := by
  rcases hx with ⟨s, hs⟩ | ⟨m, hm⟩ | hinf
  · have hsame := sameNumber_add_zero y hs
    rw [add_commutes] at hsame
    rw [extent_zero hs, ← hsame.extent_eq]
    exact ⟨hsame.nonneg hy, hy.extent_ge⟩
  · rcases hy with ⟨t, ht⟩ | ⟨m', hm'⟩ | hinf
    · have hsame := sameNumber_add_zero x ht
      exact ⟨hsame.nonneg (.inr (.inl ⟨m, hm⟩)), hsame.extent_eq.le⟩
    · have hrounds := rounds_add hm hm'
      have hpos := Magnitude.toRat_pos (canonical_of_value hm')
      rw [extent_finite hm]
      exact ⟨hrounds.nonneg, hrounds.le_extent (canonical_of_value hm) (by linarith)⟩
    · have hsum := value_infinite_add hinf (.inr (.inl ⟨m, hm⟩))
      rw [add_commutes] at hsum
      rw [extent_infinite hsum]
      exact ⟨.inr (.inr hsum), le_top⟩
  · have hsum := value_infinite_add hinf hy
    rw [extent_infinite hsum]
    exact ⟨.inr (.inr hsum), le_top⟩

theorem value_zero_add {x y : Float} (hx : ∃ s, value x = .zero s) (hy : ∃ s, value y = .zero s) :
    ∃ s, value (x + y) = .zero s := by
  obtain ⟨t, ht⟩ := hy
  exact beq_zero_iff.mp (sameNumber_zero_iff.mp
    ((sameNumber_add_zero x ht).symm.trans (sameNumber_zero_iff.mpr (beq_zero_iff.mpr hx))))

/-- Summands that are not negative, added one after the other to one that is not either. -/
theorem nonneg_foldl {terms : List Float} (hterms : ∀ t ∈ terms, Nonneg t) {a : Float} (ha : Nonneg a) :
    Nonneg (terms.foldl (· + ·) a) ∧ extent a ≤ extent (terms.foldl (· + ·) a) ∧
      (∀ t ∈ terms, extent t ≤ extent (terms.foldl (· + ·) a)) ∧
      ((∃ s, value a = .zero s) → (∀ t ∈ terms, ∃ s, value t = .zero s) →
        ∃ s, value (terms.foldl (· + ·) a) = .zero s) := by
  induction terms generalizing a with
  | nil => exact ⟨ha, le_rfl, nofun, fun hzero _ => hzero⟩
  | cons t terms ih =>
    have ht : Nonneg t := hterms t List.mem_cons_self
    obtain ⟨hsum, hle⟩ := nonneg_add ha ht
    obtain ⟨-, hle'⟩ := nonneg_add ht ha
    rw [add_commutes] at hle'
    obtain ⟨hnonneg, hge, hall, hzero⟩ := ih (fun u hu => hterms u (List.mem_cons_of_mem _ hu)) hsum
    refine ⟨hnonneg, hle.trans hge, fun u hu => ?_, fun hza hzt => ?_⟩
    · rcases List.mem_cons.mp hu with rfl | hu
      · exact hle'.trans hge
      · exact hall u hu
    · exact hzero (value_zero_add hza (hzt t List.mem_cons_self)) fun u hu => hzt u (List.mem_cons_of_mem _ hu)

/-- A sum of doubles that are not negative is not less than any of them, and zero exactly if
    all are. -/
theorem nonneg_sum {terms : List Float} (h : ∀ t ∈ terms, Nonneg t) :
    Nonneg (sum terms) ∧ (∀ t ∈ terms, extent t ≤ extent (sum terms)) ∧
      ((∃ s, value (sum terms) = .zero s) ↔ ∀ t ∈ terms, ∃ s, value t = .zero s) := by
  have hstart : value negZero = .zero true := by decide
  obtain ⟨hnonneg, -, hall, hzero⟩ := nonneg_foldl h (.inl ⟨true, hstart⟩)
  refine ⟨hnonneg, hall, fun hsum t ht => ?_, hzero ⟨true, hstart⟩⟩
  have hle := hall t ht
  rw [hnonneg.extent_eq_zero_iff.mpr hsum] at hle
  exact (h t ht).extent_eq_zero_iff.mp (le_antisymm hle (h t ht).extent_ge)

/-! ## Squares -/

theorem rounds_square {x : Float} {s : Bool} {m : Magnitude} (h : value x = .finite s m) :
    Rounds (m.toRat ^ 2) (square x) := by
  have hmul := roundsAs_mul h h
  rw [bne_self_eq_false, ← sq] at hmul
  exact hmul

/-- A square that is a zero, or finite, is half as large as the exact one at least. -/
theorem sq_le_of_extent_le {x : Float} {s : Bool} {m b : Magnitude} (h : value x = .finite s m) (hb : b.Canonical)
    (hle : extent (square x) ≤ b.toRat) : m.toRat ^ 2 ≤ 2 * b.toRat := by
  have hleast := Magnitude.le_toRat hb
  have hpos := Magnitude.toRat_pos hb
  rcases (rounds_square h).cases with ⟨-, hsmall⟩ | ⟨m', hm', hy, hcatches⟩ | ⟨hinf, -⟩
  · have hpow : (2 : ℚ) ^ (-1075 : Int) < 2 ^ (-1074 : Int) := zpow_lt_zpow_right₀ (by norm_num) (by decide)
    linarith
  · rw [extent_finite hy] at hle
    have hm'b : m'.toRat ≤ b.toRat := by exact_mod_cast hle
    have hnear := (hcatches.le_two_mul hm').1
    linarith
  · rw [extent_infinite hinf] at hle
    exact absurd (top_le_iff.mp hle) (by simp)

/-- A square that does not underflow. -/
theorem le_sq_of_not_zero {x : Float} {s : Bool} {m : Magnitude} (h : value x = .finite s m)
    (hne : (square x == zero) = false) : 2 ^ (-1075 : Int) ≤ m.toRat ^ 2 := by
  rcases (rounds_square h).cases with ⟨hzero, -⟩ | ⟨m', hm', -, hcatches⟩ | ⟨-, hlarge⟩
  · rw [beq_zero_iff.mpr ⟨_, hzero⟩] at hne
    cases hne
  · have hleast := Magnitude.le_toRat hm'
    have hnear := (hcatches.le_two_mul hm').2
    rw [show (-1074 : Int) = -1075 + 1 from rfl, ← two_mul_zpow] at hleast
    linarith
  · calc (2 : ℚ) ^ (-1075 : Int) ≤ 2 ^ (970 : Int) := zpow_le_zpow_right₀ (by norm_num) (by decide)
      _ ≤ (2 ^ 54 - 1) * 2 ^ (970 : Int) := le_mul_of_one_le_left (by positivity) (by norm_num)
      _ ≤ m.toRat ^ 2 := hlarge

/-! ## Square roots -/

theorem sqrt_eq (x : Float) : x.sqrt = packed ((value x).unpacked.sqrt .binary64) := by
  rw [← unpack_eq]
  rfl

theorem value_sqrt_zero {x : Float} {s : Bool} (h : value x = .zero s) : value x.sqrt = .zero s := by
  rw [sqrt_eq, h]
  exact value_packed_zero s

theorem value_sqrt_infinite {x : Float} (h : value x = .infinite false) : value x.sqrt = .infinite false := by
  rw [sqrt_eq, h]
  exact value_packed_infinity false

/-- The whole root and the rest say on which side of the half the root lies. -/
theorem exists_measures_sqrt (n : Nat) :
    ∃ x : ℚ, Measures (.ofMantissaAndAccuracy n.sqrt (if n - n.sqrt * n.sqrt = 0 then .exact
        else .inexact (if n - n.sqrt * n.sqrt ≤ n.sqrt then .lt else .gt))) x ∧
      (n.sqrt : ℚ) ≤ x ∧ x < n.sqrt + 1 := by
  split
  · exact ⟨n.sqrt, measures_exact _, le_rfl, by linarith⟩
  · split
    · refine ⟨n.sqrt + 1 / 4, measures_inexact _ (by norm_num) (by norm_num) ?_, by linarith, by linarith⟩
      exact .inl ⟨rfl, by norm_num⟩
    · refine ⟨n.sqrt + 3 / 4, measures_inexact _ (by norm_num) (by norm_num) ?_, by linarith, by linarith⟩
      exact .inr (.inr ⟨rfl, by norm_num⟩)

/-- What is less than one above the whole root is within a factor of two of the root. -/
theorem sq_of_near_sqrt {n : Nat} (hn : 0 < n) {x : ℚ} (hge : (n.sqrt : ℚ) ≤ x) (hlt : x < n.sqrt + 1) :
    0 < x ∧ (n : ℚ) < 4 * x ^ 2 ∧ x ^ 2 < 4 * n := by
  have hroot : (1 : ℚ) ≤ n.sqrt := by exact_mod_cast Nat.sqrt_pos.mpr hn
  have hlow : (n.sqrt : ℚ) ^ 2 ≤ n := by exact_mod_cast Nat.sqrt_le' n
  have hhigh : (n : ℚ) < (n.sqrt + 1) ^ 2 := by exact_mod_cast Nat.lt_succ_sqrt' n
  refine ⟨by linarith, ?_, ?_⟩
  · calc (n : ℚ) < (n.sqrt + 1) ^ 2 := hhigh
      _ ≤ (2 * x) ^ 2 := pow_le_pow_left₀ (by positivity) (by linarith) 2
      _ = 4 * x ^ 2 := by ring
  · calc x ^ 2 < (2 * (n.sqrt : ℚ)) ^ 2 := pow_lt_pow_left₀ (by linarith) (by linarith) (by norm_num)
      _ = 4 * (n.sqrt : ℚ) ^ 2 := by ring
      _ ≤ 4 * n := by linarith

theorem exists_rounds_sqrt {a : Float} {m : Magnitude} (ha : value a = .finite false m) :
    ∃ q, Rounds q a.sqrt ∧ 0 < q ∧ m.toRat < 4 * q ^ 2 ∧ q ^ 2 < 4 * m.toRat := by
  have hm := canonical_of_value ha
  obtain ⟨t, ht⟩ : ∃ t, min (m.exponent.ediv 2) (Format.binary64.targetExponent
      ((totalExponent m.significand m.exponent + 1).ediv 2)) = t := ⟨_, rfl⟩
  have hhalf : m.exponent.ediv 2 = m.exponent / 2 := rfl
  obtain ⟨shift, hshift⟩ : ∃ shift : Nat, m.exponent = 2 * t + shift := ⟨(m.exponent - 2 * t).toNat, by omega⟩
  obtain ⟨n, hn⟩ : ∃ n, m.significand <<< shift = n := ⟨_, rfl⟩
  have hpos : 0 < n := by
    have := hm.pos
    rw [← hn, Nat.shiftLeft_eq]
    positivity
  have hunits : m.toRat = n * (2 ^ t) ^ 2 := by
    rw [Magnitude.toRat, hshift, ← hn, Nat.shiftLeft_eq, zpow_add₀ (by norm_num), zpow_natCast, two_mul,
      zpow_add₀ (by norm_num)]
    push_cast
    ring
  obtain ⟨x, hx, hge, hlt⟩ := exists_measures_sqrt n
  obtain ⟨hxpos, hlow, hhigh⟩ := sq_of_near_sqrt hpos hge hlt
  have hunit : (0 : ℚ) < (2 ^ t) ^ 2 := by positivity
  refine ⟨x * 2 ^ t, ?_, by positivity, ?_, ?_⟩
  · have hsqrt : a.sqrt = packed (roundWithAccuracy .binary64 .positive n.sqrt t (if n - n.sqrt * n.sqrt = 0 then .exact
        else .inexact (if n - n.sqrt * n.sqrt ≤ n.sqrt then .lt else .gt))) := by
      rw [sqrt_eq, ha, Value.unpacked_finite false hm]
      show packed (UnpackedFloat.sqrt .binary64 (.finite .positive _ _ _)) = _
      simp only [UnpackedFloat.sqrt, sqrtCore, ht, show (m.exponent - 2 * t).toNat = shift by omega, hn]
    rw [hsqrt]
    refine rounds_of_roundWithAccuracy hx rfl ?_
    -- past the lowest binade the shifted significand has twice the bits of the root
    rw [targetExponent_eq]
    by_cases hleast : t ≤ -1074
    · omega
    · have htarget : t ≤ (m.significand.log2 + 1 + m.exponent + 1) / 2 - 53 := by
        have hmin : t ≤ max ((m.significand.log2 + 1 + m.exponent + 1) / 2 - 53) (-1074) := ht ▸ min_le_right _ _
        omega
      have hlog := log2_shiftLeft hm.pos shift
      rw [hn] at hlog
      have hlarge : (2 ^ 52) ^ 2 ≤ n := by
        rw [← pow_mul]
        exact (Nat.le_log2 hpos.ne').mp (by omega)
      have hroot : 52 ≤ n.sqrt.log2 := (Nat.le_log2 (Nat.sqrt_pos.mpr hpos).ne').mpr (Nat.le_sqrt'.mpr hlarge)
      omega
  · rw [hunits, mul_pow, ← mul_assoc]
    exact (mul_lt_mul_iff_left₀ hunit).mpr hlow
  · rw [hunits, mul_pow, ← mul_assoc]
    exact (mul_lt_mul_iff_left₀ hunit).mpr hhigh

/-- The root of a positive double, squared, is within a factor of sixteen of the double. -/
theorem exists_sqrt {a : Float} {m : Magnitude} (ha : value a = .finite false m) :
    ∃ r : Magnitude, value a.sqrt = .finite false r ∧ m.toRat < 16 * r.toRat ^ 2 ∧ r.toRat ^ 2 < 16 * m.toRat := by
  have hm := canonical_of_value ha
  have hleast := Magnitude.le_toRat hm
  have hgreatest := Magnitude.toRat_lt hm
  obtain ⟨q, hq, hpos, hlow, hhigh⟩ := exists_rounds_sqrt ha
  have hunderflow : (2 : ℚ) ^ (-1075 : Int) < q := by
    refine lt_of_pow_lt_pow_left₀ 2 hpos.le ?_
    have hsquare : ((2 : ℚ) ^ (-1075 : Int)) ^ 2 ≤ 2 ^ (-1076 : Int) := by
      rw [← zpow_natCast, ← zpow_mul]
      exact zpow_le_zpow_right₀ (by norm_num) (by decide)
    have hquarter : 4 * (2 : ℚ) ^ (-1076 : Int) = 2 ^ (-1074 : Int) := by
      rw [show (4 : ℚ) = 2 * 2 by norm_num, mul_assoc, two_mul_zpow, two_mul_zpow]
      rfl
    linarith
  have hoverflow : q < (2 ^ 54 - 1) * 2 ^ (970 : Int) := by
    have hlarge : (2 : ℚ) ^ (970 : Int) ≤ (2 ^ 54 - 1) * 2 ^ (970 : Int) :=
      le_mul_of_one_le_left (by positivity) (by norm_num)
    refine lt_of_lt_of_le (lt_of_pow_lt_pow_left₀ 2 (by positivity) ?_) hlarge
    have hsquare : (2 : ℚ) ^ (1026 : Int) ≤ (2 ^ (970 : Int)) ^ 2 := by
      rw [← zpow_natCast, ← zpow_mul]
      exact zpow_le_zpow_right₀ (by norm_num) (by decide)
    have hquarter : 4 * (2 : ℚ) ^ (1024 : Int) = 2 ^ (1026 : Int) := by
      rw [show (4 : ℚ) = 2 * 2 by norm_num, mul_assoc, two_mul_zpow, two_mul_zpow]
      rfl
    calc q ^ 2 < 4 * m.toRat := hhigh
      _ < 4 * 2 ^ (1024 : Int) := (mul_lt_mul_iff_right₀ (by norm_num)).mpr hgreatest
      _ = 2 ^ (1026 : Int) := hquarter
      _ ≤ (2 ^ (970 : Int)) ^ 2 := hsquare
  obtain ⟨r, hr, hvalue, hcatches⟩ := hq.exists_finite hunderflow hoverflow
  have hrpos := Magnitude.toRat_pos hr
  obtain ⟨hle, hge⟩ := hcatches.le_two_mul hr
  have hlow' : q ^ 2 ≤ (2 * r.toRat) ^ 2 := pow_le_pow_left₀ hpos.le hle 2
  have hhigh' : r.toRat ^ 2 ≤ (2 * q) ^ 2 := pow_le_pow_left₀ hrpos.le hge 2
  rw [mul_pow] at hlow' hhigh'
  exact ⟨r, hvalue, by linarith, by linarith⟩

/-! ## Quotients -/

section

variable {x l : Float} {s : Bool} {m r : Magnitude} (hx : value x = .finite s m)

include hx

theorem value_div_zero {t : Bool} (hl : value l = .zero t) : (x / l).isInf = true := by
  have hdiv : x / l = packed (.infinity (signOf (s != t))) := by
    rw [div_eq, hx, hl, Value.unpacked_finite s (canonical_of_value hx), ← signOf_div]
    rfl
  have hinf : (x / l).isInf = (value (x / l)).unpacked.isInf := by
    rw [← unpack_eq]
    rfl
  rw [hinf, hdiv, value_packed_infinity]
  rfl

theorem value_div_infinite (hl : value l = .infinite false) : (x / l == zero) = true := by
  have hdiv : x / l = packed (.zero (signOf (s != false))) := by
    rw [div_eq, hx, hl, Value.unpacked_finite s (canonical_of_value hx), ← signOf_div]
    rfl
  rw [beq_zero_iff, hdiv]
  exact ⟨_, value_packed_zero _⟩

variable (hl : value l = .finite false r)

include hl

theorem roundsAs_quotient : RoundsAs s (m.toRat / r.toRat) (x / l) := by
  have hdiv := roundsAs_div hx hl
  rw [Bool.bne_false] at hdiv
  exact hdiv

/-- A quotient of moduli not far apart does not overflow. -/
theorem isFinite_quotient (h : m.toRat ^ 2 ≤ 32 * r.toRat ^ 2) : (x / l).isFinite = true := by
  have hrpos := Magnitude.toRat_pos (canonical_of_value hl)
  rw [isFinite_eq]
  rcases (roundsAs_quotient hx hl).cases with ⟨hzero, -⟩ | ⟨m', hm', hfinite, -⟩ | ⟨-, hge⟩
  · rw [hzero]
    rfl
  · rw [hfinite, Value.unpacked_finite s hm']
    rfl
  · have hle : m.toRat ≤ 6 * r.toRat := by
      refine le_of_sq_le_sq ?_ (by positivity)
      rw [mul_pow]
      have hnonneg := sq_nonneg r.toRat
      linarith
    have hlarge : (6 : ℚ) < (2 ^ 54 - 1) * 2 ^ (970 : Int) :=
      lt_of_lt_of_le (by norm_num : (6 : ℚ) < 2 ^ 54 - 1)
        (le_mul_of_one_le_right (by norm_num) (one_le_zpow₀ (by norm_num) (by decide)))
    have hquotient := (div_le_iff₀ hrpos).mpr hle
    exact absurd hge (not_le.mpr (lt_of_le_of_lt hquotient hlarge))

/-- A quotient of a modulus whose square does not underflow by one whose square is not far from
    a double does not underflow. -/
theorem quotient_not_zero (hlow : 2 ^ (-1075 : Int) ≤ m.toRat ^ 2) (hhigh : r.toRat ^ 2 < 2 ^ (1028 : Int)) :
    (x / l == zero) = false := by
  have hmpos := Magnitude.toRat_pos (canonical_of_value hx)
  have hrpos := Magnitude.toRat_pos (canonical_of_value hl)
  rw [Bool.eq_false_iff]
  intro hzero
  obtain ⟨t, ht⟩ := beq_zero_iff.mp hzero
  rcases (roundsAs_quotient hx hl).cases with ⟨-, hle⟩ | ⟨m', -, hfinite, -⟩ | ⟨hinf, -⟩
  · have hle' := (div_le_iff₀ hrpos).mp hle
    have hsquare : m.toRat ^ 2 ≤ (2 ^ (-1075 : Int) * r.toRat) ^ 2 := pow_le_pow_left₀ hmpos.le hle' 2
    have hunit : ((2 : ℚ) ^ (-1075 : Int)) ^ 2 = 2 ^ (-2150 : Int) := by
      rw [← zpow_natCast, ← zpow_mul]
      rfl
    rw [mul_pow, hunit] at hsquare
    have hlt : m.toRat ^ 2 < 2 ^ (-1075 : Int) := by
      calc m.toRat ^ 2 ≤ 2 ^ (-2150 : Int) * r.toRat ^ 2 := hsquare
        _ < 2 ^ (-2150 : Int) * 2 ^ (1028 : Int) := (mul_lt_mul_iff_right₀ (by positivity)).mpr hhigh
        _ = 2 ^ (-1122 : Int) := by
          rw [← zpow_add₀ (by norm_num)]
          rfl
        _ ≤ 2 ^ (-1075 : Int) := zpow_le_zpow_right₀ (by norm_num) (by decide)
    exact absurd hlow (not_le.mpr hlt)
  · rw [hfinite] at ht
    cases ht
  · rw [hinf] at ht
    cases ht

end

end FeatureVector.Binary64

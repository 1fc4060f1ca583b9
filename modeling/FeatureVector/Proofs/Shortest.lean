/-
  FeatureVector.Proofs.Shortest — the decimal a double is written as.

  The search for it goes from coarse grids to fine ones. Whatever grid it ends on, the
  multiple it finds lies in the interval and is next to the value (`Interval.search_spec`);
  it ends at seventeen digits at the latest, since there the grid is finer than the interval
  is wide (`Interval.width_lt`). So the decimal rounds to the double it stands for,
  and its digits are a number of one word (`Decimal.ofMagnitude_spec`).
-/
import Mathlib.Data.List.TakeWhile
import FeatureVector.Proofs.Binary64.Reals
import FeatureVector.Proofs.Json.Words

namespace FeatureVector

open Binary64

namespace Interval

/-! ## Grids -/

variable (tie : TieRule) (s : Interval)

/-- The value lies inside. -/
structure Around (s : Interval) : Prop where
  low : s.low < s.value
  high : s.value < s.high

variable {s}

theorem Around.contains_value (h : s.Around) : s.contains s.value = true := by
  have hlow := h.low
  have hhigh := h.high
  unfold contains
  split <;> simp <;> omega

theorem le_low_of_not_contains (h : s.Around) {x : Nat} (hx : x ≤ s.value) (hc : s.contains x = false) :
    x ≤ s.low := by
  have hhigh := h.high
  unfold contains at hc
  split at hc <;> simp at hc <;> omega

theorem high_le_of_not_contains (h : s.Around) {x : Nat} (hx : s.value ≤ x) (hc : s.contains x = false) :
    s.high ≤ x := by
  have hlow := h.low
  unfold contains at hc
  split at hc <;> simp at hc <;> omega

/-- What is found on a grid lies in the interval, next to the value. -/
theorem onGrid?_spec {unit n : Nat} (h : s.onGrid? tie unit = some n) :
    s.contains (n * unit) = true ∧ s.value / unit ≤ n ∧ n ≤ s.value / unit + 1 := by
  unfold onGrid? at h
  extract_lets below rest at h
  have hbelow : s.value / unit = below := rfl
  rw [hbelow]
  clear_value below rest
  split at h
  · rename_i hc hc'
    have hn : n = below ∨ n = below + 1 := by
      split at h
      · exact Or.inl (Option.some.inj h).symm
      · split at h
        · exact Or.inr (Option.some.inj h).symm
        · split at h
          · exact Or.inr (Option.some.inj h).symm
          · have := Option.some.inj h
            omega
    rcases hn with rfl | rfl
    · exact ⟨hc, by omega, by omega⟩
    · exact ⟨hc', by omega, by omega⟩
  · rename_i hc _
    cases h
    exact ⟨hc, by omega, by omega⟩
  · rename_i _ hc'
    cases h
    exact ⟨hc', by omega, by omega⟩
  · cases h

/-- A grid finer than the interval is wide has a point in it. -/
theorem onGrid?_ne_none (h : s.Around) {unit : Nat} (hpos : 0 < unit) (hwidth : s.low + unit < s.high) :
    s.onGrid? tie unit ≠ none := by
  unfold onGrid?
  extract_lets below rest
  have hle : below * unit ≤ s.value := Nat.div_mul_le_self s.value unit
  have hlt : s.value < (below + 1) * unit := Nat.lt_mul_of_div_lt (Nat.lt_succ_self _) hpos
  have hsucc : (below + 1) * unit = below * unit + unit := Nat.succ_mul below unit
  split
  · split
    · simp
    · split
      · simp
      · split <;> simp
  · simp
  · simp
  · rename_i hc hc'
    have := le_low_of_not_contains h hle hc
    have := high_le_of_not_contains h hlt.le hc'
    omega

/-! ## The search -/

theorem search_spec (h : s.Around) (k : Nat) :
    (s.search tie k).2 ≤ k ∧ s.contains ((s.search tie k).1 * 10 ^ (s.search tie k).2) = true ∧
      s.value / 10 ^ (s.search tie k).2 ≤ (s.search tie k).1 ∧
      (s.search tie k).1 ≤ s.value / 10 ^ (s.search tie k).2 + 1 := by
  induction k with
  | zero =>
    rw [search]
    simp only [pow_zero, mul_one, Nat.div_one]
    exact ⟨le_refl _, h.contains_value, le_refl _, by omega⟩
  | succ k ih =>
    rw [search]
    split
    · rename_i n hn
      obtain ⟨hc, hge, hle⟩ := onGrid?_spec tie hn
      exact ⟨le_refl _, hc, hge, hle⟩
    · exact ⟨by omega, ih.2⟩

/-- The search does not go past a grid with a point in the interval. -/
theorem le_search {j k : Nat} (hj : j ≤ k) (hgrid : s.onGrid? tie (10 ^ j) ≠ none) : j ≤ (s.search tie k).2 := by
  induction k with
  | zero => omega
  | succ k ih =>
    rw [search]
    split
    · exact hj
    · rename_i hnone
      have hne : j ≠ k + 1 := by
        rintro rfl
        exact hgrid hnone
      exact ih (by omega)

/-! ## Seventeen digits -/

variable {m : Magnitude} (hm : m.Canonical)

/-- What a quarter of the last place is, in units of the scale. -/
def factor (m : Magnitude) : Nat :=
  if 0 ≤ m.exponent - 2 then 2 ^ (m.exponent - 2).toNat else 5 ^ (-(m.exponent - 2)).toNat

theorem factor_pos (m : Magnitude) : 0 < factor m := by
  unfold factor
  split <;> positivity

include hm

theorem around_ofMagnitude : (ofMagnitude m).Around := by
  have hpos := hm.pos
  have hfactor := factor_pos m
  constructor
  · exact (Nat.mul_lt_mul_right hfactor).mpr (by split <;> omega)
  · exact (Nat.mul_lt_mul_right hfactor).mpr (by omega)

theorem value_pos : 0 < (ofMagnitude m).value := Nat.mul_pos (by have := hm.pos; omega) (factor_pos m)

/-- A grid at which the value has seventeen digits before the unit is finer than the interval. -/
theorem width_lt {unit : Nat} (h : 10 ^ 16 * unit ≤ (ofMagnitude m).value) :
    (ofMagnitude m).low + unit < (ofMagnitude m).high := by
  have hpos := hm.pos
  have hfactor := factor_pos m
  have hlow : (ofMagnitude m).low = (4 * m.significand - if m.thinBelow then 1 else 2) * factor m := rfl
  have hvalue : (ofMagnitude m).value = 4 * m.significand * factor m := rfl
  have hhigh : (ofMagnitude m).high = (4 * m.significand + 2) * factor m := rfl
  rw [hvalue] at h
  by_cases hthin : m.thinBelow = true
  · obtain ⟨hsig, -⟩ := hm.thin.mp hthin
    rw [hsig] at h
    rw [hlow, hhigh, if_pos hthin, hsig]
    omega
  · have hle : 4 * m.significand * factor m ≤ 4 * 2 ^ 53 * factor m :=
      Nat.mul_le_mul_right _ (by have := hm.lt; omega)
    have hwidth : (4 * m.significand + 2) * factor m = (4 * m.significand - 2) * factor m + 4 * factor m := by
      rw [← Nat.add_mul]
      congr 1
      omega
    rw [hlow, hhigh, if_neg hthin, hwidth]
    omega

theorem digits_value : ∃ k, (Nat.toDigits 10 (ofMagnitude m).value).length = k + 1 ∧
    10 ^ k ≤ (ofMagnitude m).value ∧ (ofMagnitude m).value < 10 ^ (k + 1) := by
  have hpos := value_pos hm
  obtain ⟨c, cs, hcs⟩ := List.exists_cons_of_ne_nil (@Nat.toDigits_ne_nil (ofMagnitude m).value 10)
  refine ⟨cs.length, by rw [hcs]; rfl, ?_, ?_⟩
  · by_cases hk : cs.length = 0
    · rw [hk]
      exact hpos
    · have hlt := (Nat.length_toDigits_le_iff (n := (ofMagnitude m).value) (by decide : 1 < 10)
        (Nat.pos_of_ne_zero hk)).not
      rw [hcs, List.length_cons] at hlt
      exact Nat.not_lt.mp (hlt.mp (by omega))
  · refine (Nat.length_toDigits_le_iff (by decide) (by omega)).mp ?_
    rw [hcs, List.length_cons]

/-- Far from exact: the value has fewer than eleven hundred digits. -/
theorem value_lt : (ofMagnitude m).value < 10 ^ (24 + (m.exponent - 2).natAbs) := by
  have hfactor : factor m ≤ 10 ^ (m.exponent - 2).natAbs := by
    unfold factor
    split
    · rw [show (m.exponent - 2).toNat = (m.exponent - 2).natAbs by omega]
      exact Nat.pow_le_pow_left (by decide) _
    · rw [show (-(m.exponent - 2)).toNat = (m.exponent - 2).natAbs by omega]
      exact Nat.pow_le_pow_left (by decide) _
  have hsig : 4 * m.significand < 10 ^ 24 := by
    have := hm.lt
    omega
  calc (ofMagnitude m).value = 4 * m.significand * factor m := rfl
    _ ≤ 4 * m.significand * 10 ^ (m.exponent - 2).natAbs := Nat.mul_le_mul_left _ hfactor
    _ < 10 ^ 24 * 10 ^ (m.exponent - 2).natAbs := (Nat.mul_lt_mul_right (by positivity)).mpr hsig
    _ = 10 ^ (24 + (m.exponent - 2).natAbs) := (pow_add _ _ _).symm

/-- The multiple has a digit, and no more than seventeen but for a one with zeros. -/
theorem search_bounds (tie : TieRule) {k : Nat} (hk : (Nat.toDigits 10 (ofMagnitude m).value).length = k + 1) :
    0 < ((ofMagnitude m).search tie k).1 ∧ ((ofMagnitude m).search tie k).1 ≤ 10 ^ 17 := by
  obtain ⟨k', hk', hge, hlt⟩ := digits_value hm
  obtain rfl : k = k' := by omega
  have haround := around_ofMagnitude hm
  obtain ⟨hle, -, hlow, hhigh⟩ := search_spec tie haround k
  have hpow : 10 ^ ((ofMagnitude m).search tie k).2 ≤ (ofMagnitude m).value :=
    le_trans (Nat.pow_le_pow_right (by decide) hle) hge
  have hone : 1 ≤ (ofMagnitude m).value / 10 ^ ((ofMagnitude m).search tie k).2 :=
    (Nat.one_le_div_iff (by positivity)).mpr hpow
  refine ⟨by omega, ?_⟩
  have hfine : k - 16 ≤ ((ofMagnitude m).search tie k).2 := by
    by_cases h16 : k ≤ 16
    · omega
    · refine le_search tie (by omega) (onGrid?_ne_none tie haround (by positivity) (width_lt hm ?_))
      rw [← pow_add, show 16 + (k - 16) = k by omega]
      exact hge
  have hdiv : (ofMagnitude m).value / 10 ^ ((ofMagnitude m).search tie k).2 < 10 ^ 17 := by
    rw [Nat.div_lt_iff_lt_mul (by positivity), ← pow_add]
    exact lt_of_lt_of_le hlt (Nat.pow_le_pow_right (by decide) (by omega))
  omega

end Interval

namespace Decimal

/-! ## Digits -/

/-- The digits as a whole number. -/
def significand (d : Decimal) : Nat := Nat.ofDigitChars 10 d.digits 0

/-- The power of ten that goes with them. -/
def power (d : Decimal) : Int := d.point - d.digits.length

def toRat (d : Decimal) : ℚ := d.significand * 10 ^ d.power

/-- At least one digit, and none too many in front. -/
structure Normal (d : Decimal) : Prop where
  digits : ∀ c ∈ d.digits, c.isDigit
  nonempty : d.digits ≠ []
  leading : d.digits.head? = some '0' → d = zero

theorem normal_zero : zero.Normal where
  digits := List.forall_mem_singleton.mpr rfl
  nonempty := by decide
  leading _ := rfl

/-- A list of digits without the zeros behind them. -/
def strip (ds : List Char) : List Char := (ds.reverse.dropWhile (· == '0')).reverse

theorem exists_zeros (ds : List Char) : ∃ j, ds = strip ds ++ List.replicate j '0' := by
  have hzeros : ∀ c ∈ (ds.reverse.takeWhile (· == '0')).reverse, c = '0' := by
    intro c hc
    rw [List.mem_reverse] at hc
    have hp := List.mem_takeWhile_imp hc
    exact eq_of_beq hp
  refine ⟨(ds.reverse.takeWhile (· == '0')).length, ?_⟩
  have hsplit := congrArg List.reverse (@List.takeWhile_append_dropWhile _ (· == '0') ds.reverse)
  rw [List.reverse_append, List.reverse_reverse] at hsplit
  rw [← List.length_reverse, ← List.eq_replicate_of_mem hzeros]
  exact hsplit.symm

/-- The digits of a number without the zeros behind them. -/
theorem strip_toDigits {n : Nat} (hn : 0 < n) :
    strip (Nat.toDigits 10 n) ≠ [] ∧ (strip (Nat.toDigits 10 n)).head? ≠ some '0' ∧
      (∀ c ∈ strip (Nat.toDigits 10 n), c.isDigit) ∧
      ∃ j, (Nat.toDigits 10 n).length = (strip (Nat.toDigits 10 n)).length + j ∧
        n = Nat.ofDigitChars 10 (strip (Nat.toDigits 10 n)) 0 * 10 ^ j := by
  obtain ⟨j, hj⟩ := exists_zeros (Nat.toDigits 10 n)
  have hvalue : n = Nat.ofDigitChars 10 (strip (Nat.toDigits 10 n)) 0 * 10 ^ j := by
    conv_lhs => rw [← @Nat.ofDigitChars_ten_toDigits n, hj, Nat.ofDigitChars_append,
      Nat.ofDigitChars_replicate_zero, Nat.mul_comm]
  have hne : strip (Nat.toDigits 10 n) ≠ [] := by
    intro h
    rw [h, Nat.ofDigitChars_nil, Nat.zero_mul] at hvalue
    omega
  refine ⟨hne, ?_, ?_, j, ?_, hvalue⟩
  · intro h
    refine hn.ne' (Numeral.head_toDigits ?_)
    rw [hj, List.head?_append, h]
    rfl
  · intro c hc
    have hmem : c ∈ Nat.toDigits 10 n := by
      rw [hj]
      exact List.mem_append_left _ hc
    exact Nat.isDigit_of_mem_toDigits (by decide) (by decide) hmem
  · conv_lhs => rw [hj, List.length_append, List.length_replicate]

variable {m : Binary64.Magnitude} (hm : m.Canonical) (tie : TieRule)

include hm

/-- The multiple the search ends with, its digits without the zeros behind them. -/
theorem exists_multiple :
    ∃ n k : Nat, 0 < n ∧ n ≤ 10 ^ 17 ∧ k < 1100 ∧ (Interval.ofMagnitude m).contains (n * 10 ^ k) = true ∧
      ofMagnitude tie m = ⟨strip (Nat.toDigits 10 n),
        ((Nat.toDigits 10 n).length + k : Nat) + (Interval.ofMagnitude m).scale⟩ := by
  obtain ⟨k, hk, hge, -⟩ := Interval.digits_value hm
  obtain ⟨hpos, hle⟩ := Interval.search_bounds hm tie hk
  obtain ⟨hgrid, hcontains, -, -⟩ := Interval.search_spec tie (Interval.around_ofMagnitude hm) k
  have hlt : k < 24 + (m.exponent - 2).natAbs :=
    (Nat.pow_lt_pow_iff_right (by decide)).mp (lt_of_le_of_lt hge (Interval.value_lt hm))
  have hleast := hm.least
  have hgreatest := hm.greatest
  refine ⟨_, _, hpos, hle, by omega, hcontains, ?_⟩
  unfold ofMagnitude Interval.shortest
  rw [hk, Nat.add_sub_cancel]
  rfl

theorem ofMagnitude_spec :
    (ofMagnitude tie m).Normal ∧ 0 < (ofMagnitude tie m).significand ∧
      (ofMagnitude tie m).significand ≤ 10 ^ 17 ∧ m.Catches (ofMagnitude tie m).toRat := by
  obtain ⟨n, k, hpos, hle, -, hcontains, hof⟩ := exists_multiple hm tie
  obtain ⟨hne, hhead, hdigits, j, hlength, hvalue⟩ := strip_toDigits hpos
  have hsig : n = (ofMagnitude tie m).significand * 10 ^ j := by
    rw [hof]
    exact hvalue
  have hpower : (ofMagnitude tie m).power = j + (k + (Interval.ofMagnitude m).scale) := by
    rw [hof, power]
    show ((Nat.toDigits 10 n).length + k : Nat) + (Interval.ofMagnitude m).scale -
      (strip (Nat.toDigits 10 n)).length = _
    omega
  refine ⟨⟨?_, ?_, ?_⟩, ?_, ?_, ?_⟩
  · rw [hof]
    exact hdigits
  · rw [hof]
    exact hne
  · rw [hof]
    exact fun h => absurd h hhead
  · rw [hsig] at hpos
    exact Nat.pos_of_mul_pos_right hpos
  · exact le_trans (Nat.le_mul_of_pos_right _ (by positivity)) (hsig ▸ hle)
  · have hcatches := (Interval.contains_ofMagnitude m _).mp hcontains
    have heq : (ofMagnitude tie m).toRat = ((n * 10 ^ k : Nat) : ℚ) * 10 ^ (Interval.ofMagnitude m).scale := by
      rw [toRat, hpower, zpow_add₀ (by norm_num), zpow_add₀ (by norm_num), zpow_natCast, zpow_natCast]
      conv_rhs => rw [hsig]
      push_cast
      ring
    rw [heq]
    exact hcatches

/-- The power of ten of the first digit fits any exponent. -/
theorem natAbs_leading_lt : (ofMagnitude tie m).leading.natAbs < 2300 := by
  obtain ⟨n, k, hpos, hle, hk, -, hof⟩ := exists_multiple hm tie
  have hlength : (Nat.toDigits 10 n).length ≤ 18 :=
    (Nat.length_toDigits_le_iff (by decide) (by decide)).mpr (lt_of_le_of_lt hle (by decide))
  have hleast := hm.least
  have hscale : (Interval.ofMagnitude m).scale = min (m.exponent - 2) 0 := rfl
  rw [hof, leading, hscale]
  show (((Nat.toDigits 10 n).length + k : Nat) + min (m.exponent - 2) 0 - 1 : Int).natAbs < 2300
  omega

end Decimal

end FeatureVector

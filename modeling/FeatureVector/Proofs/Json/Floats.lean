/-
  FeatureVector.Proofs.Json.Floats — the numeral a double is written as, and what the reader
  makes of it.

  The numeral is well formed (`Decimal.Normal.wellFormed_numeral`). Its digits fit a word, so
  the reader takes every one of them (`significand_eq`): what it scales is the decimal the
  writer chose, apart from a positional whole number, of which it takes the zeros too and the
  one behind the point (`Decimal.written`, `modulus?_json`).
-/
import FeatureVector.Json.Number
import FeatureVector.Proofs.Shortest

namespace FeatureVector

/-! ## Well-formed numerals -/

theorem isDigit_of_mem_zeros {n : Nat} {c : Char} (h : c ∈ List.replicate n '0') : c.isDigit := by
  rw [List.eq_of_mem_replicate h]
  rfl

namespace Decimal.Normal

variable {d : Decimal} (h : d.Normal)

include h

theorem wellFormed_positional (negative : Bool) : (Numeral.positional negative d).WellFormed where
  whole := by
    intro c hc
    rw [show (Numeral.positional negative d).whole = d.whole from rfl, whole] at hc
    split at hc
    · rw [List.mem_singleton.mp hc]
      rfl
    · rcases List.mem_append.mp hc with hc | hc
      · exact h.digits c (List.mem_of_mem_take hc)
      · exact isDigit_of_mem_zeros hc
  fraction := by
    intro c hc
    rcases List.mem_append.mp hc with hc | hc
    · exact isDigit_of_mem_zeros hc
    · exact h.digits c (List.mem_of_mem_drop hc)
  nonempty := by
    rw [show (Numeral.positional negative d).whole = d.whole from rfl, whole]
    split
    · simp
    · have hne := h.nonempty
      simp only [ne_eq, List.append_eq_nil_iff, List.take_eq_nil_iff, hne, or_false]
      omega
  leading := by
    intro hhead
    rw [show (Numeral.positional negative d).whole = d.whole from rfl, whole] at hhead ⊢
    split
    · rfl
    · rename_i hpoint
      rw [if_neg hpoint] at hhead
      obtain ⟨c, cs, hcs⟩ := List.exists_cons_of_ne_nil h.nonempty
      obtain ⟨n, hn⟩ : ∃ n, d.point.toNat = n + 1 := ⟨d.point.toNat - 1, by omega⟩
      rw [hcs, hn, List.take_succ_cons, List.cons_append, List.head?_cons] at hhead
      rw [h.leading (by rw [hcs]; exact hhead)]
      rfl

theorem wellFormed_scientific (negative : Bool) : (Numeral.scientific negative d).WellFormed where
  whole c hc := h.digits c (List.mem_of_mem_take hc)
  fraction c hc := h.digits c (List.mem_of_mem_drop hc)
  nonempty := by
    have hne := h.nonempty
    simp [Numeral.scientific, List.take_eq_nil_iff, hne]
  leading := by
    intro hhead
    obtain ⟨c, cs, hcs⟩ := List.exists_cons_of_ne_nil h.nonempty
    simp only [Numeral.scientific, hcs, List.take_succ_cons, List.take_zero, List.head?_cons] at hhead ⊢
    rw [Option.some.inj hhead]

end Decimal.Normal

theorem Numeral.WellFormed.markWhole {n : Numeral} (h : n.WellFormed) : n.markWhole.WellFormed := by
  unfold Numeral.markWhole
  split
  · refine ⟨h.whole, fun c hc => ?_, h.nonempty, h.leading⟩
    rw [List.mem_singleton.mp hc]
    rfl
  · exact h

/-- What holds in either notation, and of a number that is then marked as whole, holds in every
    style. -/
theorem NumberStyle.numeral_cases (style : NumberStyle) {negative : Bool} {d : Decimal} {P : Numeral → Prop}
    (hpositional : P (.positional negative d)) (hscientific : P (.scientific negative d))
    (hmark : ∀ n, P n → P n.markWhole) : P (style.numeral negative d) := by
  unfold numeral
  extract_lets n
  have hn : P n := by
    show P (if style.isPositional d.leading then .positional negative d else .scientific negative d)
    split
    · exact hpositional
    · exact hscientific
  split
  · exact hmark n hn
  · exact hn

theorem Decimal.Normal.wellFormed_numeral {d : Decimal} (h : d.Normal) (style : NumberStyle) (negative : Bool) :
    (style.numeral negative d).WellFormed :=
  style.numeral_cases (h.wellFormed_positional negative) (h.wellFormed_scientific negative) fun _ hn => hn.markWhole

theorem Numeral.negative_markWhole (n : Numeral) : n.markWhole.negative = n.negative := by
  unfold markWhole
  split <;> rfl

theorem NumberStyle.negative_numeral (style : NumberStyle) (negative : Bool) (d : Decimal) :
    (style.numeral negative d).negative = negative :=
  style.numeral_cases (P := fun n => n.negative = negative) rfl rfl fun n hn => n.negative_markWhole.trans hn

theorem NumberStyle.json_of_positional {d : Decimal} (h : NumberStyle.json.isPositional d.leading = true)
    (negative : Bool) : NumberStyle.json.numeral negative d = (Numeral.positional negative d).markWhole := by
  unfold NumberStyle.numeral
  rw [if_pos h]
  rfl

theorem NumberStyle.json_of_not_positional {d : Decimal} (h : ¬ NumberStyle.json.isPositional d.leading = true)
    (negative : Bool) : NumberStyle.json.numeral negative d = (Numeral.scientific negative d).markWhole := by
  unfold NumberStyle.numeral
  rw [if_neg h]
  rfl

/-! ## Digits the reader takes -/

namespace Numeral

theorem le_ofDigitChars (s : Nat) (ds : List Char) : s ≤ Nat.ofDigitChars 10 ds s := by
  rw [Nat.ofDigitChars_eq_ofDigitChars_zero]
  exact le_trans (Nat.le_mul_of_pos_left s (by positivity)) (Nat.le_add_right _ _)

theorem digit_le {c : Char} (h : c.isDigit) : c.toNat - '0'.toNat ≤ 9 := by
  simp only [Char.isDigit, Bool.and_eq_true, decide_eq_true_eq] at h
  have hle : c.toNat ≤ 57 := h.2
  have hzero : '0'.toNat = 48 := rfl
  omega

theorem ofDigitChars_lt {ds : List Char} (h : ∀ c ∈ ds, c.isDigit) (s : Nat) :
    Nat.ofDigitChars 10 ds s < (s + 1) * 10 ^ ds.length := by
  induction ds generalizing s with
  | nil => simp
  | cons c cs ih =>
    have hdigit := digit_le (h c List.mem_cons_self)
    rw [Nat.ofDigitChars_cons, List.length_cons, Nat.pow_succ, Nat.mul_comm _ 10, ← Nat.mul_assoc]
    refine lt_of_lt_of_le (ih (fun c hc => h c (List.mem_cons_of_mem _ hc)) _) (Nat.mul_le_mul_right _ ?_)
    omega

/-- Digits of one word are all taken. -/
theorem takeDigits_eq {s : Nat} {ds : List Char} (h : Nat.ofDigitChars 10 ds s ≤ maxWord) :
    takeDigits s ds = (Nat.ofDigitChars 10 ds s, ds.length) := by
  induction ds generalizing s with
  | nil => rfl
  | cons c cs ih =>
    have hnext : Nat.ofDigitChars 10 (c :: cs) s =
        Nat.ofDigitChars 10 cs (s * 10 + (c.toNat - '0'.toNat)) := by
      rw [Nat.ofDigitChars_cons, Nat.mul_comm]
    rw [hnext] at h
    have hle := le_trans (le_ofDigitChars _ cs) h
    rw [takeDigits, hnext]
    simp only [if_neg (Nat.not_lt.mpr hle), ih h, List.length_cons]

theorem significand_eq {n : Numeral} (h : value (n.whole ++ n.fraction) ≤ maxWord) :
    n.significand = (value (n.whole ++ n.fraction), -(n.fraction.length : Int)) := by
  unfold value at h ⊢
  rw [Nat.ofDigitChars_append] at h ⊢
  have hwhole : Nat.ofDigitChars 10 n.whole 0 ≤ maxWord := le_trans (le_ofDigitChars _ _) h
  unfold significand
  simp only [takeDigits_eq hwhole, takeDigits_eq h, Nat.sub_self, Nat.cast_zero, zero_sub]

/-- A numeral that is not whole is scaled. -/
theorem modulus?_eq {n : Numeral} {s : Nat} {e : Int} (hwhole : n.isWhole = false)
    (hdigits : value (n.whole ++ n.fraction) = s) (hs : s ≤ maxWord)
    (hexponent : (n.exponent.getD 0).natAbs ≤ maxExponent) (he : -(n.fraction.length : Int) + n.exponent.getD 0 = e) :
    n.modulus? = scale? s.toUInt64.toFloat e := by
  subst hdigits
  subst he
  unfold modulus? scaled?
  simp only [hwhole, Bool.false_and, Bool.false_eq_true, if_false, significand_eq hs]
  rw [if_neg (Nat.not_lt.mpr hexponent)]

end Numeral

namespace Decimal

/-! ## The decimal that is read -/

/-- Significand and power as they are read. A whole number that is written without exponent
    has all its digits taken, and a zero behind the point. -/
def written (d : Decimal) : Nat × Int :=
  if NumberStyle.json.isPositional d.leading = true ∧ 0 ≤ d.power then
    (d.significand * 10 ^ (d.power.toNat + 1), -1)
  else (d.significand, d.power)

theorem written_toRat (d : Decimal) : (d.written.1 : ℚ) * 10 ^ d.written.2 = d.toRat := by
  unfold written toRat
  split
  · rename_i h
    obtain ⟨n, hn⟩ : ∃ n : Nat, d.power = n := ⟨d.power.toNat, by omega⟩
    rw [hn, Int.toNat_natCast, zpow_natCast]
    push_cast
    rw [pow_succ]
    norm_num
    ring
  · rfl

variable {d : Decimal} (h : d.Normal)

include h

theorem significand_lt : d.significand < 10 ^ d.digits.length := by
  have hlt := Numeral.ofDigitChars_lt h.digits 0
  rwa [Nat.zero_add, Nat.one_mul] at hlt

omit h

theorem value_positional (negative : Bool) (d : Decimal) :
    Numeral.value ((Numeral.positional negative d).whole ++ (Numeral.positional negative d).fraction) =
      d.significand * 10 ^ d.power.toNat := by
  show Nat.ofDigitChars 10 (d.whole ++ d.fraction) 0 = _
  unfold whole fraction significand power
  by_cases hpoint : d.point ≤ 0
  · rw [if_pos hpoint, show d.point.toNat = 0 by omega, List.drop_zero, Nat.ofDigitChars_append,
      Nat.ofDigitChars_append, show Nat.ofDigitChars 10 ['0'] 0 = 0 from rfl, Nat.ofDigitChars_replicate_zero,
      Nat.mul_zero, show (d.point - d.digits.length).toNat = 0 by omega, Nat.pow_zero, Nat.mul_one]
  · rw [if_neg hpoint, show (-d.point).toNat = 0 by omega, List.replicate_zero, List.nil_append]
    by_cases hlength : d.digits.length ≤ d.point.toNat
    · rw [List.take_of_length_le hlength, List.drop_of_length_le hlength, List.append_nil, Nat.ofDigitChars_append,
        Nat.ofDigitChars_replicate_zero, Nat.mul_comm]
      congr 2
      omega
    · rw [show d.point.toNat - d.digits.length = 0 by omega, List.replicate_zero, List.append_nil,
        List.take_append_drop, show (d.point - d.digits.length).toNat = 0 by omega, Nat.pow_zero, Nat.mul_one]

theorem length_fraction_positional (negative : Bool) (d : Decimal) :
    (Numeral.positional negative d).fraction.length = (-d.power).toNat := by
  show d.fraction.length = _
  rw [fraction, power, List.length_append, List.length_replicate, List.length_drop]
  omega

theorem fraction_positional_eq_nil (negative : Bool) (d : Decimal) :
    (Numeral.positional negative d).fraction = [] ↔ 0 ≤ d.power := by
  rw [← List.length_eq_zero_iff, length_fraction_positional]
  omega

theorem json_positional {d : Decimal} (h : NumberStyle.json.isPositional d.leading = true) (negative : Bool) :
    NumberStyle.json.numeral negative d =
      if 0 ≤ d.power then { Numeral.positional negative d with fraction := ['0'] }
      else Numeral.positional negative d := by
  have hempty := fraction_positional_eq_nil negative d
  rw [NumberStyle.json_of_positional h, Numeral.markWhole]
  by_cases hpower : 0 ≤ d.power
  · rw [if_pos hpower, hempty.mpr hpower]
    rfl
  · rw [if_neg hpower, List.isEmpty_eq_false_iff.mpr (mt hempty.mp hpower)]
    rfl

theorem json_scientific {d : Decimal} (h : ¬ NumberStyle.json.isPositional d.leading = true) (negative : Bool) :
    NumberStyle.json.numeral negative d = Numeral.scientific negative d := by
  rw [NumberStyle.json_of_not_positional h, Numeral.markWhole, if_neg (by simp [Numeral.scientific])]

/-- A whole number written without exponent has at most sixteen digits. -/
theorem written_le (h : d.Normal) (hsig : d.significand ≤ 10 ^ 17) : d.written.1 ≤ 10 ^ 17 := by
  unfold written
  split
  · rename_i hwhole
    obtain ⟨hstyle, hpower⟩ := hwhole
    have hleading : d.leading ≤ 15 := by
      simp only [NumberStyle.json, Bool.and_eq_true, decide_eq_true_eq] at hstyle
      exact hstyle.2
    have hpoint : d.digits.length + (d.power.toNat + 1) ≤ 17 := by
      unfold leading at hleading
      unfold power at hpower ⊢
      omega
    calc d.significand * 10 ^ (d.power.toNat + 1)
        ≤ 10 ^ d.digits.length * 10 ^ (d.power.toNat + 1) := Nat.mul_le_mul_right _ (significand_lt h).le
      _ = 10 ^ (d.digits.length + (d.power.toNat + 1)) := (pow_add _ _ _).symm
      _ ≤ 10 ^ 17 := Nat.pow_le_pow_right (by decide) hpoint
  · exact hsig

/-- A whole number: its digits, and the zero behind the point. -/
theorem modulus?_whole (negative : Bool) (hpower : 0 ≤ d.power)
    (hword : d.significand * 10 ^ (d.power.toNat + 1) ≤ Numeral.maxWord) :
    Numeral.modulus? { Numeral.positional negative d with fraction := ['0'] } =
      Numeral.scale? (d.significand * 10 ^ (d.power.toNat + 1)).toUInt64.toFloat (-1) := by
  have hvalue := value_positional negative d
  rw [(fraction_positional_eq_nil negative d).mpr hpower, List.append_nil] at hvalue
  refine Numeral.modulus?_eq rfl ?_ hword (by simp [Numeral.positional]) (by simp [Numeral.positional])
  show Nat.ofDigitChars 10 ((Numeral.positional negative d).whole ++ ['0']) 0 = _
  rw [Nat.ofDigitChars_append, show Nat.ofDigitChars 10 (Numeral.positional negative d).whole 0 = _ from hvalue,
    Nat.pow_succ]
  show 10 * _ + 0 = _
  ring

theorem modulus?_positional (negative : Bool) (hpower : ¬ 0 ≤ d.power) (hword : d.significand ≤ Numeral.maxWord) :
    (Numeral.positional negative d).modulus? = Numeral.scale? d.significand.toUInt64.toFloat d.power := by
  have hvalue := value_positional negative d
  have hne := mt (fraction_positional_eq_nil negative d).mp hpower
  rw [show d.power.toNat = 0 by omega, Nat.pow_zero, Nat.mul_one] at hvalue
  refine Numeral.modulus?_eq ?_ hvalue hword (by simp [Numeral.positional]) ?_
  · rw [Numeral.isWhole, List.isEmpty_eq_false_iff.mpr hne, Bool.false_and]
  · rw [length_fraction_positional]
    show -((-d.power).toNat : Int) + 0 = _
    omega

theorem modulus?_scientific (h : d.Normal) (negative : Bool) (hword : d.significand ≤ Numeral.maxWord)
    (hleading : d.leading.natAbs ≤ Numeral.maxExponent) :
    (Numeral.scientific negative d).modulus? = Numeral.scale? d.significand.toUInt64.toFloat d.power := by
  refine Numeral.modulus?_eq ?_ ?_ hword hleading ?_
  · simp [Numeral.isWhole, Numeral.scientific]
  · show Nat.ofDigitChars 10 (d.digits.take 1 ++ d.digits.drop 1) 0 = _
    rw [List.take_append_drop]
    rfl
  · have hpos : 0 < d.digits.length := List.length_pos_iff.mpr h.nonempty
    show -((d.digits.drop 1).length : Int) + d.leading = d.power
    rw [List.length_drop, leading, power]
    omega

/-- What the reader makes of the numeral of a decimal with at most seventeen digits. -/
theorem modulus?_json (h : d.Normal) (negative : Bool) (hsig : d.significand ≤ 10 ^ 17)
    (hleading : d.leading.natAbs ≤ Numeral.maxExponent) :
    (NumberStyle.json.numeral negative d).modulus? =
      Numeral.scale? d.written.1.toUInt64.toFloat d.written.2 := by
  have hword : d.written.1 ≤ Numeral.maxWord := le_trans (written_le h hsig) (by decide)
  by_cases hstyle : NumberStyle.json.isPositional d.leading = true
  · rw [json_positional hstyle]
    by_cases hpower : 0 ≤ d.power
    · rw [if_pos hpower]
      rw [written, if_pos ⟨hstyle, hpower⟩] at hword ⊢
      exact modulus?_whole negative hpower hword
    · rw [if_neg hpower]
      rw [written, if_neg fun hw => hpower hw.2] at hword ⊢
      exact modulus?_positional negative hpower hword
  · rw [json_scientific hstyle]
    rw [written, if_neg fun hw => hstyle hw.1] at hword ⊢
    exact modulus?_scientific h negative hword hleading

end Decimal

end FeatureVector

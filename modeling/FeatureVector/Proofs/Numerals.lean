/-
  FeatureVector.Proofs.Numerals — a written number says which double it is.

  Where the point goes, whether there is an exponent and whether a whole number is marked is a
  matter of style; what is meant is not (`NumberStyle.quantity_numeral`). The decimal meant is
  one the double catches, which no other double does, and the sign is always written. So in
  any one style two finite doubles share a numeral only if they are the same, bit for bit
  (`NumberStyle.numeral?_injective`).
-/
import FeatureVector.Proofs.Binary64.Bits
import FeatureVector.Proofs.Binary64.Rounding
import FeatureVector.Proofs.Json.Floats

namespace FeatureVector

/-! ## What a numeral means -/

namespace Numeral

/-- The modulus of the number written. -/
def quantity (n : Numeral) : ℚ := value (n.whole ++ n.fraction) * 10 ^ (n.exponent.getD 0 - n.fraction.length)

theorem quantity_positional (negative : Bool) (d : Decimal) : (positional negative d).quantity = d.toRat := by
  have hexponent : (positional negative d).exponent.getD 0 = 0 := rfl
  unfold quantity Decimal.toRat
  rw [Decimal.value_positional, Decimal.length_fraction_positional, hexponent]
  by_cases hpower : 0 ≤ d.power
  · obtain ⟨k, hk⟩ : ∃ k : Nat, d.power = k := ⟨d.power.toNat, by omega⟩
    simp [hk]
  · obtain ⟨k, hk⟩ : ∃ k : Nat, d.power = -k := ⟨(-d.power).toNat, by omega⟩
    simp [hk]

theorem quantity_scientific (negative : Bool) {d : Decimal} (h : d.Normal) :
    (scientific negative d).quantity = d.toRat := by
  have hpos : 0 < d.digits.length := List.length_pos_iff.mpr h.nonempty
  have hvalue : value ((scientific negative d).whole ++ (scientific negative d).fraction) = d.significand := by
    show Nat.ofDigitChars 10 (d.digits.take 1 ++ d.digits.drop 1) 0 = _
    rw [List.take_append_drop]
    rfl
  have hexponent : (scientific negative d).exponent.getD 0 - (scientific negative d).fraction.length = d.power := by
    show d.leading - ((d.digits.drop 1).length : Int) = _
    rw [List.length_drop, Decimal.leading, Decimal.power]
    omega
  rw [quantity, hvalue, hexponent, Decimal.toRat]

/-- A zero behind the point of a whole number changes nothing. -/
theorem quantity_markWhole (n : Numeral) : n.markWhole.quantity = n.quantity := by
  unfold markWhole
  by_cases hwhole : (n.fraction.isEmpty && n.exponent.isNone) = true
  · rw [Bool.and_eq_true, List.isEmpty_iff, Option.isNone_iff_eq_none] at hwhole
    obtain ⟨hfraction, hexponent⟩ := hwhole
    have hvalue : value (n.whole ++ ['0']) = 10 * value n.whole := by
      unfold value
      rw [Nat.ofDigitChars_append]
      rfl
    simp [quantity, hfraction, hexponent, hvalue]
    ring
  · rw [if_neg hwhole]

end Numeral

namespace NumberStyle

theorem quantity_numeral (style : NumberStyle) (negative : Bool) {d : Decimal} (h : d.Normal) :
    (style.numeral negative d).quantity = d.toRat :=
  style.numeral_cases (P := fun n => n.quantity = d.toRat) (Numeral.quantity_positional negative d)
    (Numeral.quantity_scientific negative h) fun n hn => n.quantity_markWhole.trans hn

/-- Finite doubles have a numeral, and no others. -/
theorem isFinite_eq (style : NumberStyle) (x : Float) : x.isFinite = (style.numeral? x).isSome := by
  rw [Binary64.isFinite_eq, numeral?]
  cases hx : Binary64.value x with
  | nan | infinite _ | zero _ => rfl
  | finite negative m =>
    rw [Binary64.Value.unpacked_finite negative (Binary64.canonical_of_value hx)]
    rfl

theorem wellFormed_of_numeral? {style : NumberStyle} {x : Float} {n : Numeral} (h : style.numeral? x = some n) :
    n.WellFormed := by
  unfold numeral? at h
  split at h
  · cases h
  · cases h
  · cases h
    exact Decimal.normal_zero.wellFormed_numeral style _
  · rename_i negative m hx
    cases h
    obtain ⟨hnormal, -⟩ := Decimal.ofMagnitude_spec (Binary64.canonical_of_value hx) style.tie
    exact hnormal.wellFormed_numeral style negative

/-- The sign and the modulus a numeral means: of a zero, or of a decimal that the double's own
    modulus catches. -/
theorem quantity_of_numeral? {style : NumberStyle} {x : Float} {n : Numeral} (h : style.numeral? x = some n) :
    (Binary64.value x = .zero n.negative ∧ n.quantity = 0) ∨
      ∃ m : Binary64.Magnitude, Binary64.value x = .finite n.negative m ∧ m.Canonical ∧ m.Catches n.quantity := by
  unfold numeral? at h
  split at h
  · cases h
  · cases h
  · rename_i negative hx
    cases h
    left
    rw [negative_numeral, style.quantity_numeral negative Decimal.normal_zero]
    exact ⟨hx, by simp [Decimal.toRat, Decimal.significand, Decimal.zero, Nat.ofDigitChars]⟩
  · rename_i negative m hx
    cases h
    right
    have hm := Binary64.canonical_of_value hx
    obtain ⟨hnormal, -, -, hcatches⟩ := Decimal.ofMagnitude_spec hm style.tie
    refine ⟨m, ?_, hm, ?_⟩
    · rw [negative_numeral]
      exact hx
    · rw [style.quantity_numeral negative hnormal]
      exact hcatches

/-- Different finite doubles have different numerals, zeros of opposite sign among them. -/
theorem numeral?_injective (style : NumberStyle) {x y : Float} (hx : x.isFinite)
    (h : style.numeral? x = style.numeral? y) : x = y := by
  rw [isFinite_eq style] at hx
  obtain ⟨n, hn⟩ := Option.isSome_iff_exists.mp hx
  apply Binary64.value_inj
  rcases quantity_of_numeral? hn with ⟨hx, hzero⟩ | ⟨m, hx, hm, hcatches⟩
  · rcases quantity_of_numeral? (h ▸ hn) with ⟨hy, -⟩ | ⟨m', -, hm', hcatches'⟩
    · rw [hx, hy]
    · exact absurd (hcatches'.pos hm') (by simp [hzero])
  · rcases quantity_of_numeral? (h ▸ hn) with ⟨-, hzero⟩ | ⟨m', hy, hm', hcatches'⟩
    · exact absurd (hcatches.pos hm) (by simp [hzero])
    · rw [hx, hy, hcatches.unique hm hm' hcatches']

end NumberStyle

end FeatureVector

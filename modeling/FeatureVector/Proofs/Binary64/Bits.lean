/-
  FeatureVector.Proofs.Binary64.Bits — a double and the value read off its bits.

  Core unpacks a double to the value its bits stand for (`unpack_eq`), so the value
  determines the double (`value_inj`) and what core's tests say of it (`isNaN_iff`,
  `beq_iff`, `beq_zero_iff`). Packing loses nothing of a canonical magnitude
  (`value_packed_finite`) and makes what lies above them infinite (`packed_of_lt`).
-/
import Mathlib
import FeatureVector.Proofs.Binary64.Reals

namespace FeatureVector.Binary64

open Float.Model Float.Model.UnpackedFloat

/-! ## Fields -/

theorem toNat_unpackMantissa (b : BitVec 64) :
    (@unpackMantissa .binary64 b).toNat = b.toNat % 2 ^ 52 := by
  rw [unpackMantissa_def, BitVec.extractLsb'_toNat, Nat.shiftRight_zero]

theorem toNat_unpackExponent (b : BitVec 64) :
    (@unpackExponent .binary64 b).toNat = b.toNat / 2 ^ 52 % 2 ^ 11 := by
  rw [unpackExponent_def, BitVec.extractLsb'_toNat, Nat.shiftRight_eq_div_pow]

/-- The sign a flag stands for. -/
def signOf (negative : Bool) : Sign := if negative then .negative else .positive

theorem ofBitVec_unpackSign (b : BitVec 64) :
    Sign.ofBitVec (@unpackSign .binary64 b) = signOf (b.toNat / 2 ^ 63 % 2 == 1) := by
  have hsign : (@unpackSign .binary64 b).toNat = b.toNat / 2 ^ 63 % 2 := by
    rw [unpackSign_def, BitVec.extractLsb'_toNat, Nat.shiftRight_eq_div_pow]
    rfl
  have hzero : @unpackSign .binary64 b = 0#1 ↔ b.toNat / 2 ^ 63 % 2 = 0 := by
    rw [← hsign, ← BitVec.toNat_inj]
    rfl
  unfold Sign.ofBitVec signOf
  by_cases h : b.toNat / 2 ^ 63 % 2 = 0
  · rw [if_pos (hzero.mpr h), h]
    rfl
  · rw [if_neg (mt hzero.mp h), show b.toNat / 2 ^ 63 % 2 = 1 by omega]
    rfl

/-! ## Unpacked doubles -/

/-- A value as core unpacks it. -/
def Value.unpacked : Value → UnpackedFloat
  | .nan => .notANumber
  | .infinite negative => .infinity (signOf negative)
  | .zero negative => .zero (signOf negative)
  | .finite negative m =>
    if h : 0 < m.significand then .finite (signOf negative) m.significand m.exponent h else .zero .positive

theorem unpack_eq_unpacked (b : BitVec 64) :
    UnpackedFloat.unpack .binary64 b = (valueOfBits b.toNat).unpacked := by
  have hmantissa := toNat_unpackMantissa b
  have hexponent := toNat_unpackExponent b
  have hinf : @unpackExponent .binary64 b = -1#_ ↔ b.toNat / 2 ^ 52 % 2 ^ 11 = 2047 := by
    rw [← hexponent, ← BitVec.toNat_inj]
    rfl
  have hsub : @unpackExponent .binary64 b = 0#_ ↔ b.toNat / 2 ^ 52 % 2 ^ 11 = 0 := by
    rw [← hexponent, ← BitVec.toNat_inj]
    rfl
  have hzero : @unpackMantissa .binary64 b = 0#_ ↔ b.toNat % 2 ^ 52 = 0 := by
    rw [← hmantissa, ← BitVec.toNat_inj]
    rfl
  unfold UnpackedFloat.unpack valueOfBits
  extract_lets mantissaVec exponentVec exponent signVec sign negative biased fraction
  have hsign : sign = signOf negative := ofBitVec_unpackSign b
  have hbiased : exponentVec.toNat = biased := hexponent
  have hexp : exponent = (biased : Int) - 1075 := by
    rw [← hbiased]
    rfl
  by_cases h1 : biased = 2047
  · rw [if_pos (hinf.mpr h1), if_pos h1]
    by_cases h2 : fraction = 0
    · rw [if_pos (hzero.mpr h2), if_pos h2, Value.unpacked, ← hsign]
    · rw [if_neg (mt hzero.mp h2), if_neg h2, Value.unpacked]
  · rw [if_neg (mt hinf.mp h1), if_neg h1]
    by_cases h2 : biased = 0
    · rw [if_pos (hsub.mpr h2), if_pos h2]
      by_cases h3 : fraction = 0
      · rw [dif_pos (hzero.mpr h3), if_pos h3, Value.unpacked, ← hsign]
      · rw [dif_neg (mt hzero.mp h3), if_neg h3, Value.unpacked, dif_pos (Nat.pos_of_ne_zero h3), ← hsign]
        congr 1
        rw [hexp, h2]
        rfl
    · rw [if_neg (mt hsub.mp h2), if_neg h2, Value.unpacked, dif_pos (Nat.add_pos_left (by decide) _), ← hsign]
      congr 1
      rw [BitVec.toNat_append, ← Nat.shiftLeft_add_eq_or_of_lt mantissaVec.isLt, hmantissa, Nat.shiftLeft_eq]
      rfl

theorem unpack_eq (x : Float) : x.toModel.unpack = (value x).unpacked := unpack_eq_unpacked x.toBits.toBitVec

theorem unpack_inj {x y : Float} (h : x.toModel.unpack = y.toModel.unpack) : x = y := by
  have hbits := (unpack_inj_of_valid x.toModel.valid y.toModel.valid).mp h
  exact Float.toBits_inj.mp (UInt64.toBitVec_inj.mp hbits)

theorem map_toBits_inj {xs ys : List Float} : xs.map Float.toBits = ys.map Float.toBits ↔ xs = ys :=
  List.map_inj_right fun _ _ => Float.toBits_inj.mp

/-- The value determines the double. -/
theorem value_inj {x y : Float} (h : value x = value y) : x = y := by
  apply unpack_inj
  rw [unpack_eq, unpack_eq, h]

/-- What the bits of a double can say. -/
def Value.Canonical : Value → Prop
  | .finite _ m => m.Canonical
  | .nan | .infinite _ | .zero _ => True

theorem canonical_value (x : Float) : (value x).Canonical := by
  cases h : value x with
  | finite negative m => exact canonical_of_value h
  | nan | infinite _ | zero _ => trivial

theorem signOf_inj {s t : Bool} : signOf s = signOf t ↔ s = t := by
  cases s <;> cases t <;> simp [signOf]

theorem Value.unpacked_finite (negative : Bool) {m : Magnitude} (hm : m.Canonical) :
    (Value.finite negative m).unpacked = .finite (signOf negative) m.significand m.exponent hm.pos := dif_pos hm.pos

theorem Value.unpacked_inj {v w : Value} (hv : v.Canonical) (hw : w.Canonical) (h : v.unpacked = w.unpacked) :
    v = w := by
  cases v with
  | finite s m =>
    rw [unpacked_finite s hv] at h
    cases w with
    | finite t m' =>
      rw [unpacked_finite t hw] at h
      injection h with hs hsig hexp
      rw [signOf_inj.mp hs, hv.ext hw hsig hexp]
    | nan | infinite _ | zero _ => cases h
  | nan | infinite _ | zero _ =>
    cases w with
    | finite t m' =>
      rw [unpacked_finite t hw] at h
      cases h
    | nan | infinite _ | zero _ => simp_all [unpacked, signOf_inj]

theorem value_of_unpack {x : Float} {w : Value} (hw : w.Canonical) (h : x.toModel.unpack = w.unpacked) :
    value x = w := by
  rw [unpack_eq] at h
  exact Value.unpacked_inj (canonical_value x) hw h

theorem unpack_of_value {x : Float} {negative : Bool} {m : Magnitude} (h : value x = .finite negative m) :
    x.toModel.unpack = .finite (signOf negative) m.significand m.exponent (canonical_of_value h).pos := by
  rw [unpack_eq, h, Value.unpacked_finite negative (canonical_of_value h)]

/-! ## Tests -/

theorem value_zero : value zero = .zero false := by decide

theorem Value.unpacked_eq_nan {v : Value} (hv : v.Canonical) : v.unpacked = .notANumber ↔ v = .nan :=
  ⟨fun h => unpacked_inj hv (w := .nan) trivial h, fun h => h ▸ rfl⟩

theorem Value.unpacked_eq_zero {v : Value} (hv : v.Canonical) (negative : Bool) :
    v.unpacked = .zero (signOf negative) ↔ v = .zero negative :=
  ⟨fun h => unpacked_inj hv (w := .zero negative) trivial h, fun h => h ▸ rfl⟩

theorem isFinite_eq (x : Float) : x.isFinite = (value x).unpacked.isFinite := by
  rw [← unpack_eq]
  rfl

theorem isNaN_iff {x : Float} : x.isNaN = true ↔ value x = .nan := by
  show x.toModel.unpack.isNaN = true ↔ _
  rw [UnpackedFloat.isNaN_iff, unpack_eq, Value.unpacked_eq_nan (canonical_value x)]

/-- Numbers are equal when they have one value or are zeros. -/
theorem beq_iff {x y : Float} : (x == y) = true ↔
    value x ≠ .nan ∧ (value x = value y ∨ ∃ s t, value x = .zero s ∧ value y = .zero t) := by
  have hx := canonical_value x
  have hy := canonical_value y
  have hbeq : (x == y) = (value x).unpacked.beq (value y).unpacked := by
    rw [← unpack_eq, ← unpack_eq]
    rfl
  have hpos : Sign.positive = signOf false := rfl
  have hneg : Sign.negative = signOf true := rfl
  rw [hbeq, beq_iff_ne_notANumber_and_eq, hpos, hneg]
  simp only [ne_eq, Value.unpacked_eq_nan hx, Value.unpacked_eq_nan hy, Value.unpacked_eq_zero hx,
    Value.unpacked_eq_zero hy]
  constructor
  · rintro ⟨hnan, -, h | ⟨h, h'⟩ | ⟨h, h'⟩⟩
    · exact ⟨hnan, .inl (Value.unpacked_inj hx hy h)⟩
    · exact ⟨hnan, .inr ⟨_, _, h, h'⟩⟩
    · exact ⟨hnan, .inr ⟨_, _, h, h'⟩⟩
  · rintro ⟨hnan, h | ⟨s, t, h, h'⟩⟩
    · exact ⟨hnan, h ▸ hnan, .inl (congrArg _ h)⟩
    · rw [h, h']
      cases s <;> cases t <;> simp

theorem beq_zero_iff {x : Float} : (x == zero) = true ↔ ∃ s, value x = .zero s := by
  rw [beq_iff, value_zero]
  constructor
  · rintro ⟨-, h | ⟨s, -, h, -⟩⟩
    · exact ⟨_, h⟩
    · exact ⟨s, h⟩
  · rintro ⟨s, h⟩
    rw [h]
    exact ⟨nofun, .inr ⟨s, false, rfl, rfl⟩⟩

/-! ## Packed doubles -/

/-- The double core packs an unpacked one into. -/
def packed (u : UnpackedFloat) : Float := Float.ofModel (Float.Model.pack u)

theorem unpack_packed (u : UnpackedFloat) :
    (packed u).toModel.unpack = UnpackedFloat.unpack .binary64 (UnpackedFloat.pack .binary64 u) := rfl

theorem unpack_packed_zero (sign : Sign) : (packed (.zero sign)).toModel.unpack = .zero sign :=
  @unpack_packedZero .binary64 sign

theorem unpack_packed_infinity (sign : Sign) : (packed (.infinity sign)).toModel.unpack = .infinity sign := by
  rw [unpack_packed, UnpackedFloat.pack, UnpackedFloat.unpack]
  simp [packedInfinity]

theorem pack_of_lt (sign : Sign) {significand : Nat} {exponent : Int} (hpos : 0 < significand)
    (h : 971 < exponent) :
    UnpackedFloat.pack .binary64 (.finite sign significand exponent hpos) = packedInfinity .binary64 sign := by
  have hbiased : 2 ^ 11 ≤ (exponent + (1023 : Nat) + (52 : Nat)).toNat + 1 := by omega
  rw [UnpackedFloat.pack]
  exact if_pos hbiased

/-- What is too large becomes infinite. -/
theorem packed_of_lt (sign : Sign) {significand : Nat} {exponent : Int} (hpos : 0 < significand)
    (h : 971 < exponent) : packed (.finite sign significand exponent hpos) = packed (.infinity sign) := by
  apply unpack_inj
  rw [unpack_packed, unpack_packed, pack_of_lt sign hpos h]
  rfl

theorem pack_of_full (sign : Sign) {significand : Nat} {exponent : Int} (hpos : 0 < significand)
    (h : significand.log2 = 52) {biased : Nat} (hbiased : exponent = (biased : Int) - 1075) (hlt : biased < 2047) :
    UnpackedFloat.pack .binary64 (.finite sign significand exponent hpos) =
      packComponents .binary64 sign (BitVec.ofNat 11 biased) (BitVec.ofNat 52 significand) := by
  have heq : (exponent + (1023 : Nat) + (52 : Nat)).toNat = biased := by omega
  have hfits : ¬ 2 ^ 11 ≤ (exponent + (1023 : Nat) + (52 : Nat)).toNat + 1 := by omega
  have hfull : significand.log2 + 1 = 1 + 52 := by omega
  rw [← heq]
  exact (if_neg hfits).trans (if_pos hfull)

theorem pack_of_not_full (sign : Sign) {significand : Nat} (hpos : 0 < significand) (h : significand.log2 ≠ 52) :
    UnpackedFloat.pack .binary64 (.finite sign significand (-1074) hpos) =
      packComponents .binary64 sign 0#11 (BitVec.ofNat 52 significand) := by
  have hfull : ¬ significand.log2 + 1 = 1 + 52 := by omega
  exact if_neg hfull

theorem unpack_packComponents_normal (sign : Sign) {exponent : BitVec 11} (fraction : BitVec 52)
    (hinf : exponent ≠ -1#11) (hsub : exponent ≠ 0#11) :
    UnpackedFloat.unpack .binary64 (packComponents .binary64 sign exponent fraction) =
      .finite sign (2 ^ 52 + fraction.toNat) ((exponent.toNat : Int) - 1075) (by omega) := by
  unfold UnpackedFloat.unpack
  simp only [unpackMantissa_packComponents, unpackExponent_packComponents, unpackSign_packComponents,
    Sign.ofBitVec_toBitVec]
  rw [if_neg hinf, if_neg hsub]
  congr 1
  rw [BitVec.toNat_append, ← Nat.shiftLeft_add_eq_or_of_lt fraction.isLt, Nat.shiftLeft_eq]
  rfl

theorem unpack_packComponents_subnormal (sign : Sign) {fraction : BitVec 52} (h : 0 < fraction.toNat) :
    UnpackedFloat.unpack .binary64 (packComponents .binary64 sign 0#11 fraction) =
      .finite sign fraction.toNat (-1074) h := by
  have hzero : fraction ≠ 0#52 := by
    rintro rfl
    exact absurd h (by decide)
  unfold UnpackedFloat.unpack
  simp only [unpackMantissa_packComponents, unpackExponent_packComponents, unpackSign_packComponents,
    Sign.ofBitVec_toBitVec]
  rw [if_neg (by decide), if_pos trivial, dif_neg hzero]
  rfl

/-- Packing loses nothing of what a double can hold. -/
theorem unpack_packed_finite (sign : Sign) {m : Magnitude} (hm : m.Canonical) :
    (packed (.finite sign m.significand m.exponent hm.pos)).toModel.unpack =
      .finite sign m.significand m.exponent hm.pos := by
  have hleast := hm.least
  have hgreatest := hm.greatest
  have hlt := hm.lt
  have hpos := hm.pos
  rw [unpack_packed]
  by_cases hfull : 2 ^ 52 ≤ m.significand
  · have hlog : m.significand.log2 = 52 := (Nat.log2_eq_iff hpos.ne').mpr ⟨hfull, hlt⟩
    obtain ⟨biased, hbiased⟩ : ∃ biased : Nat, m.exponent = (biased : Int) - 1075 :=
      ⟨(m.exponent + 1075).toNat, by omega⟩
    have hfield : (BitVec.ofNat 11 biased).toNat = biased := by
      rw [BitVec.toNat_ofNat, Nat.mod_eq_of_lt (by omega)]
    have hinf : BitVec.ofNat 11 biased ≠ -1#11 := by
      intro h
      have : biased = 2047 := by rw [← hfield, h]; rfl
      omega
    have hsub : BitVec.ofNat 11 biased ≠ 0#11 := by
      intro h
      have : biased = 0 := by rw [← hfield, h]; rfl
      omega
    rw [pack_of_full sign hpos hlog hbiased (by omega), unpack_packComponents_normal sign _ hinf hsub]
    congr 1
    · rw [BitVec.toNat_ofNat]
      omega
    · rw [hfield, hbiased]
  · have hlog : m.significand.log2 ≠ 52 := by
      intro h
      exact hfull ((Nat.log2_eq_iff hpos.ne').mp h).1
    have hexp : m.exponent = -1074 := hm.full.resolve_right hfull
    have hfield : (BitVec.ofNat 52 m.significand).toNat = m.significand := by
      rw [BitVec.toNat_ofNat, Nat.mod_eq_of_lt (by omega)]
    have hpack := pack_of_not_full sign hpos hlog
    rw [← hexp] at hpack
    rw [hpack, unpack_packComponents_subnormal sign (by omega)]
    congr 1
    exact hexp.symm

theorem value_packed_finite (negative : Bool) {m : Magnitude} (hm : m.Canonical) :
    value (packed (.finite (signOf negative) m.significand m.exponent hm.pos)) = .finite negative m := by
  apply value_of_unpack (w := .finite negative m) hm
  rw [unpack_packed_finite _ hm, Value.unpacked_finite negative hm]

/-- Packing undoes unpacking. -/
theorem packed_unpacked (x : Float) : packed (value x).unpacked = x := by
  apply unpack_inj
  rw [← unpack_eq, unpack_packed]
  exact congrArg _ (pack_unpack_of_valid x.toModel.valid)

theorem value_packed_nan : value (packed .notANumber) = .nan := by decide

theorem value_packed_zero (negative : Bool) : value (packed (.zero (signOf negative))) = .zero negative :=
  value_of_unpack trivial (unpack_packed_zero _)

theorem value_packed_infinity (negative : Bool) :
    value (packed (.infinity (signOf negative))) = .infinite negative :=
  value_of_unpack trivial (unpack_packed_infinity _)

end FeatureVector.Binary64

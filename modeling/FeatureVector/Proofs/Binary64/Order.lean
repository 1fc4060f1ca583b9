/-
  FeatureVector.Proofs.Binary64.Order — one double is less than another as a number.

  Core compares signs, then exponents, then significands. For what the bits of a double can
  say that is the order of the rationals (`Magnitude.compare_eq`), so `lt_iff`: `<` is the
  order of the numbers two doubles stand for, with an infinity at either end and both zeros in
  one place. NaN stands for no number: it is neither less than a double nor greater.
  `le_iff`: `≤` is `<` turned round and denied, between numbers only.
-/
import FeatureVector.Proofs.Binary64.Roots

namespace FeatureVector.Binary64

open Float.Model Float.Model.UnpackedFloat

/-- Exponents are compared first. -/
theorem Magnitude.compare_eq {m m' : Magnitude} (hm : m.Canonical) (hm' : m'.Canonical) :
    (compare m.exponent m'.exponent).then (compare m.significand m'.significand) =
      compare m.toRat m'.toRat := by
  rcases lt_trichotomy m.exponent m'.exponent with hlt | heq | hgt
  · rw [compare_lt_iff_lt.mpr hlt, compare_lt_iff_lt.mpr (toRat_lt_of_exponent_lt hm hm' hlt)]
    rfl
  · have hunit : (0 : ℚ) < 2 ^ m'.exponent := by positivity
    rw [compare_eq_iff_eq.mpr heq, toRat, toRat, heq]
    show compare m.significand m'.significand = _
    rcases lt_trichotomy m.significand m'.significand with hlt | heq | hgt
    · rw [compare_lt_iff_lt.mpr hlt, compare_lt_iff_lt.mpr]
      exact (mul_lt_mul_iff_left₀ hunit).mpr (by exact_mod_cast hlt)
    · rw [heq, compare_eq_iff_eq.mpr rfl, compare_eq_iff_eq.mpr rfl]
    · rw [compare_gt_iff_gt.mpr hgt, compare_gt_iff_gt.mpr]
      exact (mul_lt_mul_iff_left₀ hunit).mpr (by exact_mod_cast hgt)
  · rw [compare_gt_iff_gt.mpr hgt, compare_gt_iff_gt.mpr (toRat_lt_of_exponent_lt hm' hm hgt)]
    rfl

/-- The rational a finite double stands for. -/
def Magnitude.signed (m : Magnitude) (negative : Bool) : ℚ := if negative then -m.toRat else m.toRat

theorem Magnitude.signed_neg {m : Magnitude} (hm : m.Canonical) : m.signed true < 0 := neg_neg_of_pos (toRat_pos hm)

theorem Magnitude.signed_pos {m : Magnitude} (hm : m.Canonical) : 0 < m.signed false := toRat_pos hm

theorem coe_lt_top (q : ℚ) : ((q : WithTop ℚ) : WithBot (WithTop ℚ)) < (⊤ : WithTop ℚ) :=
  WithBot.coe_lt_coe.mpr (WithTop.coe_lt_top q)

namespace Value

/-- The number a value stands for, between the two infinities. -/
def number : Value → Option (WithBot (WithTop ℚ))
  | .nan => none
  | .infinite negative => some (if negative then ⊥ else (⊤ : WithTop ℚ))
  | .zero _ => some ((0 : ℚ) : WithTop ℚ)
  | .finite negative m => some ((m.signed negative : ℚ) : WithTop ℚ)

theorem unpacked_lt_iff_of_finite {s t : Bool} {m n : Magnitude} (hm : m.Canonical) (hn : n.Canonical) :
    (finite s m).unpacked.lt (finite t n).unpacked = true ↔ m.signed s < n.signed t := by
  rw [unpacked_finite s hm, unpacked_finite t hn]
  cases s with
  | false =>
    cases t with
    | false =>
      simp only [UnpackedFloat.lt, UnpackedFloat.compare, signOf, Magnitude.compare_eq hm hn, beq_iff_eq,
        Option.some.injEq, Bool.false_eq_true, if_false]
      exact compare_lt_iff_lt
    | true =>
      have hlt := (Magnitude.signed_neg hn).trans (Magnitude.signed_pos hm)
      simp [UnpackedFloat.lt, UnpackedFloat.compare, signOf, hlt.le]
  | true =>
    cases t with
    | false =>
      have hlt := (Magnitude.signed_neg hm).trans (Magnitude.signed_pos hn)
      simp [UnpackedFloat.lt, UnpackedFloat.compare, signOf, hlt]
    | true =>
      simp only [UnpackedFloat.lt, UnpackedFloat.compare, signOf, Magnitude.compare_eq hm hn, beq_iff_eq,
        Option.some.injEq, if_true, Ordering.swap_eq_lt]
      exact compare_gt_iff_gt.trans neg_lt_neg_iff.symm

theorem unpacked_lt_iff {v w : Value} (hv : v.Canonical) (hw : w.Canonical) :
    v.unpacked.lt w.unpacked = true ↔ ∃ a ∈ v.number, ∃ b ∈ w.number, a < b := by
  cases v with
  | nan => simp [UnpackedFloat.lt, UnpackedFloat.compare, unpacked, number]
  | infinite s =>
    cases w with
    | nan | zero _ => cases s <;> simp [UnpackedFloat.lt, UnpackedFloat.compare, unpacked, number, signOf]
    | infinite t =>
      have hcompare : compare Sign.negative Sign.positive = Ordering.lt := rfl
      cases s <;> cases t <;> simp [UnpackedFloat.lt, UnpackedFloat.compare, unpacked, number, signOf, hcompare]
    | finite t n =>
      rw [unpacked_finite t hw]
      cases s <;> simp [UnpackedFloat.lt, UnpackedFloat.compare, unpacked, number, signOf]
  | zero s =>
    cases w with
    | nan | zero _ => simp [UnpackedFloat.lt, UnpackedFloat.compare, unpacked, number]
    | infinite t =>
      cases t with
      | false => simpa [UnpackedFloat.lt, UnpackedFloat.compare, unpacked, number, signOf] using coe_lt_top 0
      | true => simp [UnpackedFloat.lt, UnpackedFloat.compare, unpacked, number, signOf]
    | finite t n =>
      have hpos := Magnitude.signed_pos hw
      have hneg := (Magnitude.signed_neg hw).le
      rw [unpacked_finite t hw]
      cases t <;> simp [UnpackedFloat.lt, UnpackedFloat.compare, unpacked, number, signOf, hpos, hneg]
  | finite s m =>
    cases w with
    | nan =>
      rw [unpacked_finite s hv]
      simp [UnpackedFloat.lt, UnpackedFloat.compare, unpacked, number]
    | zero _ =>
      have hpos := (Magnitude.signed_pos hv).le
      have hneg := Magnitude.signed_neg hv
      rw [unpacked_finite s hv]
      cases s <;> simp [UnpackedFloat.lt, UnpackedFloat.compare, unpacked, number, signOf, hpos, hneg]
    | infinite t =>
      rw [unpacked_finite s hv]
      cases t with
      | false => simpa [UnpackedFloat.lt, UnpackedFloat.compare, unpacked, number, signOf] using coe_lt_top _
      | true => simp [UnpackedFloat.lt, UnpackedFloat.compare, unpacked, number, signOf]
    | finite t n =>
      rw [unpacked_lt_iff_of_finite hv hw]
      simp [number]

end Value

def number (x : Float) : Option (WithBot (WithTop ℚ)) := (value x).number

theorem number_eq_none {x : Float} : number x = none ↔ x.isNaN = true := by
  rw [isNaN_iff, number]
  cases value x <;> simp [Value.number]

theorem lt_iff {x y : Float} : x < y ↔ ∃ a ∈ number x, ∃ b ∈ number y, a < b := by
  have hlt : x < y ↔ (value x).unpacked.lt (value y).unpacked = true := by
    show decide (x.toModel < y.toModel) = true ↔ _
    rw [decide_eq_true_iff, ← unpack_eq, ← unpack_eq]
    rfl
  exact hlt.trans (Value.unpacked_lt_iff (canonical_value x) (canonical_value y))

theorem isNaN_of_lt {x y : Float} (h : x < y) : x.isNaN = false ∧ y.isNaN = false := by
  obtain ⟨a, ha, b, hb, -⟩ := lt_iff.mp h
  constructor
  · rw [Bool.eq_false_iff, ne_eq, ← number_eq_none, ha]
    exact Option.some_ne_none a
  · rw [Bool.eq_false_iff, ne_eq, ← number_eq_none, hb]
    exact Option.some_ne_none b

theorem not_lt_of_lt {x y : Float} (h : x < y) : ¬ y < x := by
  intro h'
  obtain ⟨a, ha, b, hb, hab⟩ := lt_iff.mp h
  obtain ⟨b', hb', a', ha', hba⟩ := lt_iff.mp h'
  rw [ha] at ha'
  rw [hb] at hb'
  cases ha'
  cases hb'
  exact hab.asymm hba

theorem not_lt_self (x : Float) : ¬ x < x := fun h => not_lt_of_lt h h

/-- Not to be less carries over from double to double, but not past a NaN. -/
theorem not_lt_trans {x y z : Float} (hnan : y.isNaN = x.isNaN) (hxy : ¬ x < y) (hyz : ¬ y < z) : ¬ x < z := by
  intro hxz
  obtain ⟨a, ha, c, hc, hac⟩ := lt_iff.mp hxz
  obtain ⟨b, hb⟩ : ∃ b, number y = some b := by
    rw [← Option.isSome_iff_exists, Option.isSome_iff_ne_none, ne_eq, number_eq_none, hnan, (isNaN_of_lt hxz).1]
    exact Bool.false_ne_true
  rcases lt_or_ge a b with hlt | hle
  · exact hxy (lt_iff.mpr ⟨a, ha, b, hb, hlt⟩)
  · exact hyz (lt_iff.mpr ⟨b, hb, c, hc, hle.trans_lt hac⟩)

/-- A number lies above the smaller of two doubles or below the larger. -/
theorem lt_or_lt_of_lt {x y z : Float} (hy : y.isNaN = false) (hxz : x < z) : x < y ∨ y < z := by
  by_contra hno
  rw [not_or] at hno
  exact not_lt_trans (by rw [hy, (isNaN_of_lt hxz).1]) hno.1 hno.2 hxz

/-! ## At most -/

/-- Compared the other way round, two doubles compare the other way. -/
theorem unpacked_compare_swap (u v : UnpackedFloat) : v.compare u = (u.compare v).map Ordering.swap := by
  have hsign (s t : Sign) : compare t s = (compare s t).swap := by cases s <;> cases t <;> rfl
  have hmodulus (e e' : Int) (m m' : Nat) :
      (compare e' e).then (compare m' m) = ((compare e e').then (compare m m')).swap := by
    rw [Ordering.swap_then, ← Std.OrientedCmp.eq_swap, ← Std.OrientedCmp.eq_swap]
  cases u with
  | notANumber => cases v <;> rfl
  | infinity s =>
    cases v with
    | infinity t => exact congrArg some (hsign s t)
    | notANumber | zero _ | finite _ => cases s <;> rfl
  | zero s =>
    cases v with
    | notANumber | zero _ => rfl
    | infinity t | finite t => cases t <;> rfl
  | finite s m e hm =>
    cases v with
    | notANumber => rfl
    | zero _ => cases s <;> rfl
    | infinity t => cases t <;> cases s <;> rfl
    | finite t m' e' hm' =>
      cases s <;> cases t
      · exact congrArg (some ∘ Ordering.swap) (hmodulus e e' m m')
      · rfl
      · rfl
      · exact congrArg some (hmodulus e e' m m')

theorem unpacked_compare_eq_none {u v : UnpackedFloat} :
    u.compare v = none ↔ u = .notANumber ∨ v = .notANumber := by
  cases u with
  | notANumber => simp [UnpackedFloat.compare]
  | infinity s | zero s | finite s => cases v <;> cases s <;> simp [UnpackedFloat.compare] <;> split <;> simp_all

/-- Both are numbers, and the second is not less. -/
theorem le_iff {x y : Float} : x ≤ y ↔ x.isNaN = false ∧ y.isNaN = false ∧ ¬ y < x := by
  have hle : x ≤ y ↔ (x.toModel.unpack.compare y.toModel.unpack).any (·.isLE) = true := by
    show decide (x.toModel ≤ y.toModel) = true ↔ _
    rw [decide_eq_true_iff]
    rfl
  have hlt : y < x ↔ (y.toModel.unpack.compare x.toModel.unpack == some .lt) = true := by
    show decide (y.toModel < x.toModel) = true ↔ _
    rw [decide_eq_true_iff]
    rfl
  have hnan (z : Float) : z.isNaN = false ↔ z.toModel.unpack ≠ .notANumber := by
    rw [← Bool.not_eq_true]
    exact not_congr UnpackedFloat.isNaN_iff
  rw [hle, hlt, hnan, hnan, unpacked_compare_swap x.toModel.unpack, ← and_assoc, ← not_or,
    ← unpacked_compare_eq_none]
  cases x.toModel.unpack.compare y.toModel.unpack with
  | none => simp
  | some o => cases o <;> simp

/-! ## Negative infinity -/

theorem number_eq_bot {x : Float} : number x = some ⊥ ↔ x = negInfinity := by
  have hvalue : value negInfinity = .infinite true := by decide
  rw [number]
  constructor
  · intro h
    apply value_inj
    rw [hvalue]
    cases hx : value x with
    | infinite s =>
      cases s with
      | true => rfl
      | false => simp [hx, Value.number] at h
    | nan | zero _ | finite _ _ => simp [hx, Value.number] at h
  · rintro rfl
    rw [hvalue]
    rfl

/-- Below every number but itself. -/
theorem negInfinity_lt_iff {x : Float} : negInfinity < x ↔ x.isNaN = false ∧ x ≠ negInfinity := by
  rw [lt_iff, number_eq_bot.mpr rfl, Bool.eq_false_iff, ne_eq, ne_eq, ← number_eq_none, ← number_eq_bot]
  cases number x <;> simp [bot_lt_iff_ne_bot]

end FeatureVector.Binary64

/-
  FeatureVector.Proofs.Binary64.Sums — sums from which zeros are left out.

  A sum starts from negative zero and takes its terms in order. Where every term left out is a
  zero of either sign, the sum stays the number it is (`sameNumber_sum_filter`): a running
  sum and the one without those terms differ at most in the sign of a zero, and they go on to
  overflow, or to no number, together.

  In bits the sign of a zero may still differ. A sum is a negative zero only if its last
  summand is one (`add_ne_negZero`). So if no term is a negative zero, the running sum is none
  from the first term on, and positive zeros leave no trace in it (`foldl_filter`). That leaves
  the start: the two sums have the same bits unless some terms are left out and none stays
  (`sum_filter_eq`), and then one is a negative zero and the other a positive (`sum_zeros`).
  `sum_filter_cases` has both cases.
-/
import FeatureVector.Proofs.Binary64.Operations
import FeatureVector.Proofs.Binary64.SameNumber

namespace FeatureVector.Binary64

open Float.Model Float.Model.UnpackedFloat

/-! ## The same number -/

theorem SameNumber.add {a b : Float} (h : SameNumber a b) (x : Float) : SameNumber (a + x) (b + x) := by
  rcases sameNumber_iff.mp h with rfl | ⟨s, t, ha, hb⟩
  · exact .refl _
  · have hleft := sameNumber_add_zero x ha
    have hright := sameNumber_add_zero x hb
    rw [add_commutes a, add_commutes b]
    exact hleft.symm.trans hright

section

variable {α : Type} {term : α → Float} {keep : α → Bool}

/-- A running sum beside the one that leaves terms out: what every kept term preserves, and
    every other one where it is added. -/
theorem foldl_filter_rel {R : Float → Float → Prop} {l : List α}
    (hkept : ∀ a ∈ l, keep a = true → ∀ s t, R s t → R (s + term a) (t + term a))
    (hleft : ∀ a ∈ l, keep a = false → ∀ s t, R s t → R s (t + term a)) {s t : Float} (h : R s t) :
    R (((l.filter keep).map term).foldl (· + ·) s) ((l.map term).foldl (· + ·) t) := by
  induction l generalizing s t with
  | nil => exact h
  | cons a l ih =>
    have ih {s t : Float} := @ih (fun b hb => hkept b (List.mem_cons_of_mem _ hb))
      (fun b hb => hleft b (List.mem_cons_of_mem _ hb)) s t
    rw [List.map_cons, List.foldl_cons]
    cases ha : keep a with
    | true =>
      rw [List.filter_cons_of_pos ha, List.map_cons, List.foldl_cons]
      exact ih (hkept a List.mem_cons_self ha s t h)
    | false =>
      rw [List.filter_cons_of_neg (Bool.eq_false_iff.mp ha)]
      exact ih (hleft a List.mem_cons_self ha s t h)

/-- A sum stays the number it is if the terms left out are zeros. -/
theorem sameNumber_sum_filter {l : List α} (hzero : ∀ a ∈ l, keep a = false → (term a == zero) = true) :
    SameNumber (sum ((l.filter keep).map term)) (sum (l.map term)) := by
  refine foldl_filter_rel (fun a _ _ s t h => h.add (term a)) (fun a ha hkeep s t h => ?_) (.refl _)
  obtain ⟨negative, hterm⟩ := beq_zero_iff.mp (hzero a ha hkeep)
  exact h.trans (sameNumber_add_zero t hterm)

end

/-! ## Negative zero -/

theorem value_negZero : value negZero = .zero true := by decide

theorem eq_negZero_iff {x : Float} : x = negZero ↔ value x = .zero true := by
  constructor
  · rintro rfl
    exact value_negZero
  · intro h
    exact value_inj (h.trans value_negZero.symm)

/-- The square of a negative zero is a positive one. -/
theorem square_of_zero {x : Float} (hx : (x == zero) = true) : square x = zero := by
  obtain ⟨s, hs⟩ := beq_zero_iff.mp hx
  cases s with
  | false =>
    obtain rfl : x = zero := value_inj (hs.trans value_zero.symm)
    decide
  | true =>
    obtain rfl := eq_negZero_iff.mpr hs
    decide

theorem value_add_zeros {x y : Float} {s t : Bool} (hx : value x = .zero s) (hy : value y = .zero t) :
    value (x + y) = .zero (s && t) := by
  have hadd : (UnpackedFloat.zero (signOf s)).add .binary64 (.zero (signOf t)) = .zero (signOf (s && t)) := by
    cases s <;> cases t <;> rfl
  rw [add_eq, hx, hy, Value.unpacked, Value.unpacked, hadd, value_packed_zero]

theorem add_zero_of_not_zero {x z : Float} {t : Bool} (hx : ∀ s, value x ≠ .zero s) (hz : value z = .zero t) :
    x + z = x := by
  rcases sameNumber_iff.mp (sameNumber_add_zero x hz) with h | ⟨s, -, hs, -⟩
  · exact h.symm
  · exact absurd hs (hx s)

/-- Negative zero adds nothing, not even to a zero. -/
theorem negZero_add (x : Float) : negZero + x = x := by
  by_cases hx : ∃ s, value x = .zero s
  · obtain ⟨s, hs⟩ := hx
    refine value_inj ?_
    rw [value_add_zeros value_negZero hs, Bool.true_and, hs]
  · rw [add_commutes]
    exact add_zero_of_not_zero (fun s hs => hx ⟨s, hs⟩) value_negZero

theorem add_zero_of_ne {x : Float} (hx : x ≠ negZero) : x + zero = x := by
  by_cases hzero : ∃ s, value x = .zero s
  · obtain ⟨s, hs⟩ := hzero
    refine value_inj ?_
    cases s with
    | true => exact absurd (eq_negZero_iff.mpr hs) hx
    | false => rw [value_add_zeros hs value_zero, Bool.and_false, hs]
  · exact add_zero_of_not_zero (fun s hs => hzero ⟨s, hs⟩) value_zero

theorem value_infinite_add_ne_zero {x : Float} {s : Bool} (hx : value x = .infinite s) (y : Float) (t : Bool) :
    value (x + y) ≠ .zero t := by
  have hadd : (UnpackedFloat.infinity (signOf s)).add .binary64 (value y).unpacked = .infinity (signOf s) ∨
      (UnpackedFloat.infinity (signOf s)).add .binary64 (value y).unpacked = .notANumber := by
    cases (value y).unpacked with
    | infinity t =>
      cases s <;> cases t
      · exact .inr rfl
      · exact .inl rfl
      · exact .inl rfl
      · exact .inr rfl
    | notANumber => exact .inr rfl
    | zero _ | finite _ _ _ _ => exact .inl rfl
  rw [add_eq, hx, Value.unpacked]
  intro hzero
  rcases hadd with h | h
  · rw [h, value_packed_infinity] at hzero
    cases hzero
  · rw [h, value_packed_nan] at hzero
    cases hzero

/-- Core's sum of finite doubles, in units of the smaller exponent. -/
theorem exists_add_eq_normalize {a b : Float} {s t : Bool} {ma mb : Magnitude} (ha : value a = .finite s ma)
    (hb : value b = .finite t mb) :
    ∃ i e : Int, -1074 ≤ e ∧ a + b = packed (UnpackedFloat.normalize .binary64 i e .positive) := by
  have hma := (canonical_of_value ha).least
  have hmb := (canonical_of_value hb).least
  rw [add_eq, ha, hb, Value.unpacked_finite s (canonical_of_value ha), Value.unpacked_finite t (canonical_of_value hb)]
  exact ⟨_, min ma.exponent mb.exponent, by omega, rfl⟩

/-- A whole number of units is not so small that it would be rounded to zero. -/
theorem value_round_ne_zero (negative : Bool) {n : Nat} (hpos : 0 < n) {e : Int} (he : -1074 ≤ e) (s : Bool) :
    value (packed (UnpackedFloat.round .binary64 (signOf negative) n e)) ≠ .zero s := by
  intro hzero
  rcases (roundsAs_round negative hpos e).cases with ⟨-, hsmall⟩ | ⟨m, -, hm, -⟩ | ⟨hinf, -⟩
  · have hunits : (2 : ℚ) ^ (-1074 : Int) ≤ n * 2 ^ e := by
      calc (2 : ℚ) ^ (-1074 : Int) ≤ 2 ^ e := zpow_le_zpow_right₀ (by norm_num) he
        _ ≤ n * 2 ^ e := le_mul_of_one_le_left (by positivity) (by exact_mod_cast hpos)
    have hpow : (2 : ℚ) ^ (-1075 : Int) < 2 ^ (-1074 : Int) := zpow_lt_zpow_right₀ (by norm_num) (by decide)
    linarith
  · rw [hzero] at hm
    cases hm
  · rw [hzero] at hinf
    cases hinf

/-- Finite doubles that cancel come to positive zero, and no others come to a zero. -/
theorem value_normalize_ne_negZero (i : Int) {e : Int} (he : -1074 ≤ e) :
    value (packed (UnpackedFloat.normalize .binary64 i e .positive)) ≠ .zero true := by
  unfold UnpackedFloat.normalize
  cases hsign : compare i 0 with
  | lt =>
    have hi : i < 0 := Int.compare_eq_lt.mp hsign
    exact value_round_ne_zero true (by omega) he true
  | eq =>
    intro h
    rw [show Sign.positive = signOf false from rfl, value_packed_zero] at h
    cases h
  | gt =>
    have hi : 0 < i := Int.compare_eq_gt.mp hsign
    exact value_round_ne_zero false (by omega) he true

theorem add_ne_negZero (x : Float) {y : Float} (hy : y ≠ negZero) : x + y ≠ negZero := by
  rw [Ne, eq_negZero_iff] at hy ⊢
  intro hsum
  by_cases hzero : ∃ s, value x = .zero s
  · obtain ⟨s, hs⟩ := hzero
    by_cases hzero' : ∃ t, value y = .zero t
    · obtain ⟨t, ht⟩ := hzero'
      rw [value_add_zeros hs ht, Value.zero.injEq, Bool.and_eq_true] at hsum
      exact hy (hsum.2 ▸ ht)
    · rw [add_commutes, add_zero_of_not_zero (fun t ht => hzero' ⟨t, ht⟩) hs] at hsum
      exact hy hsum
  -- only a sum of two finite doubles is left to come to a zero
  · cases hx : value x with
    | zero s => exact hzero ⟨s, hx⟩
    | nan =>
      rw [add_commutes, value_add_nan y hx] at hsum
      cases hsum
    | infinite s => exact value_infinite_add_ne_zero hx y true hsum
    | finite s m =>
      cases hv : value y with
      | zero t =>
        rw [add_zero_of_not_zero (by simp [hx]) hv, hx] at hsum
        cases hsum
      | nan =>
        rw [value_add_nan x hv] at hsum
        cases hsum
      | infinite t =>
        rw [add_commutes] at hsum
        exact value_infinite_add_ne_zero hv x true hsum
      | finite t m' =>
        obtain ⟨i, e, he, hadd⟩ := exists_add_eq_normalize hx hv
        rw [hadd] at hsum
        exact value_normalize_ne_negZero i he hsum

/-! ## The same bits -/

section

variable {α : Type} {term : α → Float} {keep : α → Bool}

/-- Once the running sum is no negative zero, positive zeros leave it as it is. -/
theorem foldl_filter {l : List α} (hzero : ∀ a ∈ l, keep a = false → term a = zero)
    (hkept : ∀ a ∈ l, keep a = true → term a ≠ negZero) {s : Float} (hs : s ≠ negZero) :
    ((l.filter keep).map term).foldl (· + ·) s = (l.map term).foldl (· + ·) s := by
  have hadd : ∀ a ∈ l, keep a = true → ∀ s t, s = t ∧ s ≠ negZero → s + term a = t + term a ∧ s + term a ≠ negZero := by
    rintro a ha hkeep s _ ⟨rfl, -⟩
    exact ⟨rfl, add_ne_negZero s (hkept a ha hkeep)⟩
  have hleave : ∀ a ∈ l, keep a = false → ∀ s t, s = t ∧ s ≠ negZero → s = t + term a ∧ s ≠ negZero := by
    rintro a ha hkeep s _ ⟨rfl, hs⟩
    rw [hzero a ha hkeep, add_zero_of_ne hs]
    exact ⟨rfl, hs⟩
  exact (foldl_filter_rel (R := fun s t => s = t ∧ s ≠ negZero) hadd hleave ⟨rfl, hs⟩).1

theorem zero_ne_negZero : zero ≠ negZero := by decide

/-- Terms that follow a first one make up for the sign of the start. -/
theorem foldl_zero {t : Float} (ht : t ≠ negZero) (ts : List Float) :
    (t :: ts).foldl (· + ·) zero = sum (t :: ts) := by
  rw [sum, List.foldl_cons, List.foldl_cons, negZero_add, add_commutes, add_zero_of_ne ht]

/-- Positive zeros can be left out of a sum of which some term stays. -/
theorem sum_filter_eq {l : List α} (hzero : ∀ a ∈ l, keep a = false → term a = zero)
    (hkept : ∀ a ∈ l, keep a = true → term a ≠ negZero) (hsome : ∃ a ∈ l, keep a = true) :
    sum ((l.filter keep).map term) = sum (l.map term) := by
  cases l with
  | nil =>
    obtain ⟨a, ha, -⟩ := hsome
    cases ha
  | cons a l =>
    have hzero' : ∀ b ∈ l, keep b = false → term b = zero := fun b hb => hzero b (List.mem_cons_of_mem _ hb)
    have hkept' : ∀ b ∈ l, keep b = true → term b ≠ negZero := fun b hb => hkept b (List.mem_cons_of_mem _ hb)
    cases ha : keep a with
    | true =>
      have hterm := hkept a List.mem_cons_self ha
      rw [List.filter_cons_of_pos ha, List.map_cons, List.map_cons, sum, sum, List.foldl_cons, List.foldl_cons,
        negZero_add]
      exact foldl_filter hzero' hkept' hterm
    | false =>
      -- the sum of all goes on from positive zero, the other still has its start to come
      have hall : sum ((a :: l).map term) = (l.map term).foldl (· + ·) zero := by
        rw [List.map_cons, sum, List.foldl_cons, negZero_add, hzero a List.mem_cons_self ha]
      rw [List.filter_cons_of_neg (Bool.eq_false_iff.mp ha), hall, ← foldl_filter hzero' hkept' zero_ne_negZero]
      cases hl : l.filter keep with
      | nil =>
        obtain ⟨b, hb, hkeep⟩ := hsome
        rcases List.mem_cons.mp hb with rfl | hb
        · rw [ha] at hkeep
          cases hkeep
        · exact absurd hkeep (List.filter_eq_nil_iff.mp hl b hb)
      | cons b rest =>
        obtain ⟨hb, hkeep⟩ := List.mem_filter.mp (hl ▸ List.mem_cons_self : b ∈ l.filter keep)
        exact (foldl_zero (hkept' b hb hkeep) _).symm

end

/-- A sum of positive zeros is one, unless it has no terms. -/
theorem sum_zeros {ts : List Float} (hne : ts ≠ []) (h : ∀ t ∈ ts, t = zero) : sum ts = zero := by
  cases ts with
  | nil => exact absurd rfl hne
  | cons t ts =>
    obtain rfl := h t List.mem_cons_self
    have htail : ∀ u ∈ ts, u = zero := fun u hu => h u (List.mem_cons_of_mem _ hu)
    rw [sum, List.foldl_cons, negZero_add]
    clear h hne
    induction ts with
    | nil => rfl
    | cons u ts ih =>
      obtain rfl := htail u List.mem_cons_self
      rw [List.foldl_cons, add_zero_of_ne zero_ne_negZero]
      exact ih fun v hv => htail v (List.mem_cons_of_mem _ hv)

/-- A sum has the bits of the one that leaves positive zeros out, unless there are terms and none
    of them stays. -/
theorem sum_filter_cases {α : Type} {term : α → Float} {keep : α → Bool} {l : List α}
    (hzero : ∀ a ∈ l, keep a = false → term a = zero) (hkept : ∀ a ∈ l, keep a = true → term a ≠ negZero) :
    (¬ (l ≠ [] ∧ ∀ a ∈ l, keep a = false) ∧ sum ((l.filter keep).map term) = sum (l.map term)) ∨
      ((l ≠ [] ∧ ∀ a ∈ l, keep a = false) ∧ sum ((l.filter keep).map term) = negZero ∧ sum (l.map term) = zero) := by
  by_cases hnone : l ≠ [] ∧ ∀ a ∈ l, keep a = false
  · right
    have hfilter : l.filter keep = [] := List.filter_eq_nil_iff.mpr fun a ha => by simp [hnone.2 a ha]
    refine ⟨hnone, by rw [hfilter]; rfl, sum_zeros (by simpa using hnone.1) fun t ht => ?_⟩
    obtain ⟨a, ha, rfl⟩ := List.mem_map.mp ht
    exact hzero a ha (hnone.2 a ha)
  · left
    refine ⟨hnone, ?_⟩
    by_cases hne : l = []
    · rw [hne]
      rfl
    · have hsome : ∃ a ∈ l, keep a = true := by
        by_contra h
        exact hnone ⟨hne, fun a ha => Bool.eq_false_iff.mpr fun hk => h ⟨a, ha, hk⟩⟩
      exact sum_filter_eq hzero hkept hsome

end FeatureVector.Binary64

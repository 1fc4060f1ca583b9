/-
  FeatureVector.Proofs.Elementwise — vectors computed from vectors, slot by slot against the
  formula.

  `Arithmetic` is every operation that makes a vector from one by a formula on its slots: with
  the slots of a second vector or with one scalar. Each starts as a clone and writes only the
  slots that are driven (`Arithmetic.drives`): by the second vector's non-zero slots for sums
  and differences, by its own for products and quotients, all of them when a scalar is added.
  Such a slot holds the formula's bits, the others hold the clone's (`apply_eq`).

  Passing over a zero shows nowhere but where the formula makes no number of it
  (`sameNumber_slot_iff`): a zero times what is not finite, a zero divided by a zero or by no
  number. There the result keeps its zero. `arithmetic_follows_formula` says so for vectors of
  either storage.
-/
import FeatureVector.Proofs.Addition
import FeatureVector.Script.Run

namespace FeatureVector

open Binary64

/-- What computes a vector from one, slot by slot. -/
inductive Arithmetic
  | add (w : Vect)
  | sub (w : Vect)
  | mul (w : Vect)
  | addScalar (c : Float)
  | scale (c : Float)
  | divScalar (c : Float)

namespace Arithmetic

def apply (v : Vect) : Arithmetic → Except Fault Dense
  | add w => v.add w
  | sub w => v.sub w
  | mul w => v.mul w
  | addScalar c => v.addScalar c
  | scale c => v.scale c
  | divScalar c => v.divScalar c

/-- The second vector has the size of the first. -/
def Fits (v : Vect) : Arithmetic → Prop
  | add w | sub w | mul w => w.WellFormed ∧ v.size = w.size
  | addScalar _ | scale _ | divScalar _ => True

/-- What stands beside each of `n` slots. -/
def operands (n : Nat) : Arithmetic → List Float
  | add w | sub w | mul w => w.slots
  | addScalar c | scale c | divScalar c => List.replicate n c

def formula : Arithmetic → Float → Float → Float
  | add _ | addScalar _ => (· + ·)
  | sub _ => (· - ·)
  | mul _ | scale _ => (· * ·)
  | divScalar _ => (· / ·)

/-- The result's slot is written, and not left as the clone has it. -/
def drives (op : Arithmetic) (x y : Float) : Bool :=
  match op with
  | add _ | sub _ => !(y == zero)
  | mul _ | scale _ | divScalar _ => !(x == zero)
  | addScalar _ => true

/-- The formula makes no number of a zero that is passed over. -/
def Exceptional (op : Arithmetic) (x y : Float) : Prop :=
  match op with
  | mul _ | scale _ => (x == zero) = true ∧ (y.isNaN = true ∨ y.isInf = true)
  | divScalar _ => (x == zero) = true ∧ (y.isNaN = true ∨ (y == zero) = true)
  | add _ | sub _ | addScalar _ => False

/-- No slot is driven, so the result is the clone as it is. -/
def idle (op : Arithmetic) (v : Vect) : Bool :=
  match op with
  | add w | sub w => w.slots.all (· == zero)
  | mul _ | scale _ | divScalar _ => v.slots.all (· == zero)
  | addScalar _ => v.size == 0

/-- What the result holds where the operands hold `x` and `y`. -/
def slot (op : Arithmetic) (v : Vect) (x y : Float) : Float := if op.drives x y then op.formula x y else v.copied x

/-! ## Slot by slot -/

theorem slot_of_drives {op : Arithmetic} {x y : Float} (h : op.drives x y = true) (v : Vect) :
    op.slot v x y = op.formula x y := if_pos h

theorem slot_of_not_drives {op : Arithmetic} {x y : Float} (h : op.drives x y = false) (v : Vect) :
    op.slot v x y = v.copied x := if_neg (Bool.eq_false_iff.mp h)

/-- What is kept of a zero is not what is no number. -/
theorem not_sameNumber_copied {v : Vect} {x r : Float} (hx : (x == zero) = true) (hr : value r = .nan) :
    ¬ SameNumber (v.copied x) r := by
  intro h
  have hnan := (sameNumber_nan_iff hr).mp ((v.sameNumber_copied x).symm.trans h)
  rw [not_isNaN_of_zero hx] at hnan
  cases hnan

/-- A zero that the formula leaves a zero may be kept. -/
theorem sameNumber_copied_of_zero {v : Vect} {x r : Float} (hx : (x == zero) = true) (hr : ∃ s, value r = .zero s) :
    SameNumber (v.copied x) r := (v.sameNumber_copied x).trans (sameNumber_of_zeros hx (beq_zero_iff.mpr hr))

/-- A slot that is not driven is the formula's number but for the exceptions. -/
theorem sameNumber_copied_iff {op : Arithmetic} {x y : Float} (h : op.drives x y = false) (v : Vect) :
    SameNumber (v.copied x) (op.formula x y) ↔ ¬ op.Exceptional x y := by
  have product (hx : (x == zero) = true) :
      SameNumber (v.copied x) (x * y) ↔ ¬ ((x == zero) = true ∧ (y.isNaN = true ∨ y.isInf = true)) := by
    obtain ⟨s, hs⟩ := beq_zero_iff.mp hx
    rw [← isFinite_eq_false_iff]
    cases hy : y.isFinite with
    | true => simp [sameNumber_copied_of_zero hx (value_zero_mul hs hy)]
    | false => simp [hx, not_sameNumber_copied hx (value_zero_mul_of_not_finite hs hy)]
  cases op with
  | add w =>
    obtain ⟨s, hs⟩ := beq_zero_iff.mp (by simpa [drives] using h)
    simpa [Exceptional, formula] using (v.sameNumber_copied x).trans (sameNumber_add_zero x hs)
  | sub w =>
    obtain ⟨s, hs⟩ := beq_zero_iff.mp (by simpa [drives] using h)
    simpa [Exceptional, formula] using (v.sameNumber_copied x).trans (sameNumber_sub_zero x hs)
  | mul w => exact product (by simpa [drives] using h)
  | scale c => exact product (by simpa [drives] using h)
  | divScalar c =>
    have hx : (x == zero) = true := by simpa [drives] using h
    obtain ⟨s, hs⟩ := beq_zero_iff.mp hx
    show SameNumber (v.copied x) (x / y) ↔ ¬ ((x == zero) = true ∧ (y.isNaN = true ∨ (y == zero) = true))
    by_cases hy : y.isNaN = true ∨ (y == zero) = true
    · simp only [hx, hy, and_self, not_true_eq_false, iff_false]
      exact not_sameNumber_copied hx (value_zero_div_of hs hy)
    · have hnan : y.isNaN = false := Bool.eq_false_iff.mpr fun h => hy (.inl h)
      have hzero : (y == zero) = false := Bool.eq_false_iff.mpr fun h => hy (.inr h)
      simp only [hy, and_false, not_false_eq_true, iff_true]
      exact sameNumber_copied_of_zero hx (value_zero_div hs hnan hzero)
  | addScalar c => cases h

/-! ## The whole vector -/

theorem length_operands {op : Arithmetic} {v : Vect} (h : op.Fits v) : (op.operands v.size).length = v.size := by
  cases op with
  | add w | sub w | mul w => exact (Vect.length_slots h.1).trans h.2.symm
  | addScalar c | scale c | divScalar c => exact List.length_replicate

/-- A combination driven by the second operand, as a choice by its zeros. -/
theorem zipWith_slot {op : Arithmetic} {v : Vect} (test : Float → Float → Bool)
    (h : ∀ x y, op.drives x y = !test x y) (xs ys : List Float) : List.zipWith (op.slot v) xs ys =
      List.zipWith (fun x y => if test x y then v.copied x else op.formula x y) xs ys := by
  congr 1
  funext x y
  unfold slot
  rw [h]
  cases test x y <;> rfl

theorem zipWith_replicate_size {v : Vect} (hv : v.WellFormed) (f : Float → Float → Float) (c : Float) :
    List.zipWith f v.slots (List.replicate v.size c) = v.slots.map (f · c) := by
  refine List.ext_getElem (by simp [Vect.length_slots hv]) fun i _ _ => ?_
  simp

theorem nonZero_isEmpty {v : Vect} (hv : v.WellFormed) : v.nonZero.isEmpty = v.slots.all (· == zero) := by
  rw [Vect.nonZero_eq hv]
  exact Walk.isEmpty_elements .nonZero 0 v.slots

/-- The result under the vector's labels. Its cached length is the clone's if no slot is driven. -/
theorem apply_eq {op : Arithmetic} {v : Vect} (hv : v.WellFormed) (h : op.Fits v) : op.apply v = .ok {
    slots := (List.zipWith (op.slot v) v.slots (op.operands v.size)).toArray
    name := v.name
    bindings := v.bindings
    cache := if op.idle v then v.ownCache else .empty } := by
  have bySelf (c : Float) {e : Element} (he : e ∈ v.nonZero) :
      (List.replicate v.size c)[e.index]?.getD zero = c := by
    simp [Vect.index_lt_of_mem_nonZero hv he]
  cases op with
  | add w =>
    rw [zipWith_slot (fun _ y => y == zero) (fun _ _ => rfl), idle, ← nonZero_isEmpty h.1]
    exact Vect.add_eq hv h.1 h.2
  | sub w =>
    rw [zipWith_slot (fun _ y => y == zero) (fun _ _ => rfl), idle, ← nonZero_isEmpty h.1]
    have hsub : v.sub w = (do (← v.clone).fill w.nonZero fun e => do return (← v.slot e.index) - e.value) := by
      unfold Vect.sub
      rw [checkSize_eq_ok.mpr h.2]
      rfl
    exact hsub.trans (Vect.fill_clone_zip hv h.1 h.2 (· - ·))
  | mul w =>
    rw [zipWith_slot (fun x _ => x == zero) (fun _ _ => rfl), idle, ← nonZero_isEmpty hv]
    have hmul : v.mul w = (do (← v.clone).fill v.nonZero fun e => do return e.value * (← w.slot e.index)) := by
      unfold Vect.mul
      rw [checkSize_eq_ok.mpr h.2]
      rfl
    refine hmul.trans (Vect.fill_clone_own hv ((Vect.length_slots h.1).trans h.2.symm) (· * ·) fun e he => ?_)
    rw [Vect.slot_of_lt h.1 (by rw [← h.2]; exact Vect.index_lt_of_mem_nonZero hv he)]
    rfl
  | addScalar c =>
    have hslots : List.zipWith ((addScalar c).slot v) v.slots (List.replicate v.size c) = v.slots.map (· + c) :=
      zipWith_replicate_size hv _ c
    rw [operands, hslots]
    simp only [apply, Vect.addScalar_eq hv c, idle, beq_iff_eq]
  | scale c =>
    rw [zipWith_slot (fun x _ => x == zero) (fun _ _ => rfl), idle, ← nonZero_isEmpty hv]
    refine Vect.fill_clone_own hv List.length_replicate (· * ·) fun e he => ?_
    rw [bySelf c he]
    rfl
  | divScalar c =>
    rw [zipWith_slot (fun x _ => x == zero) (fun _ _ => rfl), idle, ← nonZero_isEmpty hv]
    refine Vect.fill_clone_own hv List.length_replicate (· / ·) fun e he => ?_
    rw [bySelf c he]
    rfl

/-- The result has the vector's size, and its slots are the formula's. -/
theorem exists_apply (op : Arithmetic) {v : Vect} (hv : v.WellFormed) (h : op.Fits v) : ∃ d, op.apply v = .ok d ∧
    d.size = v.size ∧ d.toList = List.zipWith (op.slot v) v.slots (op.operands v.size) := by
  refine ⟨_, apply_eq hv h, ?_, rfl⟩
  simp [Dense.size, Vect.length_slots hv, length_operands h]

/-- A slot of the result is the formula's number but for the exceptions, and there a zero. -/
theorem sameNumber_slot_iff (op : Arithmetic) (v : Vect) (x y : Float) :
    (SameNumber (op.slot v x y) (op.formula x y) ↔ ¬ op.Exceptional x y) ∧
      (op.Exceptional x y → (op.slot v x y == zero) = true) := by
  cases hd : op.drives x y with
  | true =>
    have hregular : ¬ op.Exceptional x y := by
      cases op <;> simp_all [drives, Exceptional]
    rw [slot_of_drives hd]
    exact ⟨by simp [hregular, SameNumber.refl], fun h => absurd h hregular⟩
  | false =>
    rw [slot_of_not_drives hd]
    refine ⟨sameNumber_copied_iff hd v, fun h => ?_⟩
    have hx : (x == zero) = true := by
      cases op <;> simp_all [Exceptional]
    exact sameNumber_zero_iff.mp ((v.sameNumber_copied x).trans (sameNumber_zero_iff.mpr hx))

end Arithmetic

/-- Arithmetic comes to the elementwise formula, although it passes over zeros. It succeeds,
    the result has the vector's size, and each slot is the formula's number exactly if the
    formula does not make no number of a zero passed over; there it is a zero. A driven slot
    is the formula's to the bit. The vector computed from stays as it is. -/
theorem arithmetic_follows_formula {v : Vect} {op : Arithmetic} (hv : v.WellFormed) (h : op.Fits v) :
    (∃ d, op.apply v = .ok d ∧ d.size = v.size ∧
      ∀ (i : Nat) (x y : Float), v.slots[i]? = some x → (op.operands v.size)[i]? = some y →
        ∃ r, d.toList[i]? = some r ∧ (SameNumber r (op.formula x y) ↔ ¬ op.Exceptional x y) ∧
          (op.Exceptional x y → (r == zero) = true) ∧ (op.drives x y = true → r = op.formula x y)) ∧
    ∀ (d : Script.Derivation) (next : List Step), ((Step.derive d next).run v).2 = v := by
  refine ⟨?_, fun d next => ?_⟩
  · obtain ⟨d, happly, hsize, hslots⟩ := op.exists_apply hv h
    refine ⟨d, happly, hsize, fun i x y hx hy => ⟨op.slot v x y, ?_, ?_⟩⟩
    · rw [hslots, List.getElem?_zipWith, hx, hy]
    · obtain ⟨hsame, hzero⟩ := op.sameNumber_slot_iff v x y
      exact ⟨hsame, hzero, fun hd => Arithmetic.slot_of_drives hd v⟩
  · unfold Step.run
    cases d.apply v <;> rfl

/-- A window in a window times storage: its negative zero times infinity is left a zero, its
    one times no number is none. -/
theorem product_of_window_and_storage :
    let v : Vect := .view (.view (.dense (.ofList [9, negZero, 1, 5, 7])) ⟨1, 4, some "outer", none⟩)
      ⟨0, 3, none, none⟩
    let w : Vect := .dense (.ofList [1 / zero, zero / zero, 2])
    ∃ d, (Arithmetic.mul w).apply v = .ok d ∧ d.size = 3 ∧
      (∃ r, d.toList[0]? = some r ∧ ¬ SameNumber r (negZero * (1 / zero)) ∧ (r == zero) = true) ∧
      ∃ r, d.toList[2]? = some r ∧ r = 5 * 2 := by
  intro v w
  obtain ⟨⟨d, hd, hsize, hslots⟩, -⟩ := @arithmetic_follows_formula v (.mul w) (by decide) ⟨by decide, rfl⟩
  obtain ⟨r, hr, hsame, hzero, -⟩ := hslots 0 negZero (1 / zero) rfl rfl
  obtain ⟨r', hr', -, -, hdriven⟩ := hslots 2 5 2 rfl rfl
  have hexceptional : (Arithmetic.mul w).Exceptional negZero (1 / zero) := by
    refine ⟨by decide, .inr ?_⟩
    decide
  exact ⟨d, hd, hsize, ⟨r, hr, fun h => hsame.mp h hexceptional, hzero hexceptional⟩, r', hr',
    hdriven (by decide)⟩

end FeatureVector

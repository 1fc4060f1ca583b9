/-
  FeatureVector.Proofs.Addition — every way of adding one vector to another comes to the same
  numbers.

  Two vectors of one size can be added by a fresh sum in either order, by `addTo`, and in
  place by an assignment with addition, declared to accumulate or not (`Addition`). Which
  slots are visited differs from way to way and from storage to storage, and so does what is
  read: the original, its clone, or the target itself. But whatever a way does with slots `x`
  and `y`, it comes to the number `x + y` (`Addition.exists_slots`), since a slot is passed
  over only where the other is a zero.

  So any two ways agree in every slot, on any two pairs of vectors with these slots, up to the
  sign of a zero (`ways_of_adding_agree`), and scaled addition with a finite scale comes to
  the same numbers on either storage.
-/
import FeatureVector.Proofs.Accumulation
import FeatureVector.Proofs.Arithmetic

namespace FeatureVector

open Binary64

/-- The ways of adding a vector `a` to a vector `t`. -/
inductive Addition
  /-- A fresh vector: `t` and `a`. -/
  | sum
  /-- A fresh vector: `a` and `t`. -/
  | swapped
  /-- `t` after `a` is added to it. -/
  | addTo
  /-- `t` after an assignment with addition, which is declared to accumulate. -/
  | accumulate
  /-- `t` after an assignment with addition as any function. -/
  | assign

namespace Addition

/-- The slots it comes to. -/
def slots (way : Addition) (t a : Vect) : Except Fault (List Float) :=
  match way with
  | sum => return (← t.add a).toList
  | swapped => return (← a.add t).toList
  | addTo => return (← a.addTo.exec t).slots
  | accumulate => return (← (Vect.assignZip a .add).exec t).slots
  | assign => return (← (Vect.assignZip a (.ofFunction (· + ·))).exec t).slots

end Addition

/-! ## Slot by slot -/

/-- The same number in every slot, in the same bits unless it is a zero. -/
def SlotsAgree (xs ys : List Float) : Prop :=
  List.Forall₂ (fun x y => SameNumber x y ∧
    (x.toBits = y.toBits ∨ (x == zero) = true ∧ (y == zero) = true)) xs ys

theorem slotsAgree_zipWith {f g : Float → Float → Float} (h : ∀ x y, SameNumber (f x y) (g x y))
    (xs ys : List Float) : SlotsAgree (List.zipWith f xs ys) (List.zipWith g xs ys) := by
  refine List.forall₂_iff_get.mpr ⟨by simp, fun i hi hi' => ?_⟩
  simp only [List.get_eq_getElem, List.getElem_zipWith]
  exact ⟨h _ _, (h _ _).bits⟩

namespace Vect

/-- What a fresh sum holds where the vectors hold `x` and `y`. -/
def sumSlot (v : Vect) (x y : Float) : Float := if y == zero then v.copied x else x + y

theorem add_eq {v w : Vect} (hv : v.WellFormed) (hw : w.WellFormed) (hsize : v.size = w.size) :
    v.add w = .ok {
      slots := (List.zipWith v.sumSlot v.slots w.slots).toArray
      name := v.name
      bindings := v.bindings
      cache := if w.nonZero.isEmpty then v.ownCache else .empty } := by
  unfold add
  rw [checkSize_eq_ok.mpr hsize]
  exact fill_clone_zip hv hw hsize (· + ·)

theorem sameNumber_copied (v : Vect) (x : Float) : SameNumber (v.copied x) x := by
  unfold copied
  cases v with
  | dense d => exact .refl x
  | view p w =>
    by_cases hx : (x == zero) = true
    · simp only [hx, if_true]
      exact sameNumber_of_zeros (by decide) hx
    · simp only [hx]
      exact .refl x

theorem sameNumber_sumSlot (v : Vect) (x y : Float) : SameNumber (v.sumSlot x y) (x + y) := by
  unfold sumSlot
  by_cases hy : (y == zero) = true
  · obtain ⟨negative, hz⟩ := beq_zero_iff.mp hy
    simp only [hy, if_true]
    exact (v.sameNumber_copied x).trans (sameNumber_add_zero x hz)
  · simp only [hy]
    exact .refl _

theorem sameNumber_addedSlot (v : Vect) (x y : Float) : SameNumber (v.addedSlot x y) (x + y) := by
  unfold addedSlot
  cases v with
  | dense d =>
    rw [add_commutes]
    exact .refl _
  | view p w =>
    by_cases hy : (y == zero) = true
    · obtain ⟨negative, hz⟩ := beq_zero_iff.mp hy
      simp only [hy, if_true]
      exact sameNumber_add_zero x hz
    · simp only [hy]
      exact .refl _

/-- A slot that a function spares may be passed over. -/
theorem sameNumber_zipSlot (v : Vect) {f : BinaryFunction} {x y : Float} (h : f.Spares x y) :
    SameNumber (v.zipSlot f x y) (f.apply x y) := by
  unfold zipSlot
  cases v with
  | dense d =>
    by_cases hy : (f.accumulating && y == zero) = true
    · simp only [hy, if_true]
      exact h (Bool.and_eq_true _ _ ▸ hy).2
    · simp only [hy]
      exact .refl _
  | view p w => exact .refl _

theorem exec_assignZip {v o : Vect} (hv : v.WellFormed) (ho : o.WellFormed) (hsize : v.size = o.size)
    (f : BinaryFunction) : (do return (← (assignZip o f).exec v).slots) =
      (.ok (List.zipWith (v.zipSlot f) v.slots o.slots) : Except Fault (List Float)) := by
  obtain ⟨u, hu, -, hslots⟩ := slots_assignZip hv ho hsize f
  rw [Edit.exec_eq_ok hu, ← hslots]
  rfl

end Vect

/-! ## All the ways -/

namespace Addition

/-- A way combines the slots by a function of the two, which is their sum up to the sign of a
    zero. -/
theorem exists_slots (way : Addition) {t a : Vect} (ht : t.WellFormed) (ha : a.WellFormed) (hsize : t.size = a.size) :
    ∃ f : Float → Float → Float, way.slots t a = .ok (List.zipWith f t.slots a.slots) ∧
      ∀ x y, SameNumber (f x y) (x + y) := by
  cases way with
  | sum =>
    refine ⟨t.sumSlot, ?_, t.sameNumber_sumSlot⟩
    unfold slots
    rw [Vect.add_eq ht ha hsize]
    rfl
  | swapped =>
    refine ⟨fun x y => a.sumSlot y x, ?_, fun x y => ?_⟩
    · unfold slots
      rw [Vect.add_eq ha ht hsize.symm, ← List.zipWith_comm]
      rfl
    · rw [add_commutes]
      exact a.sameNumber_sumSlot y x
  | addTo =>
    obtain ⟨u, hu, -, hslots⟩ := Vect.slots_addTo ha ht hsize.symm
    refine ⟨a.addedSlot, ?_, a.sameNumber_addedSlot⟩
    unfold slots
    rw [Edit.exec_eq_ok hu, ← hslots]
    rfl
  | accumulate =>
    exact ⟨t.zipSlot .add, Vect.exec_assignZip ht ha hsize .add,
      fun x y => t.sameNumber_zipSlot (BinaryFunction.spares_add x y)⟩
  | assign =>
    refine ⟨t.zipSlot (.ofFunction (· + ·)), Vect.exec_assignZip ht ha hsize _, fun x y => ?_⟩
    cases t <;> exact .refl _

end Addition

/-- Any two ways of adding agree, also when either vector is exchanged for one with the same
    slots in other storage: both succeed with the sum, slot by slot the same number and in
    the same bits unless it is a zero. So do scaled additions in place, for a finite scale. -/
theorem ways_of_adding_agree {t t' a a' : Vect} (ht : t.WellFormed) (ht' : t'.WellFormed) (ha : a.WellFormed)
    (ha' : a'.WellFormed) (hsize : t.size = a.size) (hslots : t'.slots = t.slots) (hslots' : a'.slots = a.slots) :
    (∀ way way' : Addition, ∃ xs ys, way.slots t a = .ok xs ∧ way'.slots t' a' = .ok ys ∧ SlotsAgree xs ys ∧
      SlotsAgree xs (List.zipWith (· + ·) t.slots a.slots)) ∧
    ∀ scale : Float, scale.isFinite = true → ∃ u u',
      (Vect.assignZip a (.addScaled scale)).exec t = .ok u ∧
      (Vect.assignZip a' (.addScaled scale)).exec t' = .ok u' ∧ SlotsAgree u.slots u'.slots ∧
      SlotsAgree u.slots (List.zipWith (fun x y => x + y * scale) t.slots a.slots) := by
  have hsize' : t'.size = a'.size := by
    rw [← Vect.length_slots ht', ← Vect.length_slots ha', hslots, hslots', Vect.length_slots ht, Vect.length_slots ha,
      hsize]
  constructor
  · intro way way'
    obtain ⟨f, hf, hsum⟩ := way.exists_slots ht ha hsize
    obtain ⟨g, hg, hsum'⟩ := way'.exists_slots ht' ha' hsize'
    rw [hslots, hslots'] at hg
    exact ⟨_, _, hf, hg, slotsAgree_zipWith (fun x y => (hsum x y).trans (hsum' x y).symm) _ _,
      slotsAgree_zipWith hsum _ _⟩
  · intro scale hscale
    obtain ⟨u, hu, -, hturned⟩ := Vect.slots_assignZip ht ha hsize (.addScaled scale)
    obtain ⟨u', hu', -, hturned'⟩ := Vect.slots_assignZip ht' ha' hsize' (.addScaled scale)
    have hsum (v : Vect) (x y : Float) : SameNumber (v.zipSlot (.addScaled scale) x y) (x + y * scale) :=
      v.sameNumber_zipSlot ((BinaryFunction.spares_addScaled_iff scale x y).mpr (.inl hscale))
    refine ⟨u, u', Edit.exec_eq_ok hu, Edit.exec_eq_ok hu', ?_, ?_⟩
    · rw [hturned, hturned', hslots, hslots']
      exact slotsAgree_zipWith (fun x y => (hsum t x y).trans (hsum t' x y).symm) _ _
    · rw [hturned]
      exact slotsAgree_zipWith (hsum t) _ _

/-- Zeros of both signs, no number and an infinity, in storage and in a window in a window. The
    sum from the storage leaves the first slot its negative zero; in the other order, from the
    windows, that slot is a positive one. -/
theorem additions_of_storage_and_window :
    let t : Vect := .dense (.ofList [negZero, 1, zero / zero, 5])
    let t' : Vect := .view (.view (.dense (.ofList [9, negZero, 1, zero / zero, 5])) ⟨1, 4, some "t", none⟩)
      ⟨0, 4, none, none⟩
    let a : Vect := .dense (.ofList [zero, negZero, 2, negInfinity])
    let a' : Vect := .view (.dense (.ofList [zero, negZero, 2, negInfinity, 9])) ⟨0, 4, none, none⟩
    Addition.sum.slots t a = .ok [negZero, 1, zero / zero, negInfinity] ∧
      Addition.swapped.slots t' a' = .ok [zero, 1, zero / zero, negInfinity] ∧
      SlotsAgree [negZero, 1, zero / zero, negInfinity] [zero, 1, zero / zero, negInfinity] ∧
      ∃ u u', (Vect.assignZip a (.addScaled 3)).exec t = .ok u ∧ (Vect.assignZip a' (.addScaled 3)).exec t' = .ok u' ∧
        SlotsAgree u.slots u'.slots := by
  intro t t' a a'
  obtain ⟨hways, hscaled⟩ := @ways_of_adding_agree t t' a a' (by decide) (by decide) (by decide) (by decide)
    rfl rfl rfl
  have hsum : Addition.sum.slots t a = .ok [negZero, 1, zero / zero, negInfinity] := by decide
  have hswapped : Addition.swapped.slots t' a' = .ok [zero, 1, zero / zero, negInfinity] := by decide
  obtain ⟨xs, ys, hxs, hys, hagree, -⟩ := hways .sum .swapped
  rw [hsum] at hxs
  rw [hswapped] at hys
  cases hxs
  cases hys
  obtain ⟨u, u', hu, hu', hagree', -⟩ := hscaled 3 (by decide)
  exact ⟨hsum, hswapped, hagree, u, u', hu, hu', hagree'⟩

end FeatureVector

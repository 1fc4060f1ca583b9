/-
  FeatureVector.Proofs.Accumulation — where it shows that contiguous storage passes over the
  zeros of the second operand of an accumulating function.

  `f.Spares x y`: if `y` is a zero, `f` leaves `x` the number it is. That is what a function
  declares by `accumulating`, for every `x`, and what contiguous storage relies on when it
  leaves those slots alone; a window applies the function in every slot. So the two are left
  with the same number exactly in the slots the function spares (`zipsAgree_spares`).

  Addition spares every slot (`spares_add`). Scaled addition declares the same and does not
  keep it: an infinite or NaN scale makes no number of a zero (`spares_addScaled_iff`,
  `infinite_scale_parts_storage_and_window`). `accumulating_assignment_matches_window` says
  for both, and for every function that declares it, in which slots the results agree.
-/
import FeatureVector.Proofs.Assignments
import FeatureVector.Proofs.Binary64.SameNumber

namespace FeatureVector

open Binary64

namespace BinaryFunction

/-- A zero in the second operand leaves the first the number it is. -/
def Spares (f : BinaryFunction) (x y : Float) : Prop := (y == zero) = true → SameNumber x (f.apply x y)

theorem spares_add (x y : Float) : add.Spares x y := by
  intro hy
  obtain ⟨negative, hz⟩ := beq_zero_iff.mp hy
  exact sameNumber_add_zero x hz

theorem spares_addScaled_iff (scale x y : Float) :
    (addScaled scale).Spares x y ↔ scale.isFinite = true ∨ (y == zero) = false ∨ x.isNaN = true := by
  by_cases hy : (y == zero) = true
  · obtain ⟨negative, hz⟩ := beq_zero_iff.mp hy
    by_cases hscale : scale.isFinite = true
    · obtain ⟨negative', hproduct⟩ := value_zero_mul hz hscale
      have hsame : SameNumber x ((addScaled scale).apply x y) := sameNumber_add_zero x hproduct
      simp [Spares, hscale, hsame]
    · have hproduct : value (y * scale) = .nan := value_zero_mul_of_not_finite hz (by simpa using hscale)
      have hsame : SameNumber x ((addScaled scale).apply x y) ↔ x.isNaN = true :=
        sameNumber_nan_iff (value_add_nan x hproduct)
      simp only [Spares, hy, hscale, hsame, forall_const]
      simp
  · simp [Spares, hy]

end BinaryFunction

namespace Vect

/-- Both vectors take the change by `o`, and what they are then left with in a slot is the
    same number exactly if `agree x y`, where the slot held `x` and that of `o` holds `y`. -/
def ZipsAgree (f : BinaryFunction) (o v w : Vect) (agree : Float → Float → Prop) : Prop :=
  ∃ v' w', (assignZip o f).outcome v = (.ok (), v') ∧ (assignZip o f).outcome w = (.ok (), w') ∧
    v'.slots.length = v.size ∧ w'.slots.length = v.size ∧
    ∀ (i : Nat) (x y : Float), v.slots[i]? = some x → o.slots[i]? = some y →
      ∃ a b, v'.slots[i]? = some a ∧ w'.slots[i]? = some b ∧ (SameNumber a b ↔ agree x y)

theorem ZipsAgree.congr {f : BinaryFunction} {o v w : Vect} {agree agree' : Float → Float → Prop}
    (h : ZipsAgree f o v w agree) (hiff : ∀ x y, agree x y ↔ agree' x y) : ZipsAgree f o v w agree' := by
  obtain ⟨v', w', hv, hw, hlen, hlen', hslots⟩ := h
  refine ⟨v', w', hv, hw, hlen, hlen', fun i x y hx hy => ?_⟩
  obtain ⟨a, b, ha, hb, hsame⟩ := hslots i x y hx hy
  exact ⟨a, b, ha, hb, hsame.trans (hiff x y)⟩

section

variable {d : Dense} {w o : Vect} (hw : w.WellFormed) (hkind : w.kind = .view) (hslots : w.slots = d.toList)
  (ho : o.WellFormed) (hsize : d.size = o.size)

include hw hkind hslots ho hsize

/-- Storage and a window that shows the same agree exactly in the slots the function spares. -/
theorem zipsAgree_spares {f : BinaryFunction} (hf : f.accumulating = true) :
    ZipsAgree f o (dense d) w f.Spares := by
  have hwsize : w.size = d.size := by
    rw [← length_slots hw, hslots]
    exact Array.length_toList
  obtain ⟨v', hv', hsized, hskipped⟩ := slots_assignZip (v := .dense d) trivial ho hsize f
  obtain ⟨w', hw', hsized', hevery⟩ := slots_assignZip hw ho (hwsize.trans hsize) f
  have hstorage : zipSlot (.dense d) f = fun x y => if (y == zero) = true then x else f.apply x y := by
    funext x y
    simp [zipSlot, hf]
  have hwindow : w.zipSlot f = f.apply := by
    cases w with
    | dense _ => cases hkind
    | view _ _ => rfl
  rw [hstorage] at hskipped
  rw [hwindow, hslots] at hevery
  refine ⟨v', w', hv', hw', (length_slots hsized.1).trans hsized.2,
    (length_slots hsized'.1).trans (hsized'.2.trans hwsize), fun i x y hx hy => ?_⟩
  have hx' : d.toList[i]? = some x := hx
  refine ⟨if (y == zero) = true then x else f.apply x y, f.apply x y, ?_, ?_, ?_⟩
  · rw [hskipped, List.getElem?_zipWith, hx, hy]
  · rw [hevery, List.getElem?_zipWith, hx', hy]
  · unfold BinaryFunction.Spares
    by_cases hzero : (y == zero) = true
    · simp [hzero]
    · simp [hzero, SameNumber.refl]

end

end Vect

open Vect

/-- Storage skips the operand's zeros, a window over the same slots does not. Both changes
    succeed, and the slots they leave hold the same number exactly where the function spares
    them: for addition everywhere, for scaled addition unless the scale is infinite or NaN,
    the operand is zero there and the slot was a number. -/
theorem accumulating_assignment_matches_window {d : Dense} {w o : Vect} (hw : w.WellFormed)
    (hkind : w.kind = .view) (hslots : w.slots = d.toList) (ho : o.WellFormed) (hsize : d.size = o.size) :
    (∀ f : BinaryFunction, f.accumulating = true → ZipsAgree f o (.dense d) w f.Spares) ∧
      ZipsAgree .add o (.dense d) w (fun _ _ => True) ∧
      ∀ scale, ZipsAgree (.addScaled scale) o (.dense d) w fun x y =>
        scale.isFinite = true ∨ (y == zero) = false ∨ x.isNaN = true := by
  have hspares {f : BinaryFunction} (hf : f.accumulating = true) : ZipsAgree f o (.dense d) w f.Spares :=
    zipsAgree_spares hw hkind hslots ho hsize hf
  refine ⟨fun f hf => hspares hf, ?_, fun scale => ?_⟩
  · exact (hspares rfl).congr fun x y => ⟨fun _ => trivial, fun _ => BinaryFunction.spares_add x y⟩
  · exact (hspares rfl).congr (BinaryFunction.spares_addScaled_iff scale)

/-- Storage with slots of several kinds and a window in a window over it; the operand, a
    window too, has zeros of both signs. What differs is the sign of a zero. -/
theorem accumulating_assignments_of_storage_and_window :
    let d : Dense := .ofList [1, negZero, zero / zero, 5]
    let w : Vect := .view (.view (.dense d) ⟨0, 4, some "outer", none⟩) ⟨0, 4, none, none⟩
    let o : Vect := .view (.dense (.ofList [7, negZero, zero, zero, 2])) ⟨1, 4, none, none⟩
    ZipsAgree (.addScaled 3) o (.dense d) w (fun _ _ => True) ∧
      ((assignZip o (.addScaled 3)).outcome (.dense d)).2.slots = [1, negZero, zero / zero, 11] ∧
      ((assignZip o (.addScaled 3)).outcome w).2.slots = [1, zero, zero / zero, 11] := by
  intro d w o
  have hfinite : (3 : Float).isFinite = true := by decide
  obtain ⟨-, -, hscaled⟩ := accumulating_assignment_matches_window (d := d) (w := w) (o := o)
    (by decide) rfl rfl (by decide) rfl
  exact ⟨(hscaled 3).congr fun x y => by simp [hfinite], by decide +kernel, by decide +kernel⟩

/-- The window is left with what is no number, the storage with what it held. -/
theorem infinite_scale_parts_storage_and_window :
    let d : Dense := .ofList [1]
    let w : Vect := .view (.dense d) ⟨0, 1, none, none⟩
    let o : Vect := .dense (.ofList [zero])
    let scale : Float := .ofBits 0x7ff0000000000000
    ¬ ZipsAgree (.addScaled scale) o (.dense d) w fun _ _ => True := by
  intro d w o scale
  rintro ⟨v', w', hv, hw, -, -, hslots⟩
  have hv' : v'.slots = [1] := by
    rw [← show _ = v' from congrArg Prod.snd hv]
    decide
  have hw' : w'.slots = [zero / zero] := by
    rw [← show _ = w' from congrArg Prod.snd hw]
    decide
  obtain ⟨a, b, ha, hb, hsame⟩ := hslots 0 1 zero rfl rfl
  rw [hv'] at ha
  rw [hw'] at hb
  cases ha
  cases hb
  have hparted : ¬ SameNumber 1 (zero / zero) := by
    unfold SameNumber
    decide
  exact hparted (hsame.mpr trivial)

end FeatureVector

/-
  FeatureVector.Proofs.FaithfulClones — what a clone has of the vector it is made from.

  Size, name and bindings are the vector's own, however deep it lies. Contiguous storage is
  copied whole, to the bit. A window is rebuilt from its non-zero slots on zeroed storage, so a
  negative zero in it comes back as a positive one (`Vect.LosesSign`), and that is all that
  changes (`Vect.copied_eq_iff`).

  The two zeros are one number, but equality of storage and the text tell them apart. So
  `clone_faithful_but_for_signs`: a clone equals contiguous storage of the vector's slots, and
  has the vector's text, exactly if no sign is lost. `clone_of_window_loses_a_sign` is a window
  that loses one.
-/
import FeatureVector.Proofs.Addition
import FeatureVector.Proofs.Binary64.Sums
import FeatureVector.Proofs.CanonicalText
import FeatureVector.Proofs.Equality

namespace FeatureVector

open Binary64

namespace Vect

/-- A window's negative zero. -/
def LosesSign (v : Vect) (x : Float) : Prop := v.kind = .view ∧ x = negZero

theorem copied_eq_iff (v : Vect) (x : Float) : v.copied x = x ↔ ¬ v.LosesSign x := by
  cases v with
  | dense d => simp [copied, LosesSign, kind]
  | view p w =>
    simp only [copied, LosesSign, kind, true_and]
    by_cases hx : (x == zero) = true
    · rw [if_pos hx]
      constructor
      · rintro rfl
        exact zero_ne_negZero
      · intro hne
        obtain ⟨s, hs⟩ := beq_zero_iff.mp hx
        cases s with
        | false => exact value_inj (value_zero.trans hs.symm)
        | true => exact absurd (eq_negZero_iff.mpr hs) hne
    · rw [if_neg hx]
      simp only [true_iff]
      rintro rfl
      exact hx (by decide)

theorem copied_of_losesSign {v : Vect} {x : Float} (h : v.LosesSign x) : v.copied x = zero := by
  obtain ⟨hkind, rfl⟩ := h
  cases v with
  | dense d => cases hkind
  | view p w => rfl

theorem map_copied_eq_iff (v : Vect) (xs : List Float) : xs.map v.copied = xs ↔ ∀ x ∈ xs, ¬ v.LosesSign x := by
  have hself : xs.map v.copied = xs ↔ ∀ x ∈ xs, v.copied x = x := by
    rw [← List.map_inj_left, List.map_id']
  exact hself.trans (forall₂_congr fun x _ => v.copied_eq_iff x)

end Vect

/-- In writing the lost sign shows, and the slots that are written alike as no number do not
    hide it. -/
theorem Json.map_ofFloat_copied_iff (v : Vect) (xs : List Float) :
    (xs.map v.copied).map ofFloat = xs.map ofFloat ↔ ∀ x ∈ xs, ¬ v.LosesSign x := by
  constructor
  · intro h x hx hloses
    rw [List.map_map] at h
    have hat : ofFloat (v.copied x) = ofFloat x := List.map_inj_left.mp h x hx
    rw [Vect.copied_of_losesSign hloses, hloses.2] at hat
    exact zero_ne_negZero (ofFloat_injective (by decide) hat)
  · intro h
    rw [(v.map_copied_eq_iff xs).mpr h]

namespace Vect

theorem exists_clone {v : Vect} (h : v.WellFormed) :
    ∃ d, v.clone = .ok d ∧ d.size = v.size ∧ d.name = v.name ∧ d.bindings = v.bindings ∧
      d.toList = v.slots.map v.copied := by
  refine ⟨_, clone_slots h, ?_, rfl, rfl, List.toList_toArray⟩
  simp [Dense.size, length_slots h]

/-- Storage with the slots of a clone is written as the vector is if no sign is lost. -/
theorem encode_eq_iff_of_copied {v : Vect} (hv : v.WellFormed) {d : Dense} (hsize : d.size = v.size)
    (hname : d.name = v.name) (hbindings : d.bindings = v.bindings) (hslots : d.toList = v.slots.map v.copied)
    (options : EncodeOptions) :
    ∃ s t, v.encode options = .ok s ∧ (dense d).encode options = .ok t ∧ (s = t ↔ ∀ x ∈ v.slots, ¬ v.LosesSign x) := by
  refine ⟨_, _, encode_eq hv options, encode_eq (v := dense d) trivial options, ?_⟩
  constructor
  · intro htext
    have hdocument := Json.toText_injective (Record.writable_toJson _) (Record.writable_toJson _) htext
    obtain ⟨-, -, -, hvalues, -⟩ := Record.members_of_toJson hdocument
    have hvalues : v.slots.map Json.ofFloat = d.toList.map Json.ofFloat := hvalues
    rw [hslots] at hvalues
    exact (Json.map_ofFloat_copied_iff v v.slots).mp hvalues.symm
  · intro hkept
    have hslots' : v.slots = d.toList := by rw [hslots, (v.map_copied_eq_iff v.slots).mpr hkept]
    have hrecord := (record_eq_iff v (dense d) options.includeBindings).mpr
      ⟨hsize.symm, hslots', hname.symm, fun _ => hbindings.symm⟩
    rw [hrecord]

end Vect

/-- A clone has the vector's size, name and bindings, and in every slot the same number, in the
    same bits unless it is a window's negative zero. It equals contiguous storage of the slots,
    under the vector's name, and is written as the vector is, exactly if there is none. -/
theorem clone_faithful_but_for_signs {v : Vect} (hv : v.WellFormed) :
    ∃ d, v.clone = .ok d ∧ d.size = v.size ∧ d.name = v.name ∧ d.bindings = v.bindings ∧
      (∀ (i : Nat) (x : Float), v.slots[i]? = some x →
        ∃ c, d.toList[i]? = some c ∧ SameNumber c x ∧ (c.toBits = x.toBits ↔ ¬ v.LosesSign x)) ∧
      (d.same { Dense.ofList v.slots with name := v.name } = true ↔ ∀ x ∈ v.slots, ¬ v.LosesSign x) ∧
      ∀ options, ∃ s t, v.encode options = .ok s ∧ (Vect.dense d).encode options = .ok t ∧
        (s = t ↔ ∀ x ∈ v.slots, ¬ v.LosesSign x) := by
  obtain ⟨d, hd, hsize, hname, hbindings, hslots⟩ := Vect.exists_clone hv
  refine ⟨d, hd, hsize, hname, hbindings, fun i x hx => ?_, ?_,
    Vect.encode_eq_iff_of_copied hv hsize hname hbindings hslots⟩
  · refine ⟨v.copied x, ?_, v.sameNumber_copied x, Float.toBits_inj.trans (v.copied_eq_iff x)⟩
    rw [hslots, List.getElem?_map, hx, Option.map_some]
  · have hlist : Dense.toList { Dense.ofList v.slots with name := v.name } = v.slots := List.toList_toArray
    rw [Dense.same_iff, hlist, hslots, v.map_copied_eq_iff, and_iff_right hname]

/-- A window in a window with a zero and no number keeps both; the storage under it keeps its
    negative zero, which a window over it would lose. -/
theorem clone_of_window_and_storage :
    let labels : Option Bindings := some (.ofList [("a", 1)])
    let root : Dense := ⟨#[9, zero / zero, zero, -4, negZero], some "root", none, .empty⟩
    let v : Vect := .view (.view (.dense root) ⟨1, 4, some "outer", none⟩) ⟨0, 3, some "inner", labels⟩
    let options : EncodeOptions := ⟨true, true⟩
    (∃ d s, v.clone = .ok d ∧ d.same { Dense.ofList [zero / zero, zero, -4] with name := some "inner" } = true ∧
      d.bindings = labels ∧ v.encode options = .ok s ∧ (Vect.dense d).encode options = .ok s) ∧
    ∃ c, (Vect.dense root).clone = .ok c ∧ ∃ x, c.toList[4]? = some x ∧ x.toBits = negZero.toBits := by
  intro labels root v options
  have hnone : negZero.toBits ∉ v.slots.map Float.toBits := by decide
  have hv : ∀ x ∈ v.slots, ¬ v.LosesSign x := by
    rintro x hx ⟨-, rfl⟩
    exact hnone (List.mem_map_of_mem hx)
  obtain ⟨d, hd, -, -, hbindings, -, hsame, htexts⟩ := clone_faithful_but_for_signs (v := v) (by decide)
  obtain ⟨s, t, hs, ht, hst⟩ := htexts options
  obtain ⟨c, hc, -, -, -, hslots, -⟩ := clone_faithful_but_for_signs (v := .dense root) trivial
  obtain ⟨x, hx, -, hbits⟩ := hslots 4 negZero rfl
  refine ⟨⟨d, s, hd, hsame.mpr hv, hbindings, hs, hst.mpr hv ▸ ht⟩, c, hc, x, hx, hbits.mpr ?_⟩
  rintro ⟨hkind, -⟩
  cases hkind

/-- The clone has a positive zero for the negative one: it is not equal to storage of the
    window's slots, and its text is another. -/
theorem clone_of_window_loses_a_sign :
    let v : Vect := .view (.dense (.ofList [negZero])) ⟨0, 1, none, none⟩
    v.WellFormed ∧ ∃ d, v.clone = .ok d ∧ d.toList.map Float.toBits ≠ v.slots.map Float.toBits ∧
      d.same (.ofList v.slots) = false ∧ (Vect.dense d).encode .default ≠ v.encode .default := by
  intro v
  have hclone : v.clone = .ok (.ofList [zero]) := by decide
  exact ⟨by decide, _, hclone, by decide, by decide, by decide⟩

end FeatureVector

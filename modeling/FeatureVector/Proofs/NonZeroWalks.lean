/-
  FeatureVector.Proofs.NonZeroWalks — what a walk over a vector gives, call by call, and what
  is known of the rest of it.

  `walks_are_filters`: over the non-zero slots of a vector, storage or windows of any depth,
  the calls give every element whose slot is neither zero, ascending by index, and then
  nothing for good; NaN and subnormal slots are among them. Over every slot they give each
  index once, in order. The hints of a walk over storage hold before the first call and after
  every one: exactly over every slot, and over the non-zero slots as bounds of which the lower
  is zero only when nothing is left.
-/
import FeatureVector.Proofs.Binary64.Sums
import FeatureVector.Proofs.Cursors

namespace FeatureVector

open Binary64

theorem beq_zero_eq_false_iff {x : Float} : (x == zero) = false ↔ x ≠ zero ∧ x ≠ negZero := by
  rw [Bool.eq_false_iff, ne_eq, beq_zero_iff, ← not_or, not_iff_not]
  constructor
  · intro h
    obtain ⟨negative, hx⟩ := h
    cases negative with
    | false => exact .inl (value_inj (hx.trans value_zero.symm))
    | true => exact .inr (eq_negZero_iff.mpr hx)
  · intro h
    rcases h with rfl | rfl
    · exact ⟨false, value_zero⟩
    · exact ⟨true, value_negZero⟩

namespace Walk

theorem mem_elements_iff {pace : Pace} {xs : List Float} {e : Element} :
    e ∈ elements pace 0 xs ↔ xs[e.index]? = some e.value ∧ pace.skips e.value = false := by
  rw [elements_eq_filter]
  simp only [List.mem_map, List.mem_filter, Bool.not_eq_true']
  constructor
  · intro h
    obtain ⟨⟨x, i⟩, ⟨hmem, hskip⟩, rfl⟩ := h
    exact ⟨List.mem_zipIdx_iff_getElem?.mp hmem, hskip⟩
  · intro h
    exact ⟨(e.value, e.index), ⟨List.mem_zipIdx_iff_getElem?.mpr h.1, h.2⟩, rfl⟩

theorem pairwise_elements (pace : Pace) (index : Nat) (xs : List Float) :
    (elements pace index xs).Pairwise (·.index < ·.index) := by
  induction xs generalizing index with
  | nil => exact List.Pairwise.nil
  | cons x xs ih =>
    rw [elements_cons]
    split
    · exact ih (index + 1)
    · refine List.pairwise_cons.mpr ⟨?_, ih (index + 1)⟩
      intro e he
      exact (index_mem_elements he).1

theorem map_index_elements_every (xs : List Float) :
    (elements .every 0 xs).map Element.index = List.range xs.length := by
  rw [elements_every, List.map_map, List.range_eq_range']
  exact List.zipIdx_map_snd 0 xs

end Walk

/-- The calls of a walk over the non-zero slots, through windows of any depth, give each element
    whose slot is no zero, in ascending order of index, and then nothing for good. The walk over
    every slot has each index once. Over storage that walk, too, is taken call by call, and at any
    time the hint says how many elements are to come: exactly, or, over the non-zero slots,
    between bounds of which the lower is zero only at the end. -/
theorem walks_are_filters {v : Vect} (hv : v.WellFormed) :
    (v.cursor.Yields v.beginning v.nonZero ∧ v.nonZero.Pairwise (·.index < ·.index) ∧
      ∀ e, e ∈ v.nonZero ↔ v.slots[e.index]? = some e.value ∧ e.value ≠ zero ∧ e.value ≠ negZero) ∧
    (∃ es, v.elements = .ok es ∧ es.map Element.index = List.range v.size ∧ es.map Element.value = v.slots ∧
      ∀ d, v = .dense d → Walk.cursor.Yields (d.walk .every) es) ∧
    ∀ d, v = .dense d →
      (∀ n, (Walk.cursor.after n (d.walk .every)).hint = (v.size - n, v.size - n)) ∧
      (∀ n, let hint := (Walk.cursor.after n (d.walk .nonZero)).hint
        hint.1 ≤ v.nonZero.length - n ∧ v.nonZero.length - n ≤ hint.2 ∧
          (hint.1 = 0 → v.nonZero.length - n = 0)) ∧
      ∀ pace, (d.walk pace).hints = (List.range ((d.walk pace).toList.length + 1)).map fun n =>
        (Walk.cursor.after n (d.walk pace)).hint := by
  have hsettled (d : Dense) (pace : Pace) : (d.walk pace).Settled := Walk.settled_start pace d.toList
  refine ⟨⟨v.yields_nonZero, ?_, ?_⟩, ⟨_, Vect.elements_eq hv, ?_, ?_, ?_⟩, ?_⟩
  · rw [Vect.nonZero_eq hv]
    exact Walk.pairwise_elements .nonZero 0 v.slots
  · intro e
    rw [Vect.nonZero_eq hv, Walk.mem_elements_iff, ← beq_zero_eq_false_iff]
    rfl
  · rw [Walk.map_index_elements_every, Vect.length_slots hv]
  · exact Walk.map_value_elements_every 0 v.slots
  · intro d hd
    subst hd
    rw [Vect.slots, ← Walk.toList_start]
    exact Walk.yields_toList (hsettled d .every)
  · intro d hd
    subst hd
    refine ⟨?_, ?_, fun pace => Walk.hints_eq (hsettled d pace)⟩
    · intro n
      obtain ⟨-, hlist, hpace⟩ := Walk.after_cursor (hsettled d .every) n
      have hlength : (d.walk .every).toList.length = d.size := by
        rw [Dense.walk, Walk.toList_start, Walk.elements_every, List.length_map, List.length_zipIdx]
        exact Array.length_toList
      rw [Walk.hint_every (hpace.trans (Walk.pace_settle .every 0 d.toList)), hlist, List.length_drop, hlength]
      rfl
    · intro n
      obtain ⟨hafter, hlist, -⟩ := Walk.after_cursor (hsettled d .nonZero) n
      obtain ⟨hle, hge, hzero⟩ := Walk.hint_bounds hafter
      rw [hlist, List.length_drop] at hle hge
      refine ⟨hle, hge, ?_⟩
      intro h
      have hnil := congrArg List.length (hzero h)
      rw [hlist, List.length_drop] at hnil
      exact hnil

/-- A window inside a window, over both zeros, NaN and the least subnormal, with non-zero slots
    on either side that it does not show; and the storage under them. -/
theorem walks_of_windows_and_storage :
    let nan := zero / zero
    let tiny := Float.ofBits 1
    let d := Dense.ofList [5, 6, negZero, nan, zero, tiny, 7]
    let v : Vect := .view (.view (.dense d) ⟨1, 6, none, none⟩) ⟨1, 4, none, none⟩
    v.cursor.Yields v.beginning [⟨1, nan⟩, ⟨3, tiny⟩] ∧
      (Walk.cursor.after 4 (d.walk .nonZero)).hint.1 ≤ 1 ∧ 1 ≤ (Walk.cursor.after 4 (d.walk .nonZero)).hint.2 := by
  intro nan tiny d v
  obtain ⟨⟨hyields, -, -⟩, -⟩ := walks_are_filters (v := v) (by decide)
  obtain ⟨-, -, hdense⟩ := walks_are_filters (v := .dense d) (by decide)
  obtain ⟨-, hhints, -⟩ := hdense d rfl
  have hlist : v.nonZero = [⟨1, nan⟩, ⟨3, tiny⟩] := by decide
  have hlength : (Vect.dense d).nonZero.length = 5 := by decide
  obtain ⟨hle, hge, -⟩ := hhints 4
  rw [hlength] at hle hge
  exact ⟨hlist ▸ hyields, hle, hge⟩

end FeatureVector

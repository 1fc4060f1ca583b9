/-
  FeatureVector.Proofs.FilledCaches — which vectors have their squared length cached.

  - A fresh vector has it cached exactly if contiguous storage that has it cached is copied and
    no slot of the copy is written (`Derivation.exists_isFilled_iff`). What is read from a text has not.
  - A change of all slots ends it in its first round, if there is one (`Assignment.ensures_edit`);
    one that fails, or finds no slots, leaves the vector as it is. Contiguous storage combined
    with a second vector drops it in any case.
  - Nothing but asking contiguous storage itself for its squared length fills it (`Step.fills_iff`),
    also not asking a window on it: `Uncached` is kept by every other step and by every script on
    a window (`Step.run_uncached`, `Step.runAll_uncached`).
-/
import FeatureVector.Proofs.Derivations
import FeatureVector.Proofs.InBounds
import FeatureVector.Proofs.SlotwiseAssignment

namespace FeatureVector

open Binary64 Script

@[simp] theorem LengthCache.isFilled_empty : LengthCache.empty.isFilled = false := rfl

theorem LengthCache.isFilled_eq_false_iff {c : LengthCache} : c.isFilled = false ↔ c = .empty := by
  rcases c with ⟨_ | x⟩ <;> simp [isFilled, empty]

/-! ## Fresh vectors -/

theorem Vect.isFilled_ownCache (v : Vect) : v.ownCache.isFilled = true ↔ v.cacheFilled = some true := by
  cases v with
  | dense d => simp [ownCache, cacheFilled]
  | view p w => simp [ownCache, cacheFilled]

/-- A fresh vector has the cached length of a copy that nothing is written to. -/
theorem Script.Derivation.exists_isFilled_iff {v : Vect} (hv : v.WellFormed) {x : Derivation} (hx : x.IsDirect)
    (hc : x.check v = .ok ()) :
    ∃ d, x.apply v = .ok d ∧ (d.cache.isFilled = true ↔ v.cacheFilled = some true ∧ x.Spares v) := by
  obtain ⟨d, hd, hmakes⟩ := exists_apply hv hx hc
  refine ⟨d, hd, ?_⟩
  by_cases hspares : x.Spares v
  · rw [hmakes.spared hspares, v.isFilled_ownCache]
    simp [hspares]
  · rw [hmakes.written hspares]
    simp [hspares]

/-! ## Changes of all slots -/

namespace Vect

/-- Of the shape of `v`, and with no cached length in the storage under all windows. -/
def Uncached (v u : Vect) : Prop := u.shape = v.shape ∧ u.root.cache = .empty

theorem enduring_uncached (v : Vect) : Enduring (v.Uncached) where
  setSlot := by
    intro i x u hu
    rw [state_setSlot]
    exact ⟨(shape_store u i x).trans hu.1, cache_store u i x⟩
  dropCache := by
    intro u hu
    cases u with
    | dense d => exact ⟨hu.1, rfl⟩
    | view p w => exact hu

theorem ensures_setSlot (v : Vect) (i : Nat) (x : Float) : Edit.Ensures v.Uncached (setSlot i x) v := by
  intro a v' h
  rw [show v' = v.store i x from (congrArg Prod.snd h).symm.trans (state_setSlot v i x)]
  exact ⟨shape_store v i x, cache_store v i x⟩

/-- A loop over all slots, if there are any. -/
theorem ensures_setEach {v : Vect} (h : 0 < v.size) (value : Nat → Vect → Except Fault Float) :
    Edit.Ensures v.Uncached (setEach value) v := by
  refine Edit.ensures_reading_bind fun n hn => ?_
  cases hn
  refine Edit.ensures_forM (mt List.range_eq_nil.mp h.ne') (fun i _ => ?_) fun i _ => ?_
  · exact Edit.ensures_reading_bind fun x _ => ensures_setSlot v i x
  · exact Edit.keeps_bind (Edit.keeps_reading _) fun x => (enduring_uncached v).setSlot i x

theorem outcome_setEach_of_empty {v : Vect} (h : v.size = 0) (value : Nat → Vect → Except Fault Float) :
    (setEach value).outcome v = (.ok (), v) := by
  unfold setEach
  rw [Edit.outcome_bind, Edit.outcome_reading, h]
  rfl

end Vect

open Vect

namespace Assignment

/-- The operand is a vector of either storage with its windows in place. -/
def Sound : Assignment → Prop
  | copy o | zip o _ => o.WellFormed
  | value _ | list _ | map _ | mapScalar _ _ => True

/-- If it succeeds, no cached length is left under the vector. -/
def Clears (v : Vect) : Assignment → Prop
  | zip _ _ => 0 < v.size ∨ v.kind = .dense
  | value _ | list _ | copy _ | map _ | mapScalar _ _ => 0 < v.size

variable {a : Assignment} {v : Vect}

theorem ensures_edit (h : a.Clears v) : Edit.Ensures v.Uncached a.edit v := by
  cases a with
  | value _ | map _ | mapScalar _ _ => exact ensures_setEach h _
  | copy o => exact Edit.ensures_reading_bind fun _ _ => ensures_setEach h _
  | list xs =>
    refine Edit.ensures_reading_bind fun _ hsize => ?_
    have hlength : 0 < xs.zipIdx.length := by
      rw [List.length_zipIdx, ← checkSize_eq_ok.mp hsize]
      exact h
    refine Edit.ensures_forM (List.ne_nil_of_length_pos hlength) (fun p _ => ?_) fun p _ => ?_
    · exact ensures_setSlot v p.2 p.1
    · exact (enduring_uncached v).setSlot p.2 p.1
  | zip o f =>
    refine Edit.ensures_reading_bind fun _ _ => ?_
    cases v with
    | view p w =>
      rcases h with h | h
      · exact ensures_setEach h _
      · cases h
    | dense d =>
      -- the drop comes first, and neither way of combining fills the cache again
      have hP := enduring_uncached (dense d)
      have hdrop : Edit.Ensures (dense d).Uncached (modify dropCache) (dense d) := by
        intro _ _ h
        cases h
        exact ⟨rfl, rfl⟩
      show Edit.Ensures (dense d).Uncached (do
        modify dropCache
        if f.accumulating then combine o.nonZero fun a e => f.apply a e.value
        else setEach fun i v => do return f.apply (← v.slot i) (← o.slot i)) (dense d)
      refine Edit.ensures_bind hdrop fun _ => ?_
      by_cases hf : f.accumulating
      · simp only [hf, if_true]
        exact keeps_combine hP _ _
      · simp only [hf]
        exact keeps_setEach hP _

theorem state_of_not_clears (h : ¬ a.Clears v) : (a.edit.outcome v).2 = v := by
  have each (hsize : ¬ 0 < v.size) (value : Nat → Vect → Except Fault Float) : ((setEach value).outcome v).2 = v := by
    rw [outcome_setEach_of_empty (Nat.eq_zero_of_not_pos hsize)]
  have sized {n : Nat} {e : Edit Vect Unit} (he : n = v.size → (e.outcome v).2 = v) :
      ((do requireSize n; e).outcome v).2 = v := by
    rw [Edit.outcome_bind, requireSize, Edit.outcome_reading]
    cases hc : checkSize v.size n with
    | error f => rfl
    | ok _ => exact he (checkSize_eq_ok.mp hc).symm
  cases a with
  | value _ | map _ | mapScalar _ _ => exact each h _
  | copy o => exact sized fun _ => each h _
  | list xs =>
    refine sized fun hlength => ?_
    have hnil : xs = [] := List.eq_nil_of_length_eq_zero (by rw [hlength]; exact Nat.eq_zero_of_not_pos h)
    rw [hnil]
    rfl
  | zip o f =>
    obtain ⟨hsize, hview⟩ := not_or.mp h
    cases v with
    | dense d => exact absurd rfl hview
    | view p w => exact sized fun _ => each hsize _

theorem atomic_edit (hv : v.WellFormed) (ha : a.Sound) : Edit.Atomic a.edit v := by
  have hP := steady_sized v.size
  have hsized : Sized v.size v := ⟨hv, rfl⟩
  have total {e : Edit Vect Unit} (he : Edit.Succeeds (Sized v.size) e) : Edit.Atomic e v := by
    have hguarded : Edit.Guarded (Sized v.size) (fun _ => Except.ok ()) e := he.guarded fun _ _ => ⟨(), rfl⟩
    exact hguarded.atomic hsized
  cases a with
  | value x => exact total (succeeds_assignValue hP x)
  | map f => exact total (succeeds_assignMap hP f)
  | mapScalar f y => exact total (succeeds_assignMapScalar hP f y)
  | list xs => exact (guarded_assignList hP xs).atomic hsized
  | copy o => exact (guarded_assignFrom hP ha).atomic hsized
  | zip o f => exact (guarded_assignZip hP ha f).atomic hsized

/-- A filled cache is ended exactly by a change of all slots that succeeds and has something to write. -/
theorem isFilled_eq_false_iff (hv : v.WellFormed) (ha : a.Sound) (hfilled : v.root.cache.isFilled = true) :
    (a.edit.outcome v).2.root.cache.isFilled = false ↔ (a.edit.outcome v).1 = .ok () ∧ a.Clears v := by
  constructor
  · intro hended
    have hchanged : (a.edit.outcome v).2 ≠ v := by
      intro hstate
      rw [hstate, hfilled] at hended
      cases hended
    refine ⟨?_, not_not.mp fun hclears => hchanged (state_of_not_clears hclears)⟩
    cases houtcome : (a.edit.outcome v).1 with
    | error f => exact absurd (atomic_edit hv ha f houtcome) hchanged
    | ok u => rfl
  · rintro ⟨hok, hclears⟩
    exact LengthCache.isFilled_eq_false_iff.mpr (ensures_edit hclears () _ (Prod.ext hok rfl)).2

end Assignment

/-! ## Steps and runs -/

theorem Script.Write.keeps_uncached (w : Write) (v : Vect) : Edit.Keeps v.Uncached w.edit := by
  refine w.keeps_of_lasting (enduring_uncached v) (fun name u hu => ?_) fun b u hu => ?_
  · cases u <;> exact hu
  · cases u <;> exact hu

theorem Vect.root_release (v : Vect) : v.release.root = v.root := by
  cases v <;> rfl

mutual

/-- Only contiguous storage that is asked itself fills its cache. -/
theorem Step.run_uncached (s : Step) {v u : Vect} (h : v.Uncached u) (hs : v.kind = .view ∨ s ≠ .lengthSquared) :
    v.Uncached (s.run u).2 := by
  cases s with
  | ask q => exact h
  | lengthSquared =>
    rcases hs with hview | hne
    · cases u with
      | view p w =>
        show v.Uncached ((Edit.reading Vect.dotSelf).outcome (.view p w)).2
        rw [Edit.outcome_reading]
        exact h
      | dense d =>
        have hshape := h.1
        cases v with
        | dense _ => cases hview
        | view p w => simp [Vect.shape] at hshape
    · exact absurd rfl hne
  | write w => exact w.keeps_uncached v u h
  | addTo target => exact h
  | within w steps =>
    unfold Step.run
    split
    · exact h
    · rename_i inner hinner
      obtain ⟨-, rfl⟩ := Vect.window_eq_ok hinner
      -- the window is no storage, so nothing a script does on it counts
      have hself : (Vect.view u w).Uncached (.view u w) := ⟨rfl, h.2⟩
      obtain ⟨hshape, hcache⟩ := Step.runAll_uncached steps hself (.inl rfl)
      exact ⟨(Vect.release_shape hshape).trans h.1, by rw [Vect.root_release]; exact hcache⟩
  | derive d next =>
    unfold Step.run
    split <;> exact h
  | outer other next =>
    unfold Step.run
    split <;> exact h
  | zeroMatrix rows cols next => exact h

theorem Step.runAll_uncached (steps : List Step) {v u : Vect} (h : v.Uncached u)
    (hs : v.kind = .view ∨ Step.lengthSquared ∉ steps) : v.Uncached (Step.runAll steps u).2 := by
  cases steps with
  | nil => exact h
  | cons s rest =>
    have hstep : v.kind = .view ∨ s ≠ .lengthSquared :=
      hs.imp_right fun hnot heq => hnot (heq ▸ List.mem_cons_self)
    have hrest : v.kind = .view ∨ Step.lengthSquared ∉ rest :=
      hs.imp_right fun hnot hmem => hnot (List.mem_cons_of_mem _ hmem)
    exact Step.runAll_uncached rest (Step.run_uncached s h hstep) hrest

end

theorem Vect.kind_ne_view {v : Vect} : ¬ v.kind = .view ↔ v.kind = .dense := by
  cases v <;> simp [Vect.kind]

/-- A run that fills the cache asks contiguous storage itself. -/
theorem Step.asked_of_filled (steps : List Step) {v : Vect} (h : v.root.cache.isFilled = false)
    (hfilled : (Step.runAll steps v).2.root.cache.isFilled = true) : v.kind = .dense ∧ Step.lengthSquared ∈ steps := by
  have hself : v.Uncached v := ⟨rfl, LengthCache.isFilled_eq_false_iff.mp h⟩
  have hboth : ¬ (v.kind = .view ∨ Step.lengthSquared ∉ steps) := by
    intro hs
    rw [(Step.runAll_uncached steps hself hs).2] at hfilled
    cases hfilled
  obtain ⟨hdense, hasked⟩ := not_or.mp hboth
  exact ⟨Vect.kind_ne_view.mp hdense, not_not.mp hasked⟩

theorem Step.fills_iff (s : Step) {v : Vect} (h : v.root.cache.isFilled = false) :
    (s.run v).2.root.cache.isFilled = true ↔ v.kind = .dense ∧ s = .lengthSquared := by
  constructor
  · intro hfilled
    obtain ⟨hdense, hasked⟩ := Step.asked_of_filled [s] h hfilled
    exact ⟨hdense, (List.mem_singleton.mp hasked).symm⟩
  · rintro ⟨hdense, rfl⟩
    cases v with
    | view p w => cases hdense
    | dense d =>
      have hcache : d.cache = .empty := LengthCache.isFilled_eq_false_iff.mp h
      show (d.cache.fetch fun _ => d.fullLengthSquared).2.isFilled = true
      rw [hcache]
      rfl

/-- What becomes of a cached squared length. A fresh vector has one exactly if it is a copy of
    contiguous storage that has one and no slot of it is written; what is read from a text has
    none. A change of all slots ends it exactly if it succeeds and finds slots, or combines
    contiguous storage with a second vector; else it stays. Nothing brings one about but asking
    contiguous storage itself for its squared length. -/
theorem cached_length_lifetime {v : Vect} (hv : v.WellFormed) :
    (∀ x : Derivation, x.IsDirect → (∀ f, x.check v = .error f → x.apply v = .error f) ∧
      (x.check v = .ok () →
        ∃ d, x.apply v = .ok d ∧ (d.cache.isFilled = true ↔ v.cacheFilled = some true ∧ x.Spares v))) ∧
    (∀ (s : String) (d : Dense), Dense.decode s = .ok d → d.cache.isFilled = false) ∧
    (v.root.cache.isFilled = true → ∀ a : Assignment, a.Sound →
      ((a.edit.outcome v).2.root.cache.isFilled = false ↔ (a.edit.outcome v).1 = .ok () ∧ a.Clears v)) ∧
    (v.root.cache.isFilled = false →
      (∀ s : Step, (s.run v).2.root.cache.isFilled = true ↔ v.kind = .dense ∧ s = .lengthSquared) ∧
      ∀ steps : List Step, (Step.runAll steps v).2.root.cache.isFilled = true →
        v.kind = .dense ∧ Step.lengthSquared ∈ steps) := by
  refine ⟨fun x hx => ⟨fun f => ?_, ?_⟩, fun s d hd => ?_, fun hfilled a ha => ?_, fun hempty => ?_⟩
  · exact Derivation.apply_of_check_error hv
  · exact Derivation.exists_isFilled_iff hv hx
  · exact LengthCache.isFilled_eq_false_iff.mpr (Dense.cache_decode hd)
  · exact Assignment.isFilled_eq_false_iff hv ha hfilled
  · exact ⟨fun s => s.fills_iff hempty, fun steps => Step.asked_of_filled steps hempty⟩

/-- Storage of zeros that has been asked, more zeros added to it, a window in a window and one
    without slots on it, and storage without slots. -/
theorem cached_length_of_asked_zeros :
    let d : Dense := { Dense.ofList [negZero, zero] with cache := ⟨some zero⟩ }
    let e : Dense := { Dense.ofList [] with cache := ⟨some negZero⟩ }
    let v : Vect := .view (.view (.dense d) ⟨0, 2, some "outer", none⟩) ⟨1, 1, none, none⟩
    let gap : Vect := .view (.dense d) ⟨2, 0, none, none⟩
    let u : Vect := ((Assignment.value 7).edit.outcome v).2
    (∃ r, (Derivation.add ⟨.ofList [zero, negZero], []⟩).apply (.dense d) = .ok r ∧ r.cache.isFilled = true) ∧
      u.root.cache.isFilled = false ∧
      ((Assignment.value 7).edit.outcome gap).2.root.cache.isFilled = true ∧
      ((Assignment.zip gap .add).edit.outcome (.dense e)).2.root.cache.isFilled = false ∧
      (Step.lengthSquared.run u).2.root.cache.isFilled = false ∧
      (Step.lengthSquared.run (.dense u.root)).2.root.cache.isFilled = true := by
  intro d e v gap u
  obtain ⟨hfresh, -⟩ := @cached_length_lifetime (.dense d) trivial
  obtain ⟨-, -, hassigned, -⟩ := @cached_length_lifetime v (by decide)
  obtain ⟨-, -, hgap, -⟩ := @cached_length_lifetime gap (by decide)
  obtain ⟨-, -, hcombined, -⟩ := @cached_length_lifetime (.dense e) trivial
  obtain ⟨-, hsum⟩ := hfresh (.add ⟨.ofList [zero, negZero], []⟩) trivial
  obtain ⟨r, hr, hfilled⟩ := hsum (by decide)
  have hu : u.root.cache.isFilled = false :=
    (hassigned rfl (.value 7) trivial).mpr ⟨by decide, Nat.zero_lt_one⟩
  obtain ⟨-, -, -, hwindow⟩ := @cached_length_lifetime u (by decide)
  obtain ⟨-, -, -, hstorage⟩ := @cached_length_lifetime (.dense u.root) trivial
  obtain ⟨hasked, -⟩ := hwindow hu
  obtain ⟨hanswered, -⟩ := hstorage hu
  have hspares : (Derivation.add ⟨.ofList [zero, negZero], []⟩).Spares (.dense d) :=
    ⟨_, rfl, by decide⟩
  refine ⟨⟨r, hr, hfilled.mpr ⟨rfl, hspares⟩⟩, hu, ?_, ?_, ?_, ?_⟩
  · refine Bool.of_not_eq_false fun hended => ?_
    obtain ⟨-, hclears⟩ := (hgap rfl (.value 7) trivial).mp hended
    exact absurd hclears (Nat.lt_irrefl 0)
  · exact (hcombined rfl (.zip gap .add) (show gap.WellFormed by decide)).mpr ⟨by decide, .inr rfl⟩
  · refine Bool.eq_false_iff.mpr fun hfilled => ?_
    obtain ⟨hkind, -⟩ := (hasked .lengthSquared).mp hfilled
    exact absurd hkind (by decide)
  · exact (hanswered .lengthSquared).mpr ⟨rfl, rfl⟩

end FeatureVector

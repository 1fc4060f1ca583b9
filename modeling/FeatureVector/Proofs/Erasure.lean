/-
  FeatureVector.Proofs.Erasure — a vector without its labels, and what it computes.

  `bare` leaves of a vector its slots and windows: names, bindings and the cached length of
  the whole chain are gone. What is read of the slots is read of the bare vector just as well
  (`slot_bare`, `nonZero_bare`, `distanceSquared_bare`, …), and what is computed from it is
  what is computed from the vector, bare (`clone_bare`, `addScalar_bare`,
  `normalize_bare`). Only the text form asks for more: it carries the bindings.

  So two vectors with one bare vector are `Twins`: no change by index tells them apart, and it
  leaves them twins (`agree_setSlot`, `agree_setEach`, `agree_combine`, `agree_assignZip`). A
  new name or new bindings on either side alone leave them twins too. Their squared lengths
  are the same as long as what is cached of them is coherent (`agree_lengthSquared`).
-/
import FeatureVector.Proofs.CacheCoherence
import FeatureVector.Proofs.CheckedEdits
import FeatureVector.Proofs.Copies

namespace FeatureVector

open Script

/-! ## Storage -/

namespace Dense

/-- The slots alone. -/
def bare (d : Dense) : Dense := ofArray d.slots

theorem put_bare (d : Dense) (i : Nat) (x : Float) : d.bare.put i x = (d.put i x).map bare := by
  unfold put
  by_cases h : i < d.slots.size
  · rw [dif_pos h, dif_pos (show i < d.bare.slots.size from h)]
    rfl
  · rw [dif_neg h, dif_neg (show ¬ i < d.bare.slots.size from h)]
    rfl

theorem foldlM_bare {α : Type} {step : Dense → α → Except Fault Dense}
    (hstep : ∀ d a, step d.bare a = (step d a).map bare) (l : List α) (d : Dense) :
    l.foldlM step d.bare = (l.foldlM step d).map bare := by
  induction l generalizing d with
  | nil => rfl
  | cons a l ih =>
    rw [List.foldlM_cons, List.foldlM_cons, hstep]
    cases step d a with
    | error f => rfl
    | ok d' => exact ih d'

theorem fill_bare (d : Dense) (es : List Element) (value : Element → Except Fault Float) :
    d.bare.fill es value = (d.fill es value).map bare := by
  refine foldlM_bare (fun d e => ?_) es d
  cases value e with
  | error f => rfl
  | ok x => exact d.put_bare e.index x

end Dense

namespace Vect

/-- The slots and the windows alone. -/
def bare : Vect → Vect
  | dense d => dense d.bare
  | view p w => view p.bare ⟨w.offset, w.length, none, none⟩

/-! ## Reads -/

@[simp] theorem size_bare (v : Vect) : v.bare.size = v.size := by
  cases v <;> rfl

@[simp] theorem kind_bare (v : Vect) : v.bare.kind = v.kind := by
  cases v <;> rfl

theorem wellFormed_bare (v : Vect) : v.bare.WellFormed ↔ v.WellFormed := by
  induction v with
  | dense d => exact Iff.rfl
  | view p w ih => simp only [bare, WellFormed, size_bare, ih]

@[simp] theorem slots_bare (v : Vect) : v.bare.slots = v.slots := by
  induction v with
  | dense d => rfl
  | view p w ih => simp only [bare, slots, ih]

@[simp] theorem slot_bare (v : Vect) : v.bare.slot = v.slot := by
  funext i
  induction v generalizing i with
  | dense d => rfl
  | view p w ih => exact ih _

@[simp] theorem nonZero_bare (v : Vect) : v.bare.nonZero = v.nonZero := by
  induction v with
  | dense d => rfl
  | view p w ih => simp only [bare, nonZero, ih]

theorem get_bare (v : Vect) : v.bare.get = v.get := by
  funext i
  simp only [get, size_bare, slot_bare]

theorem readAll_bare (v : Vect) : v.bare.readAll = v.readAll := by
  simp only [readAll, size_bare, slot_bare]

theorem elements_bare (v : Vect) : v.bare.elements = v.elements := by
  cases v with
  | dense d => rfl
  | view p w => exact readAll_bare (view p w)

theorem total_bare (v : Vect) : v.bare.total = v.total := by
  simp only [total, nonZero_bare]

theorem maximum_bare (v : Vect) : v.bare.maximum = v.maximum := by
  simp only [maximum, readAll_bare]

theorem argMax_bare (v : Vect) : v.bare.argMax = v.argMax := by
  simp only [argMax, readAll_bare]

theorem sumNonZero_bare (v : Vect) : v.bare.sumNonZero = v.sumNonZero := by
  funext term
  simp only [sumNonZero, nonZero_bare]

theorem dot_bare (v o : Vect) : v.bare.dot o = v.dot o := by
  simp only [dot, size_bare, sumNonZero_bare]

theorem dotSelf_bare (v : Vect) : v.bare.dotSelf = v.dotSelf := by
  simp only [dotSelf, slot_bare, sumNonZero_bare]

theorem distanceSquared_bare (v o : Vect) : v.bare.distanceSquared o = v.distanceSquared o := by
  cases v with
  | dense d => rfl
  | view p w =>
    show (checkSize (view p w).size o.size >>= fun _ => (view p w).bare.sumNonZero fun e =>
      do return Binary64.square (e.value - (← o.slot e.index))) = _
    rw [sumNonZero_bare]
    rfl

theorem norm_bare (v : Vect) (power : Float) : v.bare.norm power = v.norm power := by
  simp only [norm, maximum_bare, dotSelf_bare, total_bare, nonZero_bare]

theorem equivalent_bare (v o : Vect) : v.bare.equivalent o = v.equivalent o := by
  simp only [equivalent, size_bare, slot_bare]

theorem outer_bare (v o : Vect) : v.bare.outer o = v.outer o := by
  simp only [outer, size_bare, slot_bare]

theorem addTo_bare (v : Vect) : v.bare.addTo = v.addTo := by
  cases v with
  | dense d => rfl
  | view p w =>
    show (Edit.reading (fun target => checkSize (view p w).size target.size) >>= fun _ =>
      combine (view p w).bare.nonZero fun a e => a + e.value) = _
    rw [nonZero_bare]
    rfl

/-! ## Fresh storage -/

theorem blankOfSize_bare (v : Vect) (n : Nat) : v.bare.blankOfSize n = (v.blankOfSize n).bare := by
  have hbindings : v.bare.bindings = none := by cases v <;> rfl
  rw [blankOfSize_eq, blankOfSize_eq, hbindings]
  rfl

theorem clone_bare (v : Vect) : v.bare.clone = v.clone.map Dense.bare := by
  cases v with
  | dense d => rfl
  | view p w =>
    have hfill := (p.blankOfSize w.length).fill_bare (view p w).nonZero (fun e => return e.value)
    show ((p.bare.blankOfSize w.length).fill (view p w).bare.nonZero (fun e => return e.value) >>= _) = _
    rw [nonZero_bare, blankOfSize_bare, hfill]
    show _ = Except.map Dense.bare ((p.blankOfSize w.length).fill (view p w).nonZero (fun e => return e.value) >>= _)
    cases (p.blankOfSize w.length).fill (view p w).nonZero (fun e => return e.value) <;> rfl

theorem toDense_bare (v : Vect) : v.bare.toDense = v.toDense.map Dense.bare := by
  have hname : v.bare.name = none := by cases v <;> rfl
  have hfill : (Dense.zeros v.size).fill v.nonZero (fun e => return e.value) =
      ((Dense.zeros v.size).fill v.nonZero fun e => return e.value).map Dense.bare :=
    (Dense.zeros v.size).fill_bare v.nonZero _
  unfold toDense
  rw [nonZero_bare, size_bare, hname]
  conv => lhs; rw [hfill]
  cases (Dense.zeros v.size).fill v.nonZero (fun e => return e.value) <;> rfl

/-- A clone that is written to. -/
theorem fill_clone_bare (v : Vect) (es : List Element) (value : Element → Except Fault Float) :
    (do (← v.bare.clone).fill es value) = (do (← v.clone).fill es value).map Dense.bare := by
  rw [clone_bare]
  cases v.clone with
  | error f => rfl
  | ok c => exact c.fill_bare es value

theorem addScalar_bare (v : Vect) (x : Float) : v.bare.addScalar x = (v.addScalar x).map Dense.bare := by
  unfold addScalar
  rw [clone_bare, size_bare, slot_bare]
  cases v.clone with
  | error f => rfl
  | ok c =>
    refine Dense.foldlM_bare (fun d i => ?_) _ c
    cases v.slot i with
    | error f => rfl
    | ok y => exact d.put_bare i (y + x)

theorem scale_bare (v : Vect) (x : Float) : v.bare.scale x = (v.scale x).map Dense.bare := by
  unfold scale
  rw [nonZero_bare]
  exact fill_clone_bare v _ _

theorem divScalar_bare (v : Vect) (x : Float) : v.bare.divScalar x = (v.divScalar x).map Dense.bare := by
  unfold divScalar
  rw [nonZero_bare]
  exact fill_clone_bare v _ _

theorem normalize_bare (v : Vect) : v.bare.normalize = v.normalize.map Dense.bare := by
  unfold normalize
  rw [dotSelf_bare]
  cases v.dotSelf with
  | error f => rfl
  | ok s => exact divScalar_bare v _

theorem normalizeBy_bare (v : Vect) (power : Float) :
    v.bare.normalizeBy power = (v.normalizeBy power).map Dense.bare := by
  unfold normalizeBy
  rw [norm_bare]
  cases v.norm power with
  | error f => rfl
  | ok s => exact divScalar_bare v _

/-- A clone that is written to behind a check of the sizes. -/
theorem checked_fill_clone_bare (v o : Vect) (es : List Element) (value : Element → Except Fault Float) :
    (do checkSize v.size o.size; (← v.bare.clone).fill es value) =
      (do checkSize v.size o.size; (← v.clone).fill es value).map Dense.bare := by
  cases checkSize v.size o.size with
  | error f => rfl
  | ok _ => exact fill_clone_bare v es value

theorem add_bare (v o : Vect) : v.bare.add o = (v.add o).map Dense.bare := by
  unfold add
  rw [size_bare, slot_bare]
  exact checked_fill_clone_bare v o _ _

theorem sub_bare (v o : Vect) : v.bare.sub o = (v.sub o).map Dense.bare := by
  unfold sub
  rw [size_bare, slot_bare]
  exact checked_fill_clone_bare v o _ _

theorem mul_bare (v o : Vect) : v.bare.mul o = (v.mul o).map Dense.bare := by
  unfold mul
  rw [size_bare, nonZero_bare]
  exact checked_fill_clone_bare v o _ _

end Vect

/-! ## Twins -/

/-- Two vectors with the same slots behind the same windows, whatever their labels and cached
    lengths. -/
structure Twins (v w : Vect) : Prop where
  wellFormed : v.WellFormed
  bare : v.bare = w.bare
  coherent : v.Coherent
  coherent' : w.Coherent

namespace Vect

/-- Names, bindings and the drop of a cached length make twins. -/
theorem bare_withName (v : Vect) (name : Option String) : (v.withName name).bare = v.bare := by
  cases v <;> rfl

theorem bare_withBindings (v : Vect) (b : Option Bindings) : (v.withBindings b).bare = v.bare := by
  cases v <;> rfl

theorem bare_dropCache (v : Vect) : v.dropCache.bare = v.bare := by
  cases v <;> rfl

theorem bare_release (v : Vect) : v.release.bare = v.bare.release := by
  cases v <;> rfl

theorem bare_lengthSquared (v : Vect) : (lengthSquared.outcome v).2.bare = v.bare := by
  cases v with
  | dense d => rfl
  | view p w =>
    show ((Edit.reading dotSelf).outcome (view p w)).2.bare = _
    rw [Edit.outcome_reading]

theorem outcome_setSlot_bare (v : Vect) (i : Nat) (x : Float) :
    (setSlot i x).outcome v.bare = (((setSlot i x).outcome v).1, ((setSlot i x).outcome v).2.bare) := by
  induction v generalizing i with
  | dense d =>
    rw [bare, outcome_setSlot_dense, outcome_setSlot_dense]
    rfl
  | view p w ih =>
    rw [bare, outcome_setSlot_view, outcome_setSlot_view, ih]
    rfl

end Vect

namespace Twins

open Vect

variable {v w : Vect}

theorem wellFormed' (h : Twins v w) : w.WellFormed := by
  rw [← wellFormed_bare, ← h.bare, wellFormed_bare]
  exact h.wellFormed

/-- What is read of the bare vector is read of both. -/
theorem read {α : Type} (h : Twins v w) {f : Vect → α} (hf : ∀ u : Vect, f u.bare = f u) : f v = f w := by
  rw [← hf v, ← hf w, h.bare]

/-- Changes of both that leave each as it was but for labels and cache. -/
theorem change (h : Twins v w) {f g : Vect → Vect} (hf : (f v).bare = v.bare) (hg : (g w).bare = w.bare)
    (hc : (f v).Coherent) (hc' : (g w).Coherent) : Twins (f v) (g w) where
  wellFormed := by
    rw [← wellFormed_bare, hf]
    exact (wellFormed_bare v).mpr h.wellFormed
  bare := by rw [hf, hg, h.bare]
  coherent := hc
  coherent' := hc'

end Twins

/-! ## Changes -/

namespace Twins

open Vect

theorem agree_setSlot (i : Nat) (x : Float) : Edit.Agree Twins (setSlot i x) (setSlot i x) := by
  intro v w h
  have hbare := v.outcome_setSlot_bare i x
  rw [h.bare, w.outcome_setSlot_bare i x] at hbare
  obtain ⟨hanswer, hstate⟩ := Prod.ext_iff.mp hbare
  refine ⟨hanswer.symm, ?_, hstate.symm, keeps_setSlot i x v h.coherent, keeps_setSlot i x w h.coherent'⟩
  rw [state_setSlot]
  exact wellFormed_store h.wellFormed i x

/-- A look at what the bare vector shows. -/
theorem agree_read {α : Type} {f : Vect → Except Fault α} (hf : ∀ u : Vect, f u.bare = f u) :
    Edit.Agree Twins (Edit.reading f) (Edit.reading f) := Edit.agree_reading fun _ _ h => h.read hf

theorem agree_set (i : Nat) (x : Float) : Edit.Agree Twins (set i x) (set i x) :=
  Edit.agree_bind (agree_read fun u => by rw [size_bare]) fun _ => agree_setSlot i x

theorem agree_setElement (i : Nat) (x : Float) : Edit.Agree Twins (setElement i x) (setElement i x) :=
  Edit.agree_bind (agree_read fun u => by rw [size_bare]) fun _ =>
    Edit.agree_bind (agree_setSlot i x) fun _ => agree_read fun u => by rw [slot_bare]

/-- Labels may be changed on each side in its own way. -/
theorem agree_withName (name name' : Option String) :
    Edit.Agree Twins (modify (withName name)) (modify (withName name')) :=
  Edit.agree_modify fun v w h => h.change (bare_withName v name) (bare_withName w name')
    (coherent_withName h.coherent name) (coherent_withName h.coherent' name')

theorem agree_withBindings (b b' : Vect → Option Bindings) :
    Edit.Agree Twins (modify fun v => v.withBindings (b v)) (modify fun v => v.withBindings (b' v)) :=
  Edit.agree_modify fun v w h =>
    h.change (f := fun v => v.withBindings (b v)) (g := fun v => v.withBindings (b' v)) (bare_withBindings v _)
      (bare_withBindings w _) (coherent_withBindings h.coherent _) (coherent_withBindings h.coherent' _)

theorem agree_bindLabel (label : String) (i : Nat) (x : Float) :
    Edit.Agree Twins (bindLabel label i x) (bindLabel label i x) :=
  Edit.agree_bind (agree_set i x) fun _ => agree_withBindings _ _

theorem agree_dropCache : Edit.Agree Twins (modify dropCache) (modify dropCache) :=
  Edit.agree_modify fun v w h => h.change (bare_dropCache v) (bare_dropCache w) (coherent_dropCache h.coherent)
    (coherent_dropCache h.coherent')

theorem agree_setEach {value : Nat → Vect → Except Fault Float} (hv : ∀ i (u : Vect), value i u.bare = value i u) :
    Edit.Agree Twins (setEach value) (setEach value) :=
  Edit.agree_bind (agree_read fun u => by rw [size_bare]) fun _ =>
    Edit.agree_forM fun i _ => Edit.agree_bind (agree_read (hv i)) fun x => agree_setSlot i x

theorem agree_combine (es : List Element) (f : Float → Element → Float) :
    Edit.Agree Twins (combine es f) (combine es f) :=
  Edit.agree_forM fun e _ => Edit.agree_bind (agree_read fun u => by rw [slot_bare]) fun _ => agree_setSlot e.index _

theorem agree_requireSize (n : Nat) : Edit.Agree Twins (requireSize n) (requireSize n) :=
  agree_read fun u => by rw [size_bare]

theorem agree_assignList (xs : List Float) : Edit.Agree Twins (assignList xs) (assignList xs) :=
  Edit.agree_bind (agree_requireSize _) fun _ => Edit.agree_forM fun p _ => agree_setSlot p.2 p.1

theorem agree_assignFrom (o : Vect) : Edit.Agree Twins (assignFrom o) (assignFrom o) :=
  Edit.agree_bind (agree_requireSize _) fun _ => agree_setEach fun _ _ => rfl

/-- Twins have one storage, so both pass over the same slots. -/
theorem agree_assignZip (o : Vect) (f : BinaryFunction) : Edit.Agree Twins (assignZip o f) (assignZip o f) := by
  have hevery : Edit.Agree Twins (setEach fun i v => do return f.apply (← v.slot i) (← o.slot i))
      (setEach fun i v => do return f.apply (← v.slot i) (← o.slot i)) :=
    agree_setEach fun i u => by rw [slot_bare]
  have hskip := Edit.agree_bind agree_dropCache fun _ => agree_combine o.nonZero fun a e => f.apply a e.value
  have hdrop := Edit.agree_bind agree_dropCache fun _ => hevery
  refine Edit.agree_bind (agree_requireSize _) fun _ v w h => ?_
  have hkind : v.kind = w.kind := h.read kind_bare
  cases v with
  | view p u =>
    cases w with
    | dense d => cases hkind
    | view q t => exact hevery _ _ h
  | dense d =>
    cases w with
    | view q t => cases hkind
    | dense e =>
      by_cases hf : f.accumulating
      · simp only [hf, if_true]
        exact hskip _ _ h
      · simp only [hf]
        exact hdrop _ _ h

theorem agree_lengthSquared : Edit.Agree Twins lengthSquared lengthSquared := by
  intro v w h
  have hstate := h.change (f := fun v => (lengthSquared.outcome v).2) (g := fun v => (lengthSquared.outcome v).2)
    (bare_lengthSquared v) (bare_lengthSquared w) (keeps_lengthSquared v h.coherent)
    (keeps_lengthSquared w h.coherent')
  refine ⟨?_, hstate⟩
  have hkind : v.kind = w.kind := h.read kind_bare
  cases v with
  | view p u =>
    cases w with
    | dense d => cases hkind
    | view q t =>
      show ((Edit.reading dotSelf).outcome _).1 = ((Edit.reading dotSelf).outcome _).1
      rw [Edit.outcome_reading, Edit.outcome_reading]
      exact h.read dotSelf_bare
  | dense d =>
    cases w with
    | view q t => cases hkind
    | dense e =>
      rw [lengthSquared_dense (d := d) h.coherent, lengthSquared_dense (d := e) h.coherent']
      have hslots : d.toList = e.toList := h.read slots_bare
      rw [Dense.fullLengthSquared, Dense.fullLengthSquared, hslots]

end Twins

end FeatureVector

/-
  FeatureVector.Proofs.CacheCoherence — a cached squared length is never stale.

  `Dense.Coherent`: the cache is empty or holds the sum of the squares of the slots as they
  stand. `Reached` is every vector a caller can come by: fresh storage, and whatever steps,
  windows, additions, copies and derivations make of vectors come by before, failed ones
  included.

  - A slot is only ever written together with the drop of the cache (`cache_store`,
    `Dense.coherent_put`), also through windows and also when there is no such slot. What such
    a write does not end (`Enduring`), no change of slots ends (`Write.keeps_of_enduring`).
  - The one step that fills the cache fills it with the sum (`keeps_lengthSquared`).
  - `Step.run_coherent`, `Step.runAll_coherent`: what one step and what a script keep.
  - `length_squared_never_stale`: so every vector reached is coherent, and the squared
    length of one in contiguous storage is the sum over its slots, whatever came before.
-/
import FeatureVector.Proofs.Slots
import FeatureVector.Script.Run

namespace FeatureVector

open Script

/-- The cache is empty, or it holds the sum of the squares of the slots. -/
def Dense.Coherent (d : Dense) : Prop := ∀ x, d.cache.value = some x → x = d.fullLengthSquared

/-- The storage under all windows is coherent. -/
def Vect.Coherent (v : Vect) : Prop := v.root.Coherent

/-! ## Storage -/

namespace Dense

theorem coherent_of_empty {d : Dense} (h : d.cache = .empty) : d.Coherent := by
  intro x hx
  rw [h] at hx
  cases hx

theorem coherent_zeros (n : Nat) : (zeros n).Coherent := coherent_of_empty rfl

theorem Coherent.withName {d : Dense} (h : d.Coherent) (name : Option String) : Coherent { d with name } := h

theorem Coherent.withBindings {d : Dense} (h : d.Coherent) (bindings : Option Bindings) :
    Coherent { d with bindings } := h

theorem coherent_put {d d' : Dense} {i : Nat} {x : Float} (h : d.put i x = .ok d') : d'.Coherent := by
  unfold put at h
  split at h
  · cases h
    exact coherent_of_empty rfl
  · cases h

/-- Storage written in part: coherent whether something was written or nothing. -/
theorem coherent_foldlM {α : Type} {step : Dense → α → Except Fault Dense}
    (hstep : ∀ d a d', step d a = .ok d' → d'.Coherent) {l : List α} {d d' : Dense} (hd : d.Coherent)
    (h : l.foldlM step d = .ok d') : d'.Coherent := by
  induction l generalizing d with
  | nil =>
    cases h
    exact hd
  | cons a l ih =>
    rw [List.foldlM_cons] at h
    obtain ⟨d₁, hs, h⟩ := Edit.bind_eq_ok h
    exact ih (hstep d a d₁ hs) h

theorem coherent_fill {d d' : Dense} {es : List Element} {value : Element → Except Fault Float}
    (hd : d.Coherent) (h : d.fill es value = .ok d') : d'.Coherent := by
  refine coherent_foldlM (fun d e d' hs => ?_) hd h
  obtain ⟨x, _, hp⟩ := Edit.bind_eq_ok hs
  exact coherent_put hp

/-- What is read from a text starts without a cached length. -/
theorem cache_decode {s : String} {d : Dense} (h : Dense.decode s = .ok d) : d.cache = .empty := by
  obtain ⟨r, _, h⟩ := Edit.bind_eq_ok h
  unfold Record.toDense at h
  split at h
  · cases h
  · obtain ⟨_, _, h⟩ := Edit.bind_eq_ok h
    cases h
    rfl

end Dense

namespace Vect

theorem coherent_release {v : Vect} (h : v.Coherent) : v.release.Coherent := by
  cases v with
  | dense d => exact h
  | view p w => exact h

theorem coherent_window {v v' : Vect} {w : Window} (h : v.Coherent) (hw : v.window w = .ok v') : v'.Coherent := by
  unfold window at hw
  split at hw
  · cases hw
  · split at hw
    · cases hw
    · cases hw
      exact h

/-! ## Changes of all slots -/

/-- A property that writes to slots do not end, nor the drop of the cached length. -/
structure Enduring (P : Vect → Prop) : Prop where
  setSlot : ∀ i x, Edit.Keeps P (setSlot i x)
  dropCache : ∀ v, P v → P v.dropCache

section Enduring

variable {P : Vect → Prop} (hP : Enduring P)

include hP

theorem keeps_set (i : Nat) (x : Float) : Edit.Keeps P (set i x) :=
  Edit.keeps_bind (Edit.keeps_reading _) fun _ => hP.setSlot i x

theorem keeps_setElement (i : Nat) (x : Float) : Edit.Keeps P (setElement i x) :=
  Edit.keeps_bind (Edit.keeps_reading _) fun _ =>
    Edit.keeps_bind (hP.setSlot i x) fun _ => Edit.keeps_reading _

theorem keeps_setLabel (label : String) (x : Float) : Edit.Keeps P (setLabel label x) :=
  Edit.keeps_bind (Edit.keeps_reading _) fun i => keeps_set hP i x

theorem keeps_setEach (value : Nat → Vect → Except Fault Float) : Edit.Keeps P (setEach value) :=
  Edit.keeps_bind (Edit.keeps_reading _) fun _ => Edit.keeps_forM fun i _ =>
    Edit.keeps_bind (Edit.keeps_reading _) fun x => hP.setSlot i x

theorem keeps_combine (es : List Element) (f : Float → Element → Float) : Edit.Keeps P (combine es f) :=
  Edit.keeps_forM fun e _ => Edit.keeps_bind (Edit.keeps_reading _) fun x => hP.setSlot e.index (f x e)

theorem keeps_assignList (xs : List Float) : Edit.Keeps P (assignList xs) :=
  Edit.keeps_bind (Edit.keeps_reading _) fun _ => Edit.keeps_forM fun p _ => hP.setSlot p.2 p.1

theorem keeps_assignFrom (other : Vect) : Edit.Keeps P (assignFrom other) :=
  Edit.keeps_bind (Edit.keeps_reading _) fun _ => keeps_setEach hP _

theorem keeps_assignZip (other : Vect) (f : BinaryFunction) : Edit.Keeps P (assignZip other f) := by
  refine Edit.keeps_bind (Edit.keeps_reading _) fun _ => Edit.keeps_bind (fun _ h => h) fun v => ?_
  cases v with
  | view p w => exact keeps_setEach hP _
  | dense d =>
    refine Edit.keeps_bind (Edit.keeps_modify hP.dropCache) fun _ => ?_
    by_cases hf : f.accumulating
    · simp only [hf, if_true]
      exact keeps_combine hP _ _
    · simp only [hf]
      exact keeps_setEach hP _

theorem keeps_addTo (v : Vect) : Edit.Keeps P v.addTo := by
  refine Edit.keeps_bind (Edit.keeps_reading _) fun _ => ?_
  cases v with
  | dense d => exact keeps_combine hP _ _
  | view p w => exact keeps_combine hP _ _

end Enduring

/-! ## Edits -/

theorem cache_store (v : Vect) (i : Nat) (x : Float) : (v.store i x).root.cache = .empty := by
  induction v generalizing i with
  | dense d => rfl
  | view p w ih => exact ih _

theorem keeps_setSlot (i : Nat) (x : Float) : Edit.Keeps Coherent (setSlot i x) := by
  intro v _
  rw [state_setSlot]
  exact Dense.coherent_of_empty (cache_store v i x)

theorem coherent_withName {v : Vect} (h : v.Coherent) (name : Option String) : (v.withName name).Coherent := by
  cases v with
  | dense d => exact Dense.Coherent.withName h name
  | view p w => exact h

theorem coherent_withBindings {v : Vect} (h : v.Coherent) (b : Option Bindings) :
    (v.withBindings b).Coherent := by
  cases v with
  | dense d => exact Dense.Coherent.withBindings h b
  | view p w => exact h

theorem coherent_dropCache {v : Vect} (h : v.Coherent) : v.dropCache.Coherent := by
  cases v with
  | dense d => exact Dense.coherent_of_empty rfl
  | view p w => exact h

theorem enduring_coherent : Enduring Coherent where
  setSlot := keeps_setSlot
  dropCache := fun _ h => coherent_dropCache h

/-- Only a read fills the cache, with what it has just computed. -/
theorem keeps_lengthSquared : Edit.Keeps Coherent lengthSquared := by
  intro v h
  cases v with
  | view p w =>
    show Coherent ((Edit.reading dotSelf).outcome (view p w)).2
    rw [Edit.outcome_reading]
    exact h
  | dense d =>
    intro x hx
    simp only [Edit.outcome, lengthSquared, LengthCache.fetch, root] at hx
    revert hx
    cases hc : d.cache.value with
    | some y =>
      intro hx
      exact h x hx
    | none =>
      intro hx
      exact (Option.some.inj hx).symm

/-- What a coherent cache answers is the sum over the slots. -/
theorem lengthSquared_dense {d : Dense} (h : d.Coherent) :
    (lengthSquared.outcome (dense d)).1 = .ok d.fullLengthSquared := by
  simp only [Edit.outcome, lengthSquared, LengthCache.fetch]
  cases hc : d.cache.value with
  | some y => exact congrArg Except.ok (h y hc)
  | none => rfl

/-! ## Copies and derivations -/

theorem coherent_blankOfSize (v : Vect) (n : Nat) : (v.blankOfSize n).Coherent := by
  induction v with
  | dense d => exact (Dense.coherent_zeros n).withBindings _
  | view p w ih => exact ih.withBindings _

theorem coherent_clone {v : Vect} {d : Dense} (h : v.Coherent) (hd : v.clone = .ok d) : d.Coherent := by
  cases v with
  | dense d' =>
    cases hd
    exact h
  | view p w =>
    obtain ⟨copy, hf, hd⟩ := Edit.bind_eq_ok hd
    cases hd
    exact ((Dense.coherent_fill (coherent_blankOfSize p _) hf).withName w.name).withBindings w.bindings

theorem coherent_toDense {v : Vect} {d : Dense} (hd : v.toDense = .ok d) : d.Coherent := by
  obtain ⟨copy, hf, hd⟩ := Edit.bind_eq_ok hd
  cases hd
  exact (Dense.coherent_fill (Dense.coherent_zeros _) hf).withName _

/-- A clone that has been written to at some indices. -/
theorem coherent_fill_clone {v : Vect} {d : Dense} {es : List Element} {value : Element → Except Fault Float}
    (h : v.Coherent) (hd : (v.clone >>= fun c => c.fill es value) = .ok d) : d.Coherent := by
  obtain ⟨c, hc, hf⟩ := Edit.bind_eq_ok hd
  exact Dense.coherent_fill (coherent_clone h hc) hf

theorem coherent_addScalar {v : Vect} {x : Float} {d : Dense} (h : v.Coherent) (hd : v.addScalar x = .ok d) :
    d.Coherent := by
  obtain ⟨c, hc, hf⟩ := Edit.bind_eq_ok hd
  refine Dense.coherent_foldlM (fun _ i _ hs => ?_) (coherent_clone h hc) hf
  obtain ⟨y, _, hp⟩ := Edit.bind_eq_ok hs
  exact Dense.coherent_put hp

theorem coherent_divScalar {v : Vect} {x : Float} {d : Dense} (h : v.Coherent) (hd : v.divScalar x = .ok d) :
    d.Coherent := coherent_fill_clone h hd

end Vect

/-! ## Derivations -/

theorem Script.Derivation.coherent_apply {v : Vect} {d : Dense} (h : v.Coherent) (x : Derivation)
    (hd : x.apply v = .ok d) : d.Coherent := by
  cases x with
  | clone => exact Vect.coherent_clone h hd
  | blank =>
    cases hd
    exact Vect.coherent_blankOfSize v _
  | blankOfSize n =>
    cases hd
    exact Vect.coherent_blankOfSize v n
  | toDense => exact Vect.coherent_toDense hd
  | addScalar x => exact Vect.coherent_addScalar h hd
  | scale x => exact Vect.coherent_fill_clone h hd
  | divScalar x => exact Vect.coherent_divScalar h hd
  | normalize =>
    obtain ⟨_, _, hd⟩ := Edit.bind_eq_ok hd
    exact Vect.coherent_divScalar h hd
  | normalizeBy power =>
    obtain ⟨_, _, hd⟩ := Edit.bind_eq_ok hd
    exact Vect.coherent_divScalar h hd
  | add other =>
    obtain ⟨w, _, hd⟩ := Edit.bind_eq_ok hd
    obtain ⟨_, _, hd⟩ := Edit.bind_eq_ok hd
    exact Vect.coherent_fill_clone h hd
  | sub other =>
    obtain ⟨w, _, hd⟩ := Edit.bind_eq_ok hd
    obtain ⟨_, _, hd⟩ := Edit.bind_eq_ok hd
    exact Vect.coherent_fill_clone h hd
  | mul other =>
    obtain ⟨w, _, hd⟩ := Edit.bind_eq_ok hd
    obtain ⟨_, _, hd⟩ := Edit.bind_eq_ok hd
    exact Vect.coherent_fill_clone h hd
  | roundTrip =>
    obtain ⟨text, _, hd⟩ := Edit.bind_eq_ok hd
    exact Dense.coherent_of_empty (Dense.cache_decode hd)

/-! ## Runs -/

namespace Script

/-- Writes that change slots only. -/
def Write.SparesLabels : Write → Prop
  | .setName _ | .setBindings _ | .bindLabel .. => False
  | _ => True

theorem Write.keeps_of_enduring {P : Vect → Prop} (hP : Vect.Enduring P) {w : Write} (hw : w.SparesLabels) :
    Edit.Keeps P w.edit := by
  cases w with
  | set i x => exact Edit.keeps_bind (Vect.keeps_set hP i x) fun _ => Edit.keeps_pure _
  | setSlot i x => exact Edit.keeps_bind (hP.setSlot i x) fun _ => Edit.keeps_pure _
  | setLabel label x => exact Edit.keeps_bind (Vect.keeps_setLabel hP label x) fun _ => Edit.keeps_pure _
  | setElement i x => exact Edit.keeps_bind (Vect.keeps_setElement hP i x) fun _ => Edit.keeps_pure _
  | assignValue _ | assignMap _ | assignMapScalar _ _ =>
    exact Edit.keeps_bind (Vect.keeps_setEach hP _) fun _ => Edit.keeps_pure _
  | assignList xs => exact Edit.keeps_bind (Vect.keeps_assignList hP xs) fun _ => Edit.keeps_pure _
  | assignFrom other =>
    exact Edit.keeps_bind (Edit.keeps_reading _) fun o =>
      Edit.keeps_bind (Vect.keeps_assignFrom hP o) fun _ => Edit.keeps_pure _
  | assignZip other f =>
    exact Edit.keeps_bind (Edit.keeps_reading _) fun o =>
      Edit.keeps_bind (Vect.keeps_assignZip hP o f) fun _ => Edit.keeps_pure _
  | setName _ | setBindings _ | bindLabel _ _ _ => exact hw.elim

/-- What neither writes to slots nor new labels end. -/
theorem Write.keeps_of_lasting {P : Vect → Prop} (hP : Vect.Enduring P)
    (hname : ∀ name v, P v → P (v.withName name)) (hbindings : ∀ b v, P v → P (v.withBindings b)) (w : Write) :
    Edit.Keeps P w.edit := by
  cases w with
  | setName name => exact Edit.keeps_bind (Edit.keeps_modify (hname name)) fun _ => Edit.keeps_pure _
  | setBindings b => exact Edit.keeps_bind (Edit.keeps_modify (hbindings b)) fun _ => Edit.keeps_pure _
  | bindLabel label i x =>
    refine Edit.keeps_bind ?_ fun _ => Edit.keeps_pure _
    exact Edit.keeps_bind (Vect.keeps_set hP i x) fun _ => Edit.keeps_modify fun v h => hbindings _ v h
  | _ => exact Write.keeps_of_enduring hP trivial

theorem Write.keeps_edit (w : Write) : Edit.Keeps Vect.Coherent w.edit :=
  w.keeps_of_lasting Vect.enduring_coherent (fun name _ h => Vect.coherent_withName h name) fun b _ h =>
    Vect.coherent_withBindings h b

end Script

mutual

theorem Step.run_coherent (s : Step) {v : Vect} (h : v.Coherent) : (s.run v).2.Coherent := by
  cases s with
  | ask q => exact h
  | lengthSquared => exact Vect.keeps_lengthSquared v h
  | write w => exact w.keeps_edit v h
  | addTo target => exact h
  | within w steps =>
    unfold Step.run
    split
    · exact h
    · rename_i inner hw
      exact Vect.coherent_release (Step.runAll_coherent steps (Vect.coherent_window h hw))
  | derive d next =>
    unfold Step.run
    split <;> exact h
  | outer other next =>
    unfold Step.run
    split <;> exact h
  | zeroMatrix rows cols next => exact h

theorem Step.runAll_coherent (steps : List Step) {v : Vect} (h : v.Coherent) :
    (Step.runAll steps v).2.Coherent := by
  cases steps with
  | nil => exact h
  | cons s rest => exact Step.runAll_coherent rest (Step.run_coherent s h)

end

/-- The vectors a caller can come by. -/
inductive Reached : Vect → Prop
  /-- Every constructor of storage, and the rows and columns of matrices. -/
  | made (slots : Array Float) (name : Option String) (bindings : Option Bindings) :
      Reached (.dense { slots, name, bindings })
  | stepped {v : Vect} (s : Step) : Reached v → Reached (s.run v).2
  | opened {v v' : Vect} (w : Window) : Reached v → v.window w = .ok v' → Reached v'
  | released {v : Vect} : Reached v → Reached v.release
  | derived {v : Vect} {d : Dense} (x : Derivation) : Reached v → x.apply v = .ok d → Reached (.dense d)
  /-- The target of an addition. -/
  | target {v t : Vect} : Reached v → Reached t → Reached (v.addTo.outcome t).2
  /-- All slots at once, by direct access. -/
  | overwritten {d : Dense} (slots : Array Float) : Reached (.dense d) → slots.size = d.size →
      Reached (.dense { d.dropCache with slots })

theorem reached_coherent {v : Vect} (h : Reached v) : v.Coherent := by
  induction h with
  | made slots name bindings => exact Dense.coherent_of_empty rfl
  | stepped s _ ih => exact Step.run_coherent s ih
  | opened w _ hw ih => exact Vect.coherent_window ih hw
  | released _ ih => exact Vect.coherent_release ih
  | derived x _ hd ih => exact x.coherent_apply ih hd
  | target _ _ _ iht => exact Vect.keeps_addTo Vect.enduring_coherent _ _ iht
  | overwritten slots _ _ _ => exact Dense.coherent_of_empty rfl

theorem Reached.runAll {v : Vect} (h : Reached v) (steps : List Step) : Reached (Step.runAll steps v).2 := by
  induction steps generalizing v with
  | nil => exact h
  | cons s rest ih => exact ih (h.stepped s)

/-- In every vector reached the cache is empty or holds the sum of the squares of the slots,
    and asking contiguous storage for its squared length gives that sum. -/
theorem length_squared_never_stale {v : Vect} (h : Reached v) :
    (v.root.cache.value = none ∨
      v.root.cache.value = some (v.root.toList.foldl (fun s x => s + x * x) Binary64.negZero)) ∧
    ∀ d, v = .dense d →
      (Vect.lengthSquared.outcome v).1 = .ok (d.toList.foldl (fun s x => s + x * x) Binary64.negZero) := by
  have hc := reached_coherent h
  have hsum (d : Dense) : d.fullLengthSquared = d.toList.foldl (fun s x => s + x * x) Binary64.negZero := by
    unfold Dense.fullLengthSquared Binary64.sum
    rw [List.foldl_map]
    rfl
  refine ⟨?_, fun d hd => ?_⟩
  · cases hv : v.root.cache.value with
    | none => exact Or.inl rfl
    | some x => exact Or.inr (by rw [hc x hv, hsum])
  · subst hd
    exact (Vect.lengthSquared_dense hc).trans (congrArg Except.ok (hsum d))

/-- Asked for, written in one slot through a window inside a window, and asked again. -/
theorem length_squared_after_window_write :
    let d := Dense.ofList [3, 4, 12]
    let script : List Step := [.lengthSquared,
      .within ⟨1, 2, none, none⟩ [.within ⟨1, 1, none, none⟩ [.write (.set 0 0), .write (.set 7 5)]]]
    let v := (Step.runAll script (.dense d)).2
    Reached v ∧ (Vect.lengthSquared.outcome v).1 = .ok 25 := by
  intro d script v
  have h : Reached v := (Reached.made _ _ _).runAll script
  refine ⟨h, ?_⟩
  rw [(length_squared_never_stale h).2 _ rfl]
  decide

end FeatureVector

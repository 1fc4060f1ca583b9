/-
  FeatureVector.Proofs.LabelRuns — labels over whole runs.

  `LabelMap` is what the labels of a vector stand for, as a plain map, and none while no
  bindings have been given. Two writes replace or update it (`Write.relabel`), and a run does
  what its writes do in their order (`Step.relabelAll`).

  - `Carries v m u`: `u` came of `v`. It has the same shape, its bindings are those of `m`, and
    the vectors it is a window on differ from those of `v` in their slots at most.
  - Writes of slots do not end it (`enduring_carries`); the others change `m` as `relabel`
    says (`Write.carries_edit`). So does a step (`Step.run_carries`), where a script on a
    window changes the labels of that window alone, and so does a run (`Step.runAll_carries`).
  - `labels_refine_map`: after any run the bindings are the map the run has made, reads and
    writes by label go where it says, and a vector and the windows on it never share labels.
-/
import Mathlib.Logic.Function.Basic
import FeatureVector.Proofs.InBounds
import FeatureVector.Proofs.Labels
import FeatureVector.Proofs.SlotwiseAssignment

namespace FeatureVector

open Script

/-- What labels stand for, or none as long as none has been bound. -/
abbrev LabelMap := Option (String → Option Nat)

namespace LabelMap

/-- The label stands for the index from now on, whatever it stood for. -/
def bind (m : LabelMap) (label : String) (i : Nat) : LabelMap :=
  some (Function.update (m.getD fun _ => none) label (some i))

def get? (m : LabelMap) (label : String) : Option Nat := Option.bind m (· label)

@[simp] theorem get?_bind (m : LabelMap) (label : String) (i : Nat) (label' : String) :
    (m.bind label i).get? label' = if label' = label then some i else m.get? label' := by
  unfold bind get?
  rw [Option.bind_some, Function.update_apply]
  cases m <;> rfl

end LabelMap

/-- What a write to a vector of `n` slots does to the labels. -/
def Script.Write.relabel (n : Nat) (m : LabelMap) : Write → LabelMap
  | .setBindings b => b.map Bindings.get?
  | .bindLabel label i _ => if i < n then m.bind label i else m
  | _ => m

/-- Only writes to the vector itself change its labels. -/
def Step.relabel (n : Nat) (m : LabelMap) : Step → LabelMap
  | .write w => w.relabel n m
  | _ => m

def Step.relabelAll (n : Nat) (m : LabelMap) (steps : List Step) : LabelMap := steps.foldl (relabel n) m

/-! ## Edits by label -/

namespace Vect

/-- The bindings as a plain map. -/
def labels (v : Vect) : LabelMap := v.bindings.map Bindings.get?

@[simp] theorem labels_store (v : Vect) (i : Nat) (x : Float) : (v.store i x).labels = v.labels := by
  unfold labels
  rw [bindings_store]

theorem resolve_eq (v : Vect) (label : String) :
    v.resolve label = match v.labels.get? label with
      | some i => .ok i
      | none => .error (.unboundLabel label) := by
  unfold resolve labels LabelMap.get?
  cases v.bindings <;> rfl

theorem labels_insert (v : Vect) (label : String) (i : Nat) :
    (some ((v.bindings.getD .empty).insert label i)).map Bindings.get? = v.labels.bind label i := by
  have hempty : (v.bindings.getD .empty).get? = v.labels.getD fun _ => none := by
    unfold labels
    cases v.bindings <;> rfl
  unfold LabelMap.bind
  rw [← hempty, Option.map_some]
  congr 1
  funext l
  rw [Bindings.get?_insert, Function.update_apply]

section Outcomes

variable {v : Vect} (h : v.WellFormed)

include h

theorem outcome_set (i : Nat) (x : Float) :
    (set i x).outcome v = if i < v.size then (.ok (), v.store i x) else (.error (.index i v.size), v) := by
  unfold set checkIndex
  rw [Edit.outcome_bind, Edit.outcome_reading]
  by_cases hi : i < v.size
  · rw [if_pos hi, if_pos hi]
    exact outcome_setSlot h hi x
  · rw [if_neg hi, if_neg hi]

theorem outcome_setLabel (label : String) (x : Float) :
    (setLabel label x).outcome v = match v.labels.get? label with
      | some i => if i < v.size then (.ok (), v.store i x) else (.error (.index i v.size), v)
      | none => (.error (.unboundLabel label), v) := by
  unfold setLabel
  rw [Edit.outcome_bind, Edit.outcome_reading, resolve_eq]
  cases v.labels.get? label with
  | none => rfl
  | some i => exact outcome_set h i x

theorem outcome_bindLabel (label : String) (i : Nat) (x : Float) :
    (bindLabel label i x).outcome v =
      if i < v.size then (.ok (), (v.store i x).withBindings (some ((v.bindings.getD .empty).insert label i)))
      else (.error (.index i v.size), v) := by
  unfold bindLabel
  rw [Edit.outcome_bind, outcome_set h]
  by_cases hi : i < v.size
  · rw [if_pos hi, if_pos hi, ← bindings_store v i x]
    rfl
  · rw [if_neg hi, if_neg hi]

end Outcomes

/-! ## One step -/

theorem parent_of_frame {u v : Vect} (h : u.frame = v.frame) : u.parent?.map frame = v.parent?.map frame := by
  have hparent (v : Vect) : v.parent?.map frame = v.frame.parent? := by cases v <;> rfl
  rw [hparent, hparent, h]

/-- `u` came of `v`: its labels are those of `m`, and further out no more than slots has changed. -/
structure Carries (v : Vect) (m : LabelMap) (u : Vect) : Prop where
  shape : u.shape = v.shape
  labels : u.labels = m
  outer : u.parent?.map frame = v.parent?.map frame

namespace Carries

variable {v u : Vect} {m : LabelMap}

theorem self (v : Vect) : v.Carries v.labels v := ⟨rfl, rfl, rfl⟩

theorem store (h : v.Carries m u) (i : Nat) (x : Float) : v.Carries m (u.store i x) where
  shape := (shape_store u i x).trans h.shape
  labels := (labels_store u i x).trans h.labels
  outer := (parent_of_frame (frame_store u i x)).trans h.outer

theorem withName (h : v.Carries m u) (name : Option String) : v.Carries m (u.withName name) := by
  cases u <;> exact ⟨h.shape, h.labels, h.outer⟩

theorem withBindings (h : v.Carries m u) (b : Option Bindings) :
    v.Carries (b.map Bindings.get?) (u.withBindings b) := by
  cases u <;> exact ⟨h.shape, rfl, h.outer⟩

theorem dropCache (h : v.Carries m u) : v.Carries m u.dropCache := by
  cases u <;> exact ⟨h.shape, h.labels, h.outer⟩

/-- What a window carries when it is closed is what it was opened on. -/
theorem release {w : Window} (h : (view v w).Carries m u) :
    u.release.shape = v.shape ∧ u.release.frame = v.frame := by
  refine ⟨release_shape h.shape, ?_⟩
  have houter := h.outer
  cases u with
  | dense d => cases houter
  | view p w' => exact Option.some.inj houter

end Carries

theorem enduring_carries (v : Vect) (m : LabelMap) : Enduring (v.Carries m) where
  setSlot := by
    intro i x u h
    rw [state_setSlot]
    exact h.store i x
  dropCache := fun _ h => h.dropCache

end Vect

theorem Script.Write.carries_edit (w : Write) {v u : Vect} {m : LabelMap} (hv : v.WellFormed) (h : v.Carries m u) :
    v.Carries (w.relabel v.size m) (w.edit.outcome u).2 := by
  cases w with
  | setName name => exact h.withName name
  | setBindings b => exact h.withBindings b
  | bindLabel label i x =>
    have hstate : ((Write.bindLabel label i x).edit.outcome u).2 = ((Vect.bindLabel label i x).outcome u).2 :=
      Edit.state_bind_pure _ _ u
    rw [hstate, Vect.outcome_bindLabel (Vect.wellFormed_of_shape h.shape hv), Vect.size_eq_of_shape h.shape, relabel]
    by_cases hi : i < v.size
    · rw [if_pos hi, if_pos hi, ← h.labels, ← Vect.labels_insert]
      exact (h.store i x).withBindings _
    · rw [if_neg hi, if_neg hi]
      exact h
  | _ => exact Write.keeps_of_enduring (Vect.enduring_carries v m) (by trivial) u h

/-- If a script on the window brings nothing but slots out of it, the step does not either. -/
theorem Step.within_of_carries {w : Window} {steps : List Step} {v : Vect} (hv : v.WellFormed)
    (h : (Vect.view v w).WellFormed → ∃ m, (Vect.view v w).Carries m (Step.runAll steps (.view v w)).2) :
    ((Step.within w steps).run v).2.shape = v.shape ∧ ((Step.within w steps).run v).2.frame = v.frame := by
  unfold Step.run
  split
  · exact ⟨rfl, rfl⟩
  · rename_i inner hinner
    obtain ⟨hle, rfl⟩ := Vect.window_eq_ok hinner
    obtain ⟨m, hcarries⟩ := h ⟨hle, hv⟩
    exact hcarries.release

mutual

theorem Step.run_carries (s : Step) {v u : Vect} {m : LabelMap} (hv : v.WellFormed) (h : v.Carries m u) :
    v.Carries (s.relabel v.size m) (s.run u).2 := by
  cases s with
  | ask q => exact h
  | lengthSquared =>
    cases u with
    | dense d => exact ⟨h.shape, h.labels, h.outer⟩
    | view p w =>
      show v.Carries m ((Edit.reading Vect.dotSelf).outcome (.view p w)).2
      rw [Edit.outcome_reading]
      exact h
  | write w => exact w.carries_edit hv h
  | addTo target => exact h
  | within w steps =>
    -- the labels of the window go with it
    have hinner := @Step.within_of_carries w steps u (Vect.wellFormed_of_shape h.shape hv)
    obtain ⟨hshape, hframe⟩ := hinner fun hwf => ⟨_, Step.runAll_carries steps hwf (.self _)⟩
    have hlabels := congrArg (Option.map Bindings.get?) (Vect.labels_of_frame hframe).2
    exact ⟨hshape.trans h.shape, hlabels.trans h.labels, (Vect.parent_of_frame hframe).trans h.outer⟩
  | derive d next =>
    unfold Step.run
    split <;> exact h
  | outer other next =>
    unfold Step.run
    split <;> exact h
  | zeroMatrix rows cols next => exact h

theorem Step.runAll_carries (steps : List Step) {v u : Vect} {m : LabelMap} (hv : v.WellFormed)
    (h : v.Carries m u) : v.Carries (Step.relabelAll v.size m steps) (Step.runAll steps u).2 := by
  cases steps with
  | nil => exact h
  | cons s rest => exact Step.runAll_carries rest hv (Step.run_carries s hv h)

end

/-- A script on a window changes slots and nothing else of the vector it was opened on. -/
theorem Step.frame_within (w : Window) (steps : List Step) {v : Vect} (hv : v.WellFormed) :
    ((Step.within w steps).run v).2.frame = v.frame :=
  (Step.within_of_carries hv fun hwf => ⟨_, Step.runAll_carries steps hwf (.self _)⟩).2

/-! ## Which binding counts -/

namespace Step

variable {n : Nat} {m : LabelMap} {label : String}

/-- The step says what the label stands for from now on. -/
def Rebinds (n : Nat) (label : String) : Step → Prop
  | .write (.setBindings _) => True
  | .write (.bindLabel label' i _) => label' = label ∧ i < n
  | _ => False

/-- Both kinds of rebinding are a write; what else a step may be keeps the map. -/
theorem relabel_cases (n : Nat) (m : LabelMap) (s : Step) :
    (∃ b, s = .write (.setBindings b)) ∨ (∃ label i x, s = .write (.bindLabel label i x) ∧ i < n) ∨
      s.relabel n m = m := by
  cases s with
  | write w =>
    cases w with
    | setBindings b => exact .inl ⟨b, rfl⟩
    | bindLabel label i x =>
      by_cases hi : i < n
      · exact .inr (.inl ⟨label, i, x, rfl, hi⟩)
      · exact .inr (.inr (if_neg hi))
    | _ => exact .inr (.inr rfl)
  | _ => exact .inr (.inr rfl)

theorem get?_relabel {s : Step} (h : ¬ s.Rebinds n label) (m : LabelMap) :
    (s.relabel n m).get? label = m.get? label := by
  obtain ⟨b, rfl⟩ | ⟨label', i, x, rfl, hi⟩ | hm := relabel_cases n m s
  · exact (h trivial).elim
  · have hne : label ≠ label' := fun heq => h ⟨heq.symm, hi⟩
    show (if i < n then m.bind label' i else m).get? label = _
    rw [if_pos hi, LabelMap.get?_bind, if_neg hne]
  · rw [hm]

theorem relabel_eq_self {s : Step} (h : ∀ label, ¬ s.Rebinds n label) (m : LabelMap) : s.relabel n m = m := by
  obtain ⟨b, rfl⟩ | ⟨label', i, x, rfl, hi⟩ | hm := relabel_cases n m s
  · exact (h "" trivial).elim
  · exact (h label' ⟨rfl, hi⟩).elim
  · exact hm

variable {steps : List Step}

theorem get?_relabelAll (h : ∀ s ∈ steps, ¬ s.Rebinds n label) (m : LabelMap) :
    (relabelAll n m steps).get? label = m.get? label :=
  List.foldlRecOn steps (relabel n) (motive := fun m' => m'.get? label = m.get? label) rfl
    fun m' hm' s hs => (get?_relabel (h s hs) m').trans hm'

theorem relabelAll_eq_self (h : ∀ s ∈ steps, ∀ label, ¬ s.Rebinds n label) (m : LabelMap) :
    relabelAll n m steps = m :=
  List.foldlRecOn steps (relabel n) (motive := (· = m)) rfl fun m' hm' s hs => (relabel_eq_self (h s hs) m').trans hm'

/-- Of several bindings of a label the last one stands. -/
theorem get?_relabelAll_last {before after : List Step} {i : Nat} (hi : i < n)
    (h : ∀ s ∈ after, ¬ s.Rebinds n label) (m : LabelMap) (x : Float) :
    (relabelAll n m (before ++ .write (.bindLabel label i x) :: after)).get? label = some i := by
  unfold relabelAll
  rw [List.foldl_append, List.foldl_cons]
  refine (get?_relabelAll h _).trans ?_
  show (if i < n then LabelMap.bind _ label i else _).get? label = _
  rw [if_pos hi, LabelMap.get?_bind, if_pos rfl]

end Step

/-! ## Runs -/

namespace Vect

theorem labels_eq_iff {v : Vect} {b : Option Bindings} : v.labels = b.map Bindings.get? ↔ v.bindings = b := by
  constructor
  · intro h
    exact Option.map_injective (fun _ _ => Bindings.ext_get?) h
  · intro h
    exact congrArg _ h

/-- What reading and writing by a label come to when it stands for `target`. -/
def Finds (v : Vect) (label : String) : Option Nat → Prop
  | none => v.getLabel label = .error (.unboundLabel label) ∧
      ∀ x, (setLabel label x).outcome v = (.error (.unboundLabel label), v)
  | some i =>
    (v.size ≤ i → v.getLabel label = .error (.index i v.size) ∧
      ∀ x, (setLabel label x).outcome v = (.error (.index i v.size), v)) ∧
    (i < v.size → ∃ y, v.slots[i]? = some y ∧ v.getLabel label = .ok y ∧
      ∀ x, ∃ u, (setLabel label x).outcome v = (.ok (), u) ∧ u.slots = v.slots.set i x ∧ u.frame = v.frame)

theorem finds_labels {v : Vect} (h : v.WellFormed) (label : String) : v.Finds label (v.labels.get? label) := by
  have hget : v.getLabel label = (v.resolve label >>= v.get) := rfl
  rw [resolve_eq] at hget
  have hset := outcome_setLabel h label
  revert hget hset
  cases v.labels.get? label with
  | none => exact fun hget hset => ⟨hget, hset⟩
  | some i =>
    intro hget hset
    have hread : v.getLabel label = v.get i := hget
    rw [get_eq h] at hread
    refine ⟨fun hi => ⟨?_, fun x => ?_⟩, fun hi => ?_⟩
    · rw [hread, List.getElem?_eq_none (by rw [length_slots h]; exact hi)]
    · exact (hset x).trans (if_neg (Nat.not_lt.mpr hi))
    · have hslot := List.getElem?_eq_getElem (l := v.slots) (i := i) (by rw [length_slots h]; exact hi)
      rw [hslot] at hread
      exact ⟨_, hslot, hread, fun x =>
        ⟨v.store i x, (hset x).trans (if_pos hi), slots_store h hi x, frame_store v i x⟩⟩

/-- A label is read and written by its index alone. -/
theorem getLabel_congr {v : Vect} {label label' : String} (h : v.labels.get? label = v.labels.get? label')
    {i : Nat} (hi : v.labels.get? label = some i) : v.getLabel label = v.getLabel label' := by
  unfold getLabel
  rw [resolve_eq, resolve_eq, ← h, hi]

end Vect

/-- After any run, failed steps included, the bindings are the map the run has made. A label
    that is not in it is unbound for reads and writes, one with an index past the end fails with
    the index, and any other reads and writes its slot and nothing else. Labels of one index
    read alike, the last binding of a label stands, and a run without bindings keeps those
    there were. A run on a window changes nothing but slots of what the window was opened on,
    now or before, and the labels of a window do not depend on it. -/
theorem labels_refine_map {v : Vect} (hv : v.WellFormed) (steps : List Step) :
    let v' := (Step.runAll steps v).2
    let m := Step.relabelAll v.size v.labels steps
    (∀ b, v'.bindings = b ↔ m = b.map Bindings.get?) ∧ v'.size = v.size ∧
      (∀ label, v'.Finds label (m.get? label)) ∧
      (∀ label label' i, m.get? label = some i → m.get? label' = some i →
        v'.getLabel label = v'.getLabel label') ∧
      (∀ before label i x after, steps = before ++ .write (.bindLabel label i x) :: after → i < v.size →
        (∀ s ∈ after, ¬ s.Rebinds v.size label) → v'.resolve label = .ok i) ∧
      ((∀ s ∈ steps, ∀ label, ¬ s.Rebinds v.size label) → v'.bindings = v.bindings) ∧
      v'.parent?.map Vect.frame = v.parent?.map Vect.frame ∧
      (∀ w inner, ((Step.within w inner).run v').2.frame = v'.frame) ∧
      ∀ p q w, v = .view p w → (Vect.view q w).WellFormed →
        (Step.runAll steps (.view q w)).2.bindings = v'.bindings := by
  intro v' m
  have hcarries : v.Carries m v' := Step.runAll_carries steps hv (.self v)
  have hwf : v'.WellFormed := Vect.wellFormed_of_shape hcarries.shape hv
  have hlabels : v'.labels = m := hcarries.labels
  refine ⟨fun b => ?_, Vect.size_eq_of_shape hcarries.shape, fun label => ?_, fun label label' i hl hl' => ?_,
    ?_, fun h => ?_, hcarries.outer, fun w inner => Step.frame_within w inner hwf, ?_⟩
  · rw [← hlabels, Vect.labels_eq_iff]
  · rw [← hlabels]
    exact Vect.finds_labels hwf label
  · rw [← hlabels] at hl hl'
    exact Vect.getLabel_congr (hl.trans hl'.symm) hl
  · intro before label i x after hsteps hi hafter
    have hlast : m.get? label = some i := by
      show (Step.relabelAll v.size v.labels steps).get? label = _
      rw [hsteps]
      exact Step.get?_relabelAll_last hi hafter _ x
    rw [Vect.resolve_eq, hlabels, hlast]
  · rw [← Vect.labels_eq_iff, hlabels]
    exact Step.relabelAll_eq_self h _
  · rintro p q w rfl hq
    rw [← Vect.labels_eq_iff]
    exact (Step.runAll_carries steps hq (.self _)).labels.trans hlabels.symm

/-- A window in a window, whose parent and storage have labels of the same name. Bindings given
    as a whole name a slot there is not; of the bindings after them one fails, and the label
    that is bound twice stands for the second slot. -/
theorem labels_of_inner_window :
    let root : Dense := { Dense.ofList [1, 2, 3, 4, 5] with bindings := some (.ofList [("a", 4)]) }
    let outer : Window := ⟨1, 4, some "outer", some (.ofList [("a", 3), ("b", 0)])⟩
    let v : Vect := .view (.view (.dense root) outer) ⟨1, 3, none, none⟩
    let steps : List Step := [.write (.bindLabel "b" 1 7), .write (.setBindings (some (.ofList [("c", 3)]))),
      .write (.bindLabel "a" 0 8), .write (.bindLabel "a" 3 9), .write (.bindLabel "a" 2 6),
      .within ⟨0, 1, none, none⟩ [.write (.bindLabel "a" 0 5)], .write (.setLabel "a" 4)]
    let v' := (Step.runAll steps v).2
    v'.bindings = some (.ofList [("a", 2), ("c", 3)]) ∧ v'.resolve "a" = .ok 2 ∧
      v'.getLabel "b" = .error (.unboundLabel "b") ∧ v'.getLabel "c" = .error (.index 3 3) ∧
      v'.getLabel "a" = .ok 4 ∧ v'.parent?.map Vect.frame = v.parent?.map Vect.frame := by
  intro root outer v steps v'
  obtain ⟨hmap, -, hfinds, -, hlast, -, houter, -⟩ := labels_refine_map (v := v) (by decide) steps
  have hbindings : v'.bindings = some (.ofList [("a", 2), ("c", 3)]) := rfl
  have hm := (hmap _).mp hbindings
  have hb := hfinds "b"
  have hc := hfinds "c"
  rw [hm] at hb hc
  have ha : v'.resolve "a" = .ok 2 := hlast (steps.take 4) "a" 2 6 _ rfl (by decide) (by simp [Step.Rebinds])
  exact ⟨hbindings, ha, hb.1, (hc.1 (by decide)).1, rfl, houter⟩

end FeatureVector

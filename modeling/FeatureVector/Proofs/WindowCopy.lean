/-
  FeatureVector.Proofs.WindowCopy — a window cannot be told from a copy of what it shows.

  `Alike n v w`: two vectors of `n` slots, of whatever storage, with the same slots, name
  and bindings; contiguous storage among them has no cached length. The plain steps of a
  script (`Step.IsPlain`) leave out those whose answer depends on the storage by design:
  the kind, the squared length and distance, copies by non-zero slots of vectors with
  negative zeros, accumulating functions.

  - `Query.answer_alike`, `Derivation.apply_alike`, `outer_alike`: alike vectors answer
    alike, and what is derived from them is the same storage, cached length included.
  - `Write.agree_edit`: a write succeeds on both or fails on both with one fault, and
    leaves them alike.
  - `Step.run_alike`, `Step.runAll_alike`: so do a step and a script.
  - `window_acts_as_copy`: the case of a window, at any depth, and the copy of its slots.
-/
import Mathlib
import FeatureVector.Proofs.Copies
import FeatureVector.Script.Run

namespace FeatureVector

open Script

namespace Vect

/-- Two vectors that show a caller the same. -/
structure Alike (n : Nat) (v w : Vect) : Prop where
  wf : v.WellFormed
  wf' : w.WellFormed
  size : v.size = n
  size' : w.size = n
  slots : v.slots = w.slots
  name : v.name = w.name
  bindings : v.bindings = w.bindings
  cache : v.ownCache = .empty
  cache' : w.ownCache = .empty

namespace Alike

variable {n : Nat} {v w : Vect}

theorem sizes (h : Alike n v w) : v.size = w.size := h.size.trans h.size'.symm

theorem slot (h : Alike n v w) {i : Nat} (hi : i < n) : v.slot i = w.slot i := by
  rw [slot_of_lt h.wf (by rw [h.size]; exact hi), slot_of_lt h.wf' (by rw [h.size']; exact hi), h.slots]

theorem get (h : Alike n v w) (i : Nat) : v.get i = w.get i := by
  rw [get_eq h.wf, get_eq h.wf', h.slots, h.sizes]

theorem nonZero (h : Alike n v w) : v.nonZero = w.nonZero := by
  rw [nonZero_eq h.wf, nonZero_eq h.wf', h.slots]

theorem readAll (h : Alike n v w) : v.readAll = w.readAll := by
  rw [readAll_eq h.wf, readAll_eq h.wf', h.slots]

theorem elements (h : Alike n v w) : v.elements = w.elements := by
  rw [elements_eq h.wf, elements_eq h.wf', h.slots]

theorem snapshot (h : Alike n v w) : v.snapshot = w.snapshot := by
  unfold Vect.snapshot
  rw [h.slots, h.name, h.bindings]

theorem resolve (h : Alike n v w) (label : String) : v.resolve label = w.resolve label := by
  unfold Vect.resolve
  rw [h.bindings]

theorem sumNonZero (h : Alike n v w) {f g : Element → Except Fault Float} (hfg : ∀ e, e.index < n → f e = g e) :
    v.sumNonZero f = w.sumNonZero g := by
  unfold Vect.sumNonZero
  rw [← h.nonZero, Edit.mapM_congr_left fun e he => hfg e (h.size ▸ index_lt_of_mem_nonZero h.wf he)]

theorem total (h : Alike n v w) : v.total = w.total := by
  unfold Vect.total
  rw [h.nonZero]

theorem dot (h : Alike n v w) (o : Vect) : v.dot o = w.dot o := by
  unfold Vect.dot
  rw [h.sizes, h.sumNonZero fun _ _ => rfl]

theorem dotSelf (h : Alike n v w) : v.dotSelf = w.dotSelf := by
  unfold Vect.dotSelf
  exact h.sumNonZero fun e he => by rw [h.slot he]

theorem maximum (h : Alike n v w) : v.maximum = w.maximum := by
  unfold Vect.maximum
  rw [h.readAll]

theorem argMax (h : Alike n v w) : v.argMax = w.argMax := by
  unfold Vect.argMax
  rw [h.readAll]

theorem norm (h : Alike n v w) (power : Float) : v.norm power = w.norm power := by
  unfold Vect.norm
  rw [h.maximum, h.dotSelf, h.total, h.nonZero]

theorem hash (h : Alike n v w) : v.hash = w.hash := by
  unfold Vect.hash
  rw [h.name, h.sizes, h.nonZero]

theorem equivalent (h : Alike n v w) (o : Vect) : v.equivalent o = w.equivalent o := by
  unfold Vect.equivalent
  rw [h.sizes]
  split
  · refine Edit.allM_congr_left fun i hi => ?_
    rw [h.slot (h.size' ▸ List.mem_range.mp hi)]
  · rfl

theorem encode (h : Alike n v w) (options : EncodeOptions) : v.encode options = w.encode options := by
  unfold Vect.encode Record.ofVect
  rw [h.elements, h.name, h.sizes, h.bindings]

theorem blankOfSize (h : Alike n v w) (k : Nat) : v.blankOfSize k = w.blankOfSize k := by
  rw [blankOfSize_eq, blankOfSize_eq, h.bindings]

theorem toDense (h : Alike n v w) : v.toDense = w.toDense := by
  unfold Vect.toDense
  rw [h.sizes, h.nonZero, h.name]

theorem addScalar (h : Alike n v w) (x : Float) : v.addScalar x = w.addScalar x := by
  rw [addScalar_eq h.wf, addScalar_eq h.wf', h.slots, h.name, h.bindings, h.cache, h.cache', h.sizes]

theorem outer (h : Alike n v w) (o : Vect) : v.outer o = w.outer o := by
  unfold Vect.outer
  rw [h.sizes]
  refine congrArg (fun e => Edit.exec e _) (Edit.forM_congr_left fun row hrow => ?_)
  rw [h.slot (h.size' ▸ List.mem_range.mp hrow)]

/-! ## Changes -/

theorem store (h : Alike n v w) {i : Nat} (hi : i < n) (x : Float) : Alike n (v.store i x) (w.store i x) where
  wf := wellFormed_store h.wf i x
  wf' := wellFormed_store h.wf' i x
  size := by rw [size_store, h.size]
  size' := by rw [size_store, h.size']
  slots := by rw [slots_store h.wf (h.size ▸ hi), slots_store h.wf' (h.size' ▸ hi), h.slots]
  name := by rw [name_store, name_store, h.name]
  bindings := by rw [bindings_store, bindings_store, h.bindings]
  cache := by cases v <;> rfl
  cache' := by cases w <;> rfl

theorem withName (h : Alike n v w) (name : Option String) : Alike n (v.withName name) (w.withName name) := by
  obtain ⟨wf, wf', size, size', slots, _, bindings, cache, cache'⟩ := h
  cases v <;> cases w <;> exact ⟨wf, wf', size, size', slots, rfl, bindings, cache, cache'⟩

theorem withBindings (h : Alike n v w) {b b' : Option Bindings} (hb : b = b') :
    Alike n (v.withBindings b) (w.withBindings b') := by
  obtain ⟨wf, wf', size, size', slots, name, _, cache, cache'⟩ := h
  cases v <;> cases w <;> exact ⟨wf, wf', size, size', slots, name, hb, cache, cache'⟩

theorem dropCache (h : Alike n v w) : Alike n v.dropCache w.dropCache := by
  obtain ⟨wf, wf', size, size', slots, name, bindings, cache, cache'⟩ := h
  cases v <;> cases w <;> exact ⟨wf, wf', size, size', slots, name, bindings, rfl, rfl⟩

end Alike

/-! ## Writes -/

section Writes

variable {n : Nat}

theorem agree_setSlot {i : Nat} (hi : i < n) (x : Float) : Edit.Agree (Alike n) (setSlot i x) (setSlot i x) := by
  intro v w h
  rw [outcome_setSlot h.wf (h.size ▸ hi), outcome_setSlot h.wf' (h.size' ▸ hi)]
  exact ⟨rfl, h.store hi x⟩

/-- An edit behind a check that the index is in range only has to agree there. -/
theorem agree_checkIndex {i : Nat} {α : Type} {e : Edit Vect α}
    (he : i < n → Edit.Agree (Alike n) e e) :
    Edit.Agree (Alike n) (do Edit.reading fun v => checkIndex i v.size; e)
      (do Edit.reading fun v => checkIndex i v.size; e) := by
  intro v w h
  rw [Edit.outcome_bind, Edit.outcome_bind, Edit.outcome_reading, Edit.outcome_reading, h.size, h.size']
  unfold checkIndex
  by_cases hi : i < n
  · rw [if_pos hi]
    exact he hi v w h
  · rw [if_neg hi]
    exact ⟨rfl, h⟩

theorem agree_set (i : Nat) (x : Float) : Edit.Agree (Alike n) (set i x) (set i x) :=
  agree_checkIndex fun hi => agree_setSlot hi x

theorem agree_setElement (i : Nat) (x : Float) : Edit.Agree (Alike n) (setElement i x) (setElement i x) :=
  agree_checkIndex fun hi => Edit.agree_bind (agree_setSlot hi x) fun _ =>
    Edit.agree_reading fun _ _ h => by rw [h.slot hi]

theorem agree_setLabel (label : String) (x : Float) :
    Edit.Agree (Alike n) (setLabel label x) (setLabel label x) :=
  Edit.agree_bind (Edit.agree_reading fun _ _ h => h.resolve label) fun i => agree_set i x

theorem agree_bindLabel (label : String) (i : Nat) (x : Float) :
    Edit.Agree (Alike n) (bindLabel label i x) (bindLabel label i x) :=
  Edit.agree_bind (agree_set i x) fun _ => Edit.agree_modify fun _ _ h => h.withBindings (by rw [h.bindings])

theorem agree_setEach {value value' : Nat → Vect → Except Fault Float}
    (hv : ∀ i < n, ∀ v w, Alike n v w → value i v = value' i w) :
    Edit.Agree (Alike n) (setEach value) (setEach value') := by
  intro v w h
  unfold setEach
  rw [Edit.outcome_bind, Edit.outcome_bind, Edit.outcome_reading, Edit.outcome_reading, h.size, h.size']
  refine Edit.agree_forM (R := Alike n) (fun i hi => ?_) v w h
  have hi' : i < n := List.mem_range.mp hi
  exact Edit.agree_bind (Edit.agree_reading (hv i hi')) fun x => agree_setSlot hi' x

theorem agree_requireSize (k : Nat) : Edit.Agree (Alike n) (requireSize k) (requireSize k) :=
  Edit.agree_reading fun _ _ h => by rw [h.size, h.size']

theorem agree_assignList (xs : List Float) : Edit.Agree (Alike n) (assignList xs) (assignList xs) := by
  intro v w h
  unfold assignList requireSize
  rw [Edit.outcome_bind, Edit.outcome_bind, Edit.outcome_reading, Edit.outcome_reading, h.size, h.size']
  unfold checkSize
  by_cases hn : n = xs.length
  · rw [if_pos hn]
    refine Edit.agree_forM (R := Alike n) (fun p hp => ?_) v w h
    obtain ⟨_, hlt, _⟩ := List.mem_zipIdx hp
    exact agree_setSlot (by omega) p.1
  · rw [if_neg hn]
    exact ⟨rfl, h⟩

theorem agree_assignFrom (o : Vect) : Edit.Agree (Alike n) (assignFrom o) (assignFrom o) :=
  Edit.agree_bind (agree_requireSize _) fun _ => agree_setEach fun _ _ _ _ _ => rfl

/-- A function that is not declared to accumulate is applied in every slot of either
    storage, which only differ in the drop of a cached length. -/
theorem assignZip_eq {f : BinaryFunction} (hf : f.accumulating = false) (o : Vect) :
    assignZip o f = (do
      requireSize o.size
      modify dropCache
      setEach fun i v => do return f.apply (← v.slot i) (← o.slot i)) := by
  funext v
  unfold assignZip
  simp only [hf]
  refine congrFun (congrArg (bind (requireSize o.size)) (funext fun _ => funext fun u => ?_)) v
  cases u <;> rfl

theorem agree_assignZip {f : BinaryFunction} (hf : f.accumulating = false) (o : Vect) :
    Edit.Agree (Alike n) (assignZip o f) (assignZip o f) := by
  rw [assignZip_eq hf]
  refine Edit.agree_bind (agree_requireSize _) fun _ =>
    Edit.agree_bind (Edit.agree_modify fun _ _ h => h.dropCache) fun _ =>
      agree_setEach fun i hi v w h => by rw [h.slot hi]

end Writes

end Vect

/-! ## Steps -/

namespace Script

open Vect (Alike)

variable {n : Nat} {v w : Vect}

/-- Questions about the slots, the name and the bindings. -/
def Query.IsPlain : Query → Prop
  | size | storedCount | name | bindings | get _ | getLabel _ | element _ | elements | nonZero | total
  | maximum | argMax | norm _ | hash | dot _ | equivalent _ | encode _ => True
  | _ => False

/-- Writes that check what they are given, and functions that are applied in every slot. -/
def Write.IsPlain : Write → Prop
  | setSlot _ _ => False
  | assignZip _ f => f.accumulating = false
  | _ => True

/-- Fresh storage in which every slot is zero, or a copied non-zero, or written. -/
def Derivation.IsPlain : Derivation → Prop
  | blank | blankOfSize _ | toDense | addScalar _ => True
  | _ => False

theorem Query.answer_alike (h : Alike n v w) {q : Query} (hq : q.IsPlain) : q.answer v = q.answer w := by
  cases q with
  | size => simp only [answer, h.sizes]
  | storedCount => simp only [answer, Vect.storedCount, h.sizes]
  | name => simp only [answer, h.name]
  | bindings => simp only [answer, h.bindings]
  | get i => simp only [answer, h.get]
  | getLabel label => simp only [answer, Vect.getLabel, h.resolve, h.get]
  | element i => simp only [answer, Vect.element, h.get]
  | elements => simp only [answer, h.elements]
  | nonZero => simp only [answer, h.nonZero]
  | total => simp only [answer, h.total]
  | maximum => simp only [answer, h.maximum]
  | argMax => simp only [answer, h.argMax]
  | norm power => simp only [answer, h.norm]
  | hash => simp only [answer, h.hash]
  | dot other => simp only [answer, h.dot]
  | equivalent other => simp only [answer, h.equivalent]
  | encode options => simp only [answer, h.encode]
  | _ => exact hq.elim

theorem Derivation.apply_alike (h : Alike n v w) {d : Derivation} (hd : d.IsPlain) : d.apply v = d.apply w := by
  cases d with
  | blank => simp only [apply, Vect.blank, h.sizes, h.blankOfSize]
  | blankOfSize k => simp only [apply, h.blankOfSize]
  | toDense => exact h.toDense
  | addScalar x => exact h.addScalar x
  | _ => exact hd.elim

theorem Write.agree_edit {c : Write} (hc : c.IsPlain) : Edit.Agree (Alike n) c.edit c.edit := by
  have done {α β : Type} {e : Edit Vect α} {b : β} (he : Edit.Agree (Alike n) e e) :
      Edit.Agree (Alike n) (do let _ ← e; return b) (do let _ ← e; return b) :=
    Edit.agree_bind he fun _ => Edit.agree_pure b
  have operand (o : Operand) : Edit.Agree (Alike n) (Edit.reading fun _ => o.build) (Edit.reading fun _ => o.build) :=
    Edit.agree_reading fun _ _ _ => rfl
  cases c with
  | set i x => exact done (Vect.agree_set i x)
  | setSlot i x => exact hc.elim
  | setLabel label x => exact done (Vect.agree_setLabel label x)
  | bindLabel label i x => exact done (Vect.agree_bindLabel label i x)
  | setName name => exact done (Edit.agree_modify fun _ _ h => h.withName name)
  | setBindings b => exact done (Edit.agree_modify fun _ _ h => h.withBindings rfl)
  | setElement i x => exact Edit.agree_bind (Vect.agree_setElement i x) fun e => Edit.agree_pure _
  | assignValue x => exact done (Vect.agree_setEach fun _ _ _ _ _ => rfl)
  | assignList xs => exact done (Vect.agree_assignList xs)
  | assignFrom other => exact Edit.agree_bind (operand other) fun o => done (Vect.agree_assignFrom o)
  | assignMap f => exact done (Vect.agree_setEach fun i hi v w h => by rw [h.slot hi])
  | assignMapScalar f x => exact done (Vect.agree_setEach fun i hi v w h => by rw [h.slot hi])
  | assignZip other f => exact Edit.agree_bind (operand other) fun o => done (Vect.agree_assignZip hc o)

end Script

/-- Steps that show nothing of how the slots are stored. Scripts on fresh values are free. -/
def Step.IsPlain : Step → Prop
  | ask q => q.IsPlain
  | write c => c.IsPlain
  | derive d _ => d.IsPlain
  | outer _ _ => True
  | _ => False

open Vect (Alike)

theorem Step.run_alike {n : Nat} {v w : Vect} (h : Alike n v w) {s : Step} (hs : s.IsPlain) :
    (s.run v).1 = (s.run w).1 ∧ Alike n (s.run v).2 (s.run w).2 := by
  cases s with
  | ask q =>
    refine ⟨?_, h⟩
    simp only [Step.run, q.answer_alike h hs]
  | write c =>
    obtain ⟨ha, hr⟩ := c.agree_edit hs v w h
    refine ⟨?_, hr⟩
    simp only [Step.run, ha, hr.snapshot]
  | derive d next =>
    unfold Step.run
    rw [d.apply_alike h hs]
    split <;> exact ⟨rfl, h⟩
  | outer other next =>
    unfold Step.run
    rw [show v.outer = w.outer from funext h.outer]
    split <;> exact ⟨rfl, h⟩
  | _ => exact hs.elim

theorem Step.runAll_alike {n : Nat} {v w : Vect} (h : Alike n v w) {steps : List Step}
    (hs : ∀ s ∈ steps, s.IsPlain) :
    (Step.runAll steps v).1 = (Step.runAll steps w).1 ∧
      Alike n (Step.runAll steps v).2 (Step.runAll steps w).2 := by
  induction steps generalizing v w with
  | nil => exact ⟨rfl, h⟩
  | cons s rest ih =>
    obtain ⟨hr, h₁⟩ := Step.run_alike h (hs s List.mem_cons_self)
    obtain ⟨hrs, h₂⟩ := ih h₁ fun t ht => hs t (List.mem_cons_of_mem s ht)
    refine ⟨?_, h₂⟩
    simp only [Step.runAll, hr, hrs]

/-! ## Windows -/

theorem Vect.windows_spec {u v : Vect} {ws : List Window} (h : u.windows ws = .ok v) :
    v.root = u.root ∧ v.base = u.base + (ws.map (·.offset)).sum ∧ (ws ≠ [] → v.ownCache = .empty) := by
  unfold Vect.windows at h
  induction ws generalizing u with
  | nil =>
    cases h
    exact ⟨rfl, rfl, fun hn => absurd rfl hn⟩
  | cons w ws ih =>
    rw [List.foldlM_cons] at h
    obtain ⟨u', hu, h⟩ := Edit.bind_eq_ok h
    unfold Vect.window at hu
    split at hu
    · cases hu
    · split at hu
      · cases hu
      · cases hu
        obtain ⟨hroot, hbase, hcache⟩ := ih h
        refine ⟨hroot, ?_, fun _ => ?_⟩
        · rw [hbase, List.map_cons, List.sum_cons, Vect.base]
          omega
        · cases ws with
          | nil =>
            cases h
            rfl
          | cons _ _ => exact hcache (List.cons_ne_nil _ _)

/-- A window, however deep, and contiguous storage made from the slots it shows, under its
    name and bindings, reply the same to every plain script and come to show the same. -/
theorem window_acts_as_copy {root : Dense} {ws : List Window} {v : Vect} (hv : (Vect.dense root).windows ws = .ok v)
    (hws : ws ≠ []) {steps : List Step} (hs : ∀ s ∈ steps, s.IsPlain) :
    let shown := (root.toList.drop (ws.map (·.offset)).sum).take v.size
    let copy : Dense := { Dense.ofList shown with name := v.name, bindings := v.bindings }
    (Step.runAll steps v).1 = (Step.runAll steps (.dense copy)).1 ∧
      (Step.runAll steps v).2.snapshot = (Step.runAll steps (.dense copy)).2.snapshot := by
  intro shown copy
  obtain ⟨hroot, hbase, hcache⟩ := Vect.windows_spec hv
  have hwf : v.WellFormed := Vect.wellFormed_windows (v := .dense root) trivial hv
  have hshown : v.slots = shown := by
    rw [Vect.slots_eq_root hwf, hroot, hbase]
    show (root.toList.drop (0 + _)).take _ = _
    rw [Nat.zero_add]
  have hslots : (Vect.dense copy).slots = shown := rfl
  have h : Alike v.size v (.dense copy) := {
    wf := hwf
    wf' := trivial
    size := rfl
    size' := by rw [← Vect.length_slots (v := .dense copy) trivial, hslots, ← hshown, Vect.length_slots hwf]
    slots := hshown.trans hslots.symm
    name := rfl
    bindings := rfl
    cache := hcache hws
    cache' := rfl }
  obtain ⟨hr, h'⟩ := Step.runAll_alike h hs
  exact ⟨hr, h'.snapshot⟩

/-- Two windows over storage with a name, a NaN, a negative zero and a cached length. The
    script writes, fails to write, binds a label and derives from what it has written. -/
theorem inner_window_acts_as_copy :
    let root : Dense := { Dense.ofList [1, 0 / 0, Binary64.negZero, 3, 7] with name := some "root", cache := ⟨some 5⟩ }
    let ws : List Window := [⟨1, 4, some "outer", none⟩, ⟨1, 2, some "inner", some .empty⟩]
    let v : Vect := .view (.view (.dense root) ⟨1, 4, some "outer", none⟩) ⟨1, 2, some "inner", some .empty⟩
    let steps : List Step := [.write (.set 2 9), .write (.bindLabel "a" 0 4), .ask (.getLabel "a"),
      .derive (.addScalar 1) [.lengthSquared, .ask .cacheFilled], .ask (.encode ⟨false, true⟩)]
    let copy : Dense := { Dense.ofList [Binary64.negZero, 3] with name := some "inner", bindings := some .empty }
    (Vect.dense root).windows ws = .ok v ∧ (Step.runAll steps v).1 = (Step.runAll steps (.dense copy)).1 := by
  intro root ws v steps copy
  have hv : (Vect.dense root).windows ws = .ok v := rfl
  have hs : ∀ s ∈ steps, s.IsPlain := by
    simp [steps, Step.IsPlain, Write.IsPlain, Query.IsPlain, Derivation.IsPlain]
  exact ⟨hv, (window_acts_as_copy hv (List.cons_ne_nil _ _) hs).1⟩

end FeatureVector

/-
  FeatureVector.Proofs.NestedWindows — windows inside windows are one window on the storage,
  and what is done to the innermost stays inside it.

  `v.through ws` is a vector seen through windows, the outermost first. Their offsets add up
  (`Window.shift`), and the last one says how many slots are left (`Window.extent`).

  - `windows_eq_ok_iff`, `windows_error`: windows open exactly when each lies inside the one
    before (`Window.Nested`), and the first that does not decides the fault.
  - `slot_through`, `store_through`, `nonZero_through`: slot `i` behind the windows is slot
    `shift + i` of the storage, for reads, writes and walks.
  - `Confined`: a vector that came of the innermost window is the same chain over storage
    that differs only inside that window. Every change keeps this (`steady_confined`), also
    a script with windows further in (`Step.run_confined`) and any run (`Evolves.confined`).
  - `nested_windows_collapse`: all of it for windows on contiguous storage.
-/
import FeatureVector.Proofs.CheckedEdits

namespace FeatureVector

/-! ## Lists of windows -/

namespace Window

/-- Each window lies inside the one before, the first inside `n` slots. -/
def Nested (n : Nat) : List Window → Prop
  | [] => True
  | w :: ws => w.offset + w.length ≤ n ∧ Nested w.length ws

/-- The number of slots the last window shows, or `n` without windows. -/
def extent (n : Nat) : List Window → Nat
  | [] => n
  | w :: ws => extent w.length ws

/-- The sum of the offsets: where the slots that are shown begin. -/
def shift : List Window → Nat
  | [] => 0
  | w :: ws => w.offset + shift ws

@[simp] theorem shift_append (ws ws' : List Window) : shift (ws ++ ws') = shift ws + shift ws' := by
  induction ws with
  | nil => simp [shift]
  | cons w ws ih => simp only [List.cons_append, shift, ih, Nat.add_assoc]

@[simp] theorem extent_append (n : Nat) (ws ws' : List Window) :
    extent n (ws ++ ws') = extent (extent n ws) ws' := by
  induction ws generalizing n with
  | nil => rfl
  | cons w ws ih => exact ih w.length

theorem nested_append {n : Nat} {ws ws' : List Window} :
    Nested n (ws ++ ws') ↔ Nested n ws ∧ Nested (extent n ws) ws' := by
  induction ws generalizing n with
  | nil => simp [Nested, extent]
  | cons w ws ih => simp only [List.cons_append, Nested, extent, ih, and_assoc]

theorem nested_concat {n : Nat} {ws : List Window} {w : Window} :
    Nested n (ws ++ [w]) ↔ Nested n ws ∧ w.offset + w.length ≤ extent n ws := by
  rw [nested_append]
  simp [Nested]

/-- What is shown lies inside the `n` slots. -/
theorem shift_add_extent_le {n : Nat} {ws : List Window} (h : Nested n ws) : shift ws + extent n ws ≤ n := by
  induction ws generalizing n with
  | nil => simp [shift, extent]
  | cons w ws ih =>
    have hw := h.1
    have hrest := ih h.2
    simp only [shift, extent]
    omega

end Window

open Window (Nested extent shift)

/-! ## Vectors behind windows -/

namespace Vect

/-- The vector seen through windows, the outermost first. -/
def through (v : Vect) (ws : List Window) : Vect := ws.foldl view v

theorem through_cons (v : Vect) (w : Window) (ws : List Window) : v.through (w :: ws) = (view v w).through ws := rfl

theorem through_concat (v : Vect) (ws : List Window) (w : Window) :
    v.through (ws ++ [w]) = view (v.through ws) w := by
  unfold through
  rw [List.foldl_append]
  rfl

@[simp] theorem size_through (v : Vect) (ws : List Window) : (v.through ws).size = extent v.size ws := by
  induction ws generalizing v with
  | nil => rfl
  | cons w ws ih => exact ih (view v w)

@[simp] theorem root_through (v : Vect) (ws : List Window) : (v.through ws).root = v.root := by
  induction ws generalizing v with
  | nil => rfl
  | cons w ws ih => exact ih (view v w)

@[simp] theorem base_through (v : Vect) (ws : List Window) : (v.through ws).base = v.base + shift ws := by
  induction ws generalizing v with
  | nil => rfl
  | cons w ws ih => simp only [through_cons, ih, base, shift, Nat.add_assoc]

theorem wellFormed_through {v : Vect} (h : v.WellFormed) {ws : List Window} (hn : Nested v.size ws) :
    (v.through ws).WellFormed := by
  induction ws generalizing v with
  | nil => exact h
  | cons w ws ih => exact ih (v := view v w) ⟨hn.1, h⟩ hn.2

theorem slot_through (v : Vect) (ws : List Window) (i : Nat) : (v.through ws).slot i = v.slot (shift ws + i) := by
  induction ws generalizing v with
  | nil => simp [through, shift]
  | cons w ws ih => simp only [through_cons, ih, slot, shift, Nat.add_assoc]

theorem store_through (v : Vect) (ws : List Window) (i : Nat) (x : Float) :
    (v.through ws).store i x = (v.store (shift ws + i) x).through ws := by
  induction ws generalizing v with
  | nil => simp [through, shift]
  | cons w ws ih => simp only [through_cons, ih, store, shift, Nat.add_assoc]

/-- The walk through all windows is the walk through one. -/
theorem nonZero_through {v : Vect} (h : v.WellFormed) {ws : List Window} (hn : Nested v.size ws)
    (name : Option String) (b : Option Bindings) :
    (v.through ws).nonZero = (view v ⟨shift ws, extent v.size ws, name, b⟩).nonZero := by
  have hwf := wellFormed_through h hn
  have hwf' : (view v ⟨shift ws, extent v.size ws, name, b⟩).WellFormed := ⟨Window.shift_add_extent_le hn, h⟩
  have hslots : (v.through ws).slots = (view v ⟨shift ws, extent v.size ws, name, b⟩).slots := by
    rw [slots_eq_root hwf, slots_eq_root hwf', root_through, base_through, size_through]
    rfl
  rw [nonZero_eq hwf, nonZero_eq hwf', hslots]

/-! ## Opening -/

theorem window_of_le {v : Vect} {w : Window} (h : w.offset + w.length ≤ v.size) : v.window w = .ok (view v w) := by
  unfold window
  rw [if_neg (by omega), if_neg (by omega)]

theorem window_of_longer {v : Vect} {w : Window} (h : v.size < w.length) :
    v.window w = .error (.cardinality v.size w.length) := if_pos h

theorem window_of_past {v : Vect} {w : Window} (hle : w.length ≤ v.size) (h : v.size < w.offset + w.length) :
    v.window w = .error (.index (min (w.offset + w.length) maxIndex) v.size) := by
  unfold window
  rw [if_neg (by omega), if_pos h]

theorem window_eq_ok {v u : Vect} {w : Window} (h : v.window w = .ok u) :
    w.offset + w.length ≤ v.size ∧ u = view v w := by
  by_cases hle : w.offset + w.length ≤ v.size
  · rw [window_of_le hle] at h
    exact ⟨hle, (Except.ok.inj h).symm⟩
  · by_cases hlong : v.size < w.length
    · rw [window_of_longer hlong] at h
      cases h
    · rw [window_of_past (by omega) (by omega)] at h
      cases h

theorem windows_eq_ok_iff {v u : Vect} {ws : List Window} :
    v.windows ws = .ok u ↔ Nested v.size ws ∧ u = v.through ws := by
  unfold windows
  induction ws generalizing v with
  | nil => simp [Nested, through, pure, Except.pure, eq_comm]
  | cons w ws ih =>
    rw [List.foldlM_cons]
    constructor
    · intro h
      obtain ⟨u', hu, h⟩ := Edit.bind_eq_ok h
      obtain ⟨hle, rfl⟩ := window_eq_ok hu
      obtain ⟨hn, rfl⟩ := ih.mp h
      exact ⟨⟨hle, hn⟩, rfl⟩
    · rintro ⟨⟨hle, hn⟩, rfl⟩
      rw [window_of_le hle]
      exact ih.mpr ⟨hn, rfl⟩

/-- The first window that does not fit decides. -/
theorem windows_error {v : Vect} {outer rest : List Window} {w : Window} {f : Fault}
    (hn : Nested v.size outer) (hw : (v.through outer).window w = .error f) :
    v.windows (outer ++ w :: rest) = .error f := by
  have houter : outer.foldlM window v = .ok (v.through outer) := windows_eq_ok_iff.mpr ⟨hn, rfl⟩
  unfold windows
  rw [List.foldlM_append, houter]
  show (v.through outer).window w >>= _ = _
  rw [hw]
  rfl

end Vect

/-! ## Confinement -/

/-- Nothing but slots from `lo` up to `hi`, and the cached length, differs. -/
structure Dense.AgreesOutside (lo hi : Nat) (d d' : Dense) : Prop where
  size : d'.size = d.size
  name : d'.name = d.name
  bindings : d'.bindings = d.bindings
  slots : ∀ i, i < lo ∨ hi ≤ i → d'.slots[i]? = d.slots[i]?

namespace Dense.AgreesOutside

variable {lo hi lo' hi' : Nat} {d d' d'' : Dense}

theorem refl (lo hi : Nat) (d : Dense) : AgreesOutside lo hi d d := ⟨rfl, rfl, rfl, fun _ _ => rfl⟩

theorem trans (h : AgreesOutside lo hi d d') (h' : AgreesOutside lo hi d' d'') : AgreesOutside lo hi d d'' where
  size := h'.size.trans h.size
  name := h'.name.trans h.name
  bindings := h'.bindings.trans h.bindings
  slots := fun i hi => (h'.slots i hi).trans (h.slots i hi)

/-- A change in a part is a change in the whole. -/
theorem widen (h : AgreesOutside lo hi d d') (hlo : lo' ≤ lo) (hhi : hi ≤ hi') : AgreesOutside lo' hi' d d' where
  size := h.size
  name := h.name
  bindings := h.bindings
  slots := by
    intro i hi
    exact h.slots i (by omega)

theorem store {i : Nat} (hlo : lo ≤ i) (hhi : i < hi) (x : Float) :
    AgreesOutside lo hi d { d with slots := d.slots.setIfInBounds i x, cache := .empty } where
  size := Array.size_setIfInBounds
  name := rfl
  bindings := rfl
  slots := by
    intro j hj
    exact Array.getElem?_setIfInBounds_ne (by omega)

end Dense.AgreesOutside

namespace Vect

/-- The vector is seen through the windows `outer` and a last one in the place of `w`, which
    may have another name and other bindings, over storage that differs from `root` only in
    what `w` shows. -/
def Confined (root : Dense) (outer : List Window) (w : Window) (v : Vect) : Prop :=
  ∃ root' w', v = (dense root').through (outer ++ [w']) ∧ w'.offset = w.offset ∧ w'.length = w.length ∧
    root.AgreesOutside (shift outer + w.offset) (shift outer + w.offset + w.length) root'

theorem confined_self (root : Dense) (outer : List Window) (w : Window) :
    Confined root outer w ((dense root).through (outer ++ [w])) :=
  ⟨root, w, rfl, rfl, rfl, .refl _ _ _⟩

/-- A chain over other storage of the same size has its windows in the same places. -/
theorem nested_of_agrees {root root' : Dense} {outer : List Window} {w w' : Window} {lo hi : Nat}
    (h : Nested root.size (outer ++ [w])) (hoff : w'.offset = w.offset) (hlen : w'.length = w.length)
    (ha : root.AgreesOutside lo hi root') : Nested root'.size (outer ++ [w']) := by
  rw [Window.nested_concat] at h ⊢
  rw [ha.size, hoff, hlen]
  exact h

theorem steady_confined {root : Dense} {outer : List Window} {w : Window} (h : Nested root.size (outer ++ [w])) :
    Steady w.length (Confined root outer w) where
  wellFormed := by
    rintro v ⟨root', w', rfl, hoff, hlen, ha⟩
    exact wellFormed_through (v := dense root') trivial (nested_of_agrees h hoff hlen ha)
  size := by
    rintro v ⟨root', w', rfl, -, hlen, -⟩
    rw [size_through, Window.extent_append]
    exact hlen
  store := by
    rintro v ⟨root', w', rfl, hoff, hlen, ha⟩ i hi x
    refine ⟨_, w', store_through _ _ i x, hoff, hlen, ha.trans (.store ?_ ?_ x)⟩
    · simp only [Window.shift_append, shift]
      omega
    · simp only [Window.shift_append, shift]
      omega
  withName := by
    rintro v ⟨root', w', rfl, hoff, hlen, ha⟩ name
    refine ⟨root', { w' with name }, ?_, hoff, hlen, ha⟩
    rw [through_concat, through_concat]
    rfl
  withBindings := by
    rintro v ⟨root', w', rfl, hoff, hlen, ha⟩ b
    refine ⟨root', { w' with bindings := b }, ?_, hoff, hlen, ha⟩
    rw [through_concat, through_concat]
    rfl
  dropCache := by
    rintro v ⟨root', w', rfl, hoff, hlen, ha⟩
    refine ⟨root', w', ?_, hoff, hlen, ha⟩
    rw [through_concat]
    rfl

/-- What was confined to a window is, once the window is closed, confined to the vector it was
    opened on. -/
theorem Confined.release {root root' : Dense} {outer : List Window} {w w' u : Window} {v : Vect}
    (hoff : w'.offset = w.offset) (hlen : w'.length = w.length)
    (ha : root.AgreesOutside (shift outer + w.offset) (shift outer + w.offset + w.length) root')
    (hu : u.offset + u.length ≤ w'.length) (hv : Confined root' (outer ++ [w']) u v) :
    Confined root outer w v.release := by
  obtain ⟨root'', u', rfl, -, -, ha'⟩ := hv
  refine ⟨root'', w', ?_, hoff, hlen, ha.trans (ha'.widen ?_ ?_)⟩
  · rw [through_concat]
    rfl
  · simp only [Window.shift_append, shift]
    omega
  · simp only [Window.shift_append, shift]
    omega

end Vect

/-! ## Runs -/

mutual

/-- Unchecked writes of the step, and of scripts on windows inside it, name slots that the
    vector has. All else checks what it is given. -/
def Step.StaysInside (n : Nat) : Step → Prop
  | .write w => w.InRange n
  | .within w steps => Step.AllStayInside w.length steps
  | _ => True

def Step.AllStayInside (n : Nat) : List Step → Prop
  | [] => True
  | s :: rest => s.StaysInside n ∧ Step.AllStayInside n rest

end

mutual

theorem Step.run_confined (s : Step) {root : Dense} {outer : List Window} {w : Window} {v : Vect}
    (hs : s.StaysInside w.length) (hn : Nested root.size (outer ++ [w])) (hv : v.Confined root outer w) :
    (s.run v).2.Confined root outer w := by
  cases s with
  | ask q => exact hv
  | lengthSquared =>
    -- a window keeps no length, so this is a mere read
    obtain ⟨root', w', rfl, hoff, hlen, ha⟩ := hv
    refine ⟨root', w', ?_, hoff, hlen, ha⟩
    rw [Vect.through_concat]
    show ((Edit.reading Vect.dotSelf).outcome _).2 = _
    rw [Edit.outcome_reading]
  | write c => exact (Script.Write.guarded_edit (Vect.steady_confined hn) hs).keeps v hv
  | addTo target => exact hv
  | within u steps =>
    unfold Step.run
    split
    · exact hv
    · rename_i inner hinner
      obtain ⟨root', w', rfl, hoff, hlen, ha⟩ := hv
      obtain ⟨hle, rfl⟩ := Vect.window_eq_ok hinner
      have hn' := Vect.nested_of_agrees hn hoff hlen ha
      have hsize : u.offset + u.length ≤ extent root'.size (outer ++ [w']) := by
        rw [Vect.size_through] at hle
        exact hle
      have hu : u.offset + u.length ≤ w'.length := by
        rw [Window.extent_append] at hsize
        exact hsize
      rw [← Vect.through_concat]
      exact Vect.Confined.release hoff hlen ha hu
        (Step.runAll_confined steps hs (Window.nested_concat.mpr ⟨hn', hsize⟩) (Vect.confined_self root' _ u))
  | derive d next =>
    unfold Step.run
    split <;> exact hv
  | outer other next =>
    unfold Step.run
    split <;> exact hv
  | zeroMatrix rows cols next => exact hv

theorem Step.runAll_confined (steps : List Step) {root : Dense} {outer : List Window} {w : Window} {v : Vect}
    (hs : Step.AllStayInside w.length steps) (hn : Nested root.size (outer ++ [w])) (hv : v.Confined root outer w) :
    (Step.runAll steps v).2.Confined root outer w := by
  cases steps with
  | nil => exact hv
  | cons s rest => exact Step.runAll_confined rest hs.2 hn (Step.run_confined s hs.1 hn hv)

end

/-- What may become of a vector: steps are run on it, and other vectors are added to it,
    whether they succeed or fail. -/
inductive Evolves : Vect → Vect → Prop
  | refl (v : Vect) : Evolves v v
  | step {v u : Vect} (s : Step) : Evolves v u → s.StaysInside u.size → Evolves v (s.run u).2
  | target {v u t : Vect} : Evolves v u → t.WellFormed → Evolves v (t.addTo.outcome u).2

theorem Evolves.confined {root : Dense} {outer : List Window} {w : Window} {v v' : Vect} (h : Evolves v v')
    (hn : Nested root.size (outer ++ [w])) (hv : v.Confined root outer w) : v'.Confined root outer w := by
  have hP := Vect.steady_confined hn
  induction h with
  | refl => exact hv
  | step s _ hs ih => exact Step.run_confined s (hP.size _ ih ▸ hs) hn ih
  | target _ ht ih => exact (Vect.guarded_addTo hP ht).keeps _ ih

open Vect (through) in
/-- Windows on contiguous storage open exactly when each lies inside the one before, and else
    fail for the first that does not. If they open, slot `i` of the innermost is slot
    `shift + i` of the storage for reads, writes and walks. Whatever is then done to it leaves
    the same windows over storage that differs inside the innermost only, which itself may
    have got another name and other bindings. -/
theorem nested_windows_collapse (root : Dense) (ws : List Window) :
    ((∃ v, (Vect.dense root).windows ws = .ok v) ↔ Nested root.size ws) ∧
    (∀ outer w rest, ws = outer ++ w :: rest → Nested root.size outer →
      let size := extent root.size outer
      (size < w.length → (Vect.dense root).windows ws = .error (.cardinality size w.length)) ∧
      (w.length ≤ size → size < w.offset + w.length →
        (Vect.dense root).windows ws = .error (.index (min (w.offset + w.length) maxIndex) size))) ∧
    ∀ v, (Vect.dense root).windows ws = .ok v →
      v.size = extent root.size ws ∧ shift ws + v.size ≤ root.size ∧
      (∀ i < v.size, v.slot i = root.slot (shift ws + i) ∧ v.get i = root.slot (shift ws + i)) ∧
      (∀ i < v.size, ∀ x,
        let root' := { root with slots := root.slots.setIfInBounds (shift ws + i) x, cache := .empty }
        (Vect.setSlot i x).outcome v = (.ok (), (Vect.dense root').through ws) ∧
          (Vect.set i x).outcome v = (.ok (), (Vect.dense root').through ws)) ∧
      v.nonZero = (Vect.view (.dense root) ⟨shift ws, v.size, none, none⟩).nonZero ∧
      ∀ outer w, ws = outer ++ [w] → ∀ v', Evolves v v' →
        ∃ root' w', v' = (Vect.dense root').through (outer ++ [w']) ∧
          w'.offset = w.offset ∧ w'.length = w.length ∧
          root'.size = root.size ∧ root'.name = root.name ∧ root'.bindings = root.bindings ∧
          ∀ i, i < shift ws ∨ shift ws + v.size ≤ i → root'.slots[i]? = root.slots[i]? := by
  refine ⟨?_, ?_, ?_⟩
  · constructor
    · rintro ⟨v, hv⟩
      exact (Vect.windows_eq_ok_iff.mp hv).1
    · intro hn
      exact ⟨_, Vect.windows_eq_ok_iff.mpr ⟨hn, rfl⟩⟩
  · rintro outer w rest rfl hn size
    have hsize : ((Vect.dense root).through outer).size = size := Vect.size_through _ _
    constructor
    · intro hlong
      exact Vect.windows_error hn (by rw [Vect.window_of_longer (by omega), hsize])
    · intro hle hpast
      exact Vect.windows_error hn (by rw [Vect.window_of_past (by omega) (by omega), hsize])
  · intro v hv
    obtain ⟨hn, rfl⟩ := Vect.windows_eq_ok_iff.mp hv
    have hwf := Vect.wellFormed_through (v := .dense root) trivial hn
    have hsize : ((Vect.dense root).through ws).size = extent root.size ws := Vect.size_through _ _
    have hread (i : Nat) : ((Vect.dense root).through ws).slot i = root.slot (shift ws + i) :=
      Vect.slot_through _ _ i
    refine ⟨hsize, hsize ▸ Window.shift_add_extent_le hn, fun i hi => ⟨hread i, ?_⟩, fun i hi x => ?_, ?_, ?_⟩
    · unfold Vect.get
      rw [checkIndex_eq_ok.mpr hi]
      exact hread i
    · intro root'
      have hset := Vect.outcome_setSlot hwf hi x
      rw [Vect.store_through] at hset
      refine ⟨hset, ?_⟩
      unfold Vect.set
      rw [Edit.outcome_bind, Edit.outcome_reading, checkIndex_eq_ok.mpr hi]
      exact hset
    · rw [Vect.nonZero_through (v := .dense root) trivial hn none none, hsize]
      rfl
    · rintro outer w rfl v' hev
      obtain ⟨root', w', rfl, hoff, hlen, ha⟩ := hev.confined hn (Vect.confined_self root outer w)
      refine ⟨root', w', rfl, hoff, hlen, ha.size, ha.name, ha.bindings, fun i hi => ha.slots i ?_⟩
      rw [hsize] at hi
      simp only [Window.shift_append, Window.extent_append, shift, extent] at hi
      omega

/-- A named window in a named window on named storage. The script on the inner one binds a
    label, fails to write past its end and renames it; then storage is added to it. -/
theorem inner_window_changes_stay_inside :
    let root : Dense := { Dense.ofList [1, 2, 3, 4, 5] with name := some "root", cache := ⟨some 55⟩ }
    let ws : List Window := [⟨1, 4, some "outer", some .empty⟩, ⟨1, 2, some "inner", none⟩]
    let v := (Vect.dense root).through ws
    let steps : List Step := [.write (.bindLabel "a" 1 9), .write (.set 2 7), .write (.setName none)]
    let v' := ((Vect.dense (Dense.ofList [1, 1])).addTo.outcome (Step.runAll steps v).2).2
    (Vect.dense root).windows ws = .ok v ∧ v'.root.toList = [1, 2, 4, 10, 5] ∧
      ∃ root' w', v' = (Vect.dense root').through [⟨1, 4, some "outer", some .empty⟩, w'] ∧
        root'.name = some "root" ∧ ∀ i, i < 2 ∨ 4 ≤ i → root'.slots[i]? = root.slots[i]? := by
  intro root ws v steps v'
  have hv : (Vect.dense root).windows ws = .ok v := rfl
  have hev : Evolves v v' :=
    .target (.step (.write (.setName none)) (.step (.write (.set 2 7))
      (.step (.write (.bindLabel "a" 1 9)) (.refl v) trivial) trivial) trivial) trivial
  obtain ⟨-, -, hopened⟩ := nested_windows_collapse root ws
  obtain ⟨-, -, -, -, -, hframe⟩ := hopened v hv
  obtain ⟨root', w', heq, -, -, -, hname, -, hslots⟩ := hframe [_] _ rfl v' hev
  exact ⟨hv, by decide +kernel, root', w', heq, hname, hslots⟩

end FeatureVector

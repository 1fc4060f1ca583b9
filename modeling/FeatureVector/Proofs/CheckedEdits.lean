/-
  FeatureVector.Proofs.CheckedEdits — every checked change fails before it has changed
  anything, and then exactly for what it checks.

  `Vect.Steady n P`: a property of vectors of `n` slots that survives what changes are made
  of: a store into one of the `n` slots, a new name, new bindings, the drop of the cached
  length. For every such property
  - the loops over all slots and over the elements of another vector of the same size do not
    fail and keep it (`succeeds_setEach`, `succeeds_combine`);
  - each checked change is guarded by its check (`guarded_set`, `guarded_setLabel`,
    `guarded_assignZip`, …), for a write of a script by `Write.check` (`Write.guarded_edit`).
  The same for the cells and rows of a matrix (`Matrix.guarded_set`, `Matrix.guarded_assignRow`).

  `failed_change_leaves_no_trace`: so a failed change leaves the slots, the cached length,
  the names and the bindings of the whole chain as they were, and sizes that differ are the
  only cause of failure of the changes that compare them.
-/
import FeatureVector.Proofs.Slots
import FeatureVector.Script.Run

namespace FeatureVector

open Script

theorem checkIndex_eq_ok {i n : Nat} : checkIndex i n = .ok () ↔ i < n := by
  unfold checkIndex
  split <;> simp [*]

theorem checkSize_eq_ok {m n : Nat} : checkSize m n = .ok () ↔ m = n := by
  unfold checkSize
  split <;> simp [*]

theorem checkSize_eq_error {m n : Nat} {f : Fault} : checkSize m n = .error f ↔ m ≠ n ∧ f = .cardinality m n := by
  unfold checkSize
  split <;> simp [*, eq_comm]

/-! ## Vectors -/

namespace Vect

@[simp] theorem size_withName (v : Vect) (name : Option String) : (v.withName name).size = v.size := by
  cases v <;> rfl

@[simp] theorem size_withBindings (v : Vect) (b : Option Bindings) : (v.withBindings b).size = v.size := by
  cases v <;> rfl

@[simp] theorem size_dropCache (v : Vect) : v.dropCache.size = v.size := by
  cases v <;> rfl

theorem wellFormed_withName {v : Vect} (h : v.WellFormed) (name : Option String) :
    (v.withName name).WellFormed := by
  cases v with
  | dense d => trivial
  | view p w => exact h

theorem wellFormed_withBindings {v : Vect} (h : v.WellFormed) (b : Option Bindings) :
    (v.withBindings b).WellFormed := by
  cases v with
  | dense d => trivial
  | view p w => exact h

theorem wellFormed_dropCache {v : Vect} (h : v.WellFormed) : v.dropCache.WellFormed := by
  cases v with
  | dense d => trivial
  | view p w => exact h

/-- A property of vectors of `n` slots that no checked change can end. -/
structure Steady (n : Nat) (P : Vect → Prop) : Prop where
  wellFormed : ∀ v, P v → v.WellFormed
  size : ∀ v, P v → v.size = n
  store : ∀ v, P v → ∀ i < n, ∀ x, P (v.store i x)
  withName : ∀ v, P v → ∀ name, P (v.withName name)
  withBindings : ∀ v, P v → ∀ b, P (v.withBindings b)
  dropCache : ∀ v, P v → P v.dropCache

/-- The least of them: to be a vector of `n` slots. -/
def Sized (n : Nat) (v : Vect) : Prop := v.WellFormed ∧ v.size = n

theorem steady_sized (n : Nat) : Steady n (Sized n) where
  wellFormed := fun _ h => h.1
  size := fun _ h => h.2
  store := fun _ h i _ x => ⟨wellFormed_store h.1 i x, by rw [size_store, h.2]⟩
  withName := fun _ h name => ⟨wellFormed_withName h.1 name, by rw [size_withName, h.2]⟩
  withBindings := fun _ h b => ⟨wellFormed_withBindings h.1 b, by rw [size_withBindings, h.2]⟩
  dropCache := fun _ h => ⟨wellFormed_dropCache h.1, by rw [size_dropCache, h.2]⟩

section Steady

variable {n : Nat} {P : Vect → Prop} (hP : Steady n P)

include hP

/-! One slot. -/

theorem exists_slot {v : Vect} (h : P v) {i : Nat} (hi : i < n) : ∃ x, v.slot i = .ok x :=
  ⟨_, slot_of_lt (hP.wellFormed v h) (by rw [hP.size v h]; exact hi)⟩

theorem succeeds_setSlot {i : Nat} (hi : i < n) (x : Float) : Edit.Succeeds P (setSlot i x) := by
  intro v h
  have hout := outcome_setSlot (hP.wellFormed v h) (by rw [hP.size v h]; exact hi) x
  exact ⟨(), v.store i x, hout, hP.store v h i hi x⟩

theorem succeeds_setName (name : Option String) : Edit.Succeeds P (setName name) :=
  Edit.succeeds_modify fun v h => hP.withName v h name

theorem succeeds_setBindings (b : Option Bindings) : Edit.Succeeds P (setBindings b) :=
  Edit.succeeds_modify fun v h => hP.withBindings v h b

/-- Behind a check of the index there is nothing to fail but what fails in range. -/
theorem guarded_checkIndex {i : Nat} {α : Type} {e : Edit Vect α} (he : i < n → Edit.Succeeds P e) :
    Edit.Guarded P (fun v => checkIndex i v.size) (do Edit.reading fun v : Vect => checkIndex i v.size; e) := by
  refine Edit.guarded_reading fun v _ h hc => ?_
  rw [hP.size v h] at hc
  exact he (checkIndex_eq_ok.mp hc) v h

theorem guarded_set (i : Nat) (x : Float) : Edit.Guarded P (fun v => checkIndex i v.size) (set i x) :=
  guarded_checkIndex hP fun hi => succeeds_setSlot hP hi x

theorem guarded_setElement (i : Nat) (x : Float) :
    Edit.Guarded P (fun v => checkIndex i v.size) (setElement i x) := by
  refine guarded_checkIndex hP fun hi => Edit.succeeds_bind (succeeds_setSlot hP hi x) fun _ => ?_
  refine Edit.succeeds_reading fun v h => ?_
  obtain ⟨y, hy⟩ := exists_slot hP h hi
  exact ⟨⟨i, y⟩, by rw [hy]; rfl⟩

/-- The label is looked up first, then the index it stands for. -/
def checkLabel (label : String) (v : Vect) : Except Fault Unit := do
  checkIndex (← v.resolve label) v.size

theorem guarded_setLabel (label : String) (x : Float) :
    Edit.Guarded P (checkLabel label) (setLabel label x) :=
  Edit.guarded_reading_bind fun i => guarded_set hP i x

theorem guarded_bindLabel (label : String) (i : Nat) (x : Float) :
    Edit.Guarded P (fun v => checkIndex i v.size) (bindLabel label i x) :=
  Edit.guarded_bind (guarded_set hP i x) fun _ => Edit.succeeds_modify fun v h => hP.withBindings v h _

/-! All slots. -/

theorem succeeds_setEach {value : Nat → Vect → Except Fault Float}
    (hv : ∀ i < n, ∀ v, P v → ∃ x, value i v = .ok x) : Edit.Succeeds P (setEach value) := by
  intro v h
  unfold setEach
  rw [Edit.outcome_bind, Edit.outcome_reading, hP.size v h]
  have hloop : Edit.Succeeds P ((List.range n).forM fun i => do setSlot i (← Edit.reading (value i))) := by
    refine Edit.succeeds_forM fun i hi => ?_
    have hi' : i < n := List.mem_range.mp hi
    exact Edit.succeeds_bind (Edit.succeeds_reading (hv i hi')) fun x => succeeds_setSlot hP hi' x
  exact hloop v h

theorem succeeds_combine {es : List Element} (he : ∀ e ∈ es, e.index < n) (f : Float → Element → Float) :
    Edit.Succeeds P (combine es f) := by
  refine Edit.succeeds_forM fun e hmem => ?_
  have hi : e.index < n := he e hmem
  exact Edit.succeeds_bind (Edit.succeeds_reading fun v h => exists_slot hP h hi) fun x =>
    succeeds_setSlot hP hi (f x e)

theorem succeeds_assignValue (x : Float) : Edit.Succeeds P (assignValue x) :=
  succeeds_setEach hP fun _ _ _ _ => ⟨x, rfl⟩

theorem succeeds_assignMap (f : Float → Float) : Edit.Succeeds P (assignMap f) := by
  refine succeeds_setEach hP fun i hi v h => ?_
  obtain ⟨x, hx⟩ := exists_slot hP h hi
  exact ⟨f x, by rw [hx]; rfl⟩

theorem succeeds_assignMapScalar (f : BinaryFunction) (y : Float) : Edit.Succeeds P (assignMapScalar f y) := by
  refine succeeds_setEach hP fun i hi v h => ?_
  obtain ⟨x, hx⟩ := exists_slot hP h hi
  exact ⟨f.apply x y, by rw [hx]; rfl⟩

/-! Another operand, of the same size or not. -/

theorem guarded_requireSize {k : Nat} {α : Type} {e : Edit Vect α} (he : n = k → Edit.Succeeds P e) :
    Edit.Guarded P (fun v => checkSize v.size k) (do requireSize k; e) := by
  refine Edit.guarded_reading fun v _ h hc => ?_
  rw [hP.size v h] at hc
  exact he (checkSize_eq_ok.mp hc) v h

theorem guarded_assignList (xs : List Float) :
    Edit.Guarded P (fun v => checkSize v.size xs.length) (assignList xs) := by
  refine guarded_requireSize hP fun hn => Edit.succeeds_forM fun p hp => ?_
  obtain ⟨-, hlt, -⟩ := List.mem_zipIdx hp
  exact succeeds_setSlot hP (by omega) p.1

theorem guarded_assignFrom {o : Vect} (ho : o.WellFormed) :
    Edit.Guarded P (fun v => checkSize v.size o.size) (assignFrom o) :=
  guarded_requireSize hP fun hn => succeeds_setEach hP fun _ hi _ _ => ⟨_, slot_of_lt ho (hn ▸ hi)⟩

theorem guarded_assignZip {o : Vect} (ho : o.WellFormed) (f : BinaryFunction) :
    Edit.Guarded P (fun v => checkSize v.size o.size) (assignZip o f) := by
  refine guarded_requireSize hP fun hn => ?_
  have heach : Edit.Succeeds P (setEach fun i v => do return f.apply (← v.slot i) (← o.slot i)) := by
    refine succeeds_setEach hP fun i hi v h => ?_
    obtain ⟨x, hx⟩ := exists_slot hP h hi
    exact ⟨_, by rw [hx, slot_of_lt ho (hn ▸ hi)]; rfl⟩
  refine Edit.succeeds_bind (e := EStateM.get) (fun v h => ⟨v, v, rfl, h⟩) fun v => ?_
  cases v with
  | view p w => exact heach
  | dense d =>
    refine Edit.succeeds_bind (Edit.succeeds_modify hP.dropCache) fun _ => ?_
    by_cases hf : f.accumulating
    · simp only [hf, if_true]
      exact succeeds_combine hP (fun e he => hn ▸ index_lt_of_mem_nonZero ho he) _
    · simp only [hf]
      exact heach

/-- The vector added comes first in the comparison, the one changed second. -/
theorem guarded_addTo {o : Vect} (ho : o.WellFormed) :
    Edit.Guarded P (fun v => checkSize o.size v.size) o.addTo := by
  refine Edit.guarded_reading fun v _ h hc => ?_
  have hn : o.size = n := (checkSize_eq_ok.mp hc).trans (hP.size v h)
  have hloop {es : List Element} (he : ∀ e ∈ es, e.index < o.size) (f : Float → Element → Float) :
      Edit.Succeeds P (combine es f) := succeeds_combine hP (fun e hm => hn ▸ he e hm) f
  cases o with
  | view p w => exact hloop (fun e he => index_lt_of_mem_nonZero ho he) _ v h
  | dense d =>
    refine hloop (fun e he => ?_) _ v h
    have hindex := (Walk.index_mem_elements (Walk.toList_start .every d.toList ▸ he)).2
    rw [Nat.zero_add] at hindex
    exact hindex

end Steady

end Vect

/-! ## Matrices -/

namespace Matrix

/-- A row ends where the next one begins, inside the buffer. -/
theorem offset_add_cols_le {m : Matrix} {row : Nat} (hr : row < m.rows) : m.offset row 0 + m.cols ≤ m.data.size := by
  have hle : (row + 1) * m.cols ≤ m.rows * m.cols := Nat.mul_le_mul_right _ hr
  rw [Nat.add_mul, Nat.one_mul] at hle
  rw [m.size_data]
  exact hle

theorem offset_lt {m : Matrix} {row col : Nat} (hr : row < m.rows) (hc : col < m.cols) :
    m.offset row col < m.data.size :=
  Nat.lt_of_lt_of_le (Nat.add_lt_add_left hc _) (offset_add_cols_le hr)

/-- The shape, which no change of a matrix touches. -/
def Shaped (rows cols : Nat) (m : Matrix) : Prop := m.rows = rows ∧ m.cols = cols

variable {rows cols : Nat}

theorem succeeds_setCell {row col : Nat} (hr : row < rows) (hc : col < cols) (x : Float) :
    Edit.Succeeds (Shaped rows cols) (setCell row col x) := by
  rintro m ⟨rfl, rfl⟩
  have hlt := offset_lt hr hc
  refine ⟨(), m.write (m.offset row col) x hlt, ?_, rfl, rfl⟩
  unfold Edit.outcome setCell
  rw [dif_pos hlt]

theorem checkBounds_eq_ok {m : Matrix} {row col : Nat} :
    m.checkBounds row col = .ok () ↔ row < m.rows ∧ col < m.cols := by
  unfold checkBounds
  constructor
  · intro h
    obtain ⟨_, hr, hc⟩ := Edit.bind_eq_ok h
    exact ⟨checkIndex_eq_ok.mp hr, checkIndex_eq_ok.mp hc⟩
  · intro h
    rw [checkIndex_eq_ok.mpr h.1]
    exact checkIndex_eq_ok.mpr h.2

theorem guarded_set (row col : Nat) (x : Float) :
    Edit.Guarded (Shaped rows cols) (·.checkBounds row col) (set row col x) := by
  refine Edit.guarded_reading fun m _ h hc => ?_
  obtain ⟨hr, hc⟩ := checkBounds_eq_ok.mp hc
  exact succeeds_setCell (h.1 ▸ hr) (h.2 ▸ hc) x m h

/-- The width of a row is compared before its index. -/
def checkRow (row width : Nat) (m : Matrix) : Except Fault Unit := do
  checkSize m.cols width
  checkIndex row m.rows

theorem succeeds_storeSlot {row col : Nat} {v : Vect} (hv : v.WellFormed) (hr : row < rows) (hc : col < cols)
    (hcol : col < v.size) :
    Edit.Succeeds (Shaped rows cols) (do setCell row col (← Edit.reading fun _ => v.slot col)) :=
  Edit.succeeds_bind (Edit.succeeds_reading fun _ _ => ⟨_, Vect.slot_of_lt hv hcol⟩) fun x => succeeds_setCell hr hc x

theorem guarded_assignRow (row : Nat) {v : Vect} (hv : v.WellFormed) :
    Edit.Guarded (Shaped rows cols) (checkRow row v.size) (assignRow row v) := by
  have hcells (hwidth : cols = v.size) : Edit.Guarded (Shaped rows cols) (fun m => checkIndex row m.rows) (do
      Edit.reading fun m : Matrix => checkIndex row m.rows
      (List.range v.size).forM fun col => do setCell row col (← Edit.reading fun _ => v.slot col)) := by
    refine Edit.guarded_reading fun m _ h hrow => Edit.succeeds_forM (fun col hcol => ?_) m h
    have hrow' : row < rows := h.1 ▸ checkIndex_eq_ok.mp hrow
    have hcol' : col < v.size := List.mem_range.mp hcol
    exact succeeds_storeSlot hv hrow' (hwidth ▸ hcol') hcol'
  intro m h
  unfold assignRow checkRow
  rw [Edit.outcome_bind, Edit.outcome_reading]
  cases hsize : checkSize m.cols v.size with
  | error f => rfl
  | ok _ => exact hcells (h.2 ▸ checkSize_eq_ok.mp hsize) m h

end Matrix

/-! ## Writes of a script -/

theorem Operand.wellFormed_build {o : Operand} {v : Vect} (h : o.build = .ok v) : v.WellFormed :=
  Vect.wellFormed_windows (v := .dense o.root) trivial h

namespace Script

/-- What a write checks before it changes anything. Those that are not listed check nothing. -/
def Write.check (v : Vect) : Write → Except Fault Unit
  | .set i _ | .setSlot i _ | .setElement i _ | .bindLabel _ i _ => checkIndex i v.size
  | .setLabel label _ => v.checkLabel label
  | .assignList xs => checkSize v.size xs.length
  | .assignFrom other | .assignZip other _ => do checkSize v.size (← other.build).size
  | _ => .ok ()

/-- Unchecked writes stay inside a vector of `n` slots. -/
def Write.InRange (n : Nat) : Write → Prop
  | .setSlot i _ => i < n
  | _ => True

theorem Write.guarded_edit {n : Nat} {P : Vect → Prop} (hP : Vect.Steady n P) {w : Write} (hw : w.InRange n) :
    Edit.Guarded P w.check w.edit := by
  have unchecked {α : Type} {e : Edit Vect α} {a : Answer} (he : Edit.Succeeds P e) :
      Edit.Guarded P (fun _ => (.ok () : Except Fault Unit)) (do let _ ← e; return a) :=
    Edit.Succeeds.guarded (Edit.succeeds_bind he fun _ => Edit.succeeds_pure a) fun _ _ => ⟨(), rfl⟩
  have operand {o : Operand} {e : Vect → Edit Vect Unit} {a : Answer}
      (he : ∀ v : Vect, v.WellFormed → Edit.Guarded P (fun u => checkSize u.size v.size) (e v)) :
      Edit.Guarded P (fun u => do checkSize u.size (← o.build).size)
        (do let v ← Edit.reading fun _ => o.build; e v; return a) := by
    intro u h
    rw [Edit.outcome_bind, Edit.outcome_reading]
    cases ho : o.build with
    | error f => rfl
    | ok v => exact Edit.guarded_bind (he v (Operand.wellFormed_build ho)) (fun _ => Edit.succeeds_pure a) u h
  cases w with
  | set i x => exact Edit.guarded_bind (Vect.guarded_set hP i x) fun _ => Edit.succeeds_pure _
  | setSlot i x =>
    refine Edit.Succeeds.guarded (Edit.succeeds_bind (Vect.succeeds_setSlot hP hw x) fun _ =>
      Edit.succeeds_pure _) fun v h => ⟨(), ?_⟩
    exact checkIndex_eq_ok.mpr (by rw [hP.size v h]; exact hw)
  | setLabel label x => exact Edit.guarded_bind (Vect.guarded_setLabel hP label x) fun _ => Edit.succeeds_pure _
  | bindLabel label i x =>
    exact Edit.guarded_bind (Vect.guarded_bindLabel hP label i x) fun _ => Edit.succeeds_pure _
  | setElement i x => exact Edit.guarded_bind (Vect.guarded_setElement hP i x) fun _ => Edit.succeeds_pure _
  | setName name => exact unchecked (Vect.succeeds_setName hP name)
  | setBindings b => exact unchecked (Vect.succeeds_setBindings hP b)
  | assignValue x => exact unchecked (Vect.succeeds_assignValue hP x)
  | assignMap f => exact unchecked (Vect.succeeds_assignMap hP f)
  | assignMapScalar f x => exact unchecked (Vect.succeeds_assignMapScalar hP f x)
  | assignList xs => exact Edit.guarded_bind (Vect.guarded_assignList hP xs) fun _ => Edit.succeeds_pure _
  | assignFrom other => exact operand fun v hv => Vect.guarded_assignFrom hP hv
  | assignZip other f => exact operand fun v hv => Vect.guarded_assignZip hP hv f

end Script

/-! ## Failures -/

/-- From this state the edit fails exactly when two sizes differ, and names them. -/
def Edit.FailsOnSizes (e : Edit σ α) (s : σ) (expected actual : Nat) : Prop :=
  ∀ f, (e.outcome s).1 = .error f ↔ expected ≠ actual ∧ f = .cardinality expected actual

theorem Edit.Guarded.failsOnSizes {P : σ → Prop} {check : σ → Except Fault Unit} {e : Edit σ α}
    (he : Edit.Guarded P check e) {s : σ} (h : P s) {m n : Nat} (hc : check s = checkSize m n) :
    Edit.FailsOnSizes e s m n := by
  intro f
  rw [he.error_iff h f, hc, checkSize_eq_error]

open Vect in
/-- A change that fails leaves everything as it was: the slots, the cached length, and the
    name and bindings of the storage and of every window on it; for an addition, those of the
    vector added to; for a matrix, all cells. Changes that compare sizes fail exactly when
    the sizes differ. -/
theorem failed_change_leaves_no_trace {root root' : Dense} {ws ws' : List Window} {v other : Vect}
    (hv : (Vect.dense root).windows ws = .ok v) (ho : (Vect.dense root').windows ws' = .ok other) :
    (∀ i x, Edit.Atomic (setElement i x) v) ∧ (∀ i x, Edit.Atomic (set i x) v) ∧
    (∀ label x, Edit.Atomic (setLabel label x) v) ∧ (∀ label i x, Edit.Atomic (bindLabel label i x) v) ∧
    (∀ xs, Edit.Atomic (assignList xs) v ∧ Edit.FailsOnSizes (assignList xs) v v.size xs.length) ∧
    (Edit.Atomic (assignFrom other) v ∧ Edit.FailsOnSizes (assignFrom other) v v.size other.size) ∧
    (∀ f, Edit.Atomic (assignZip other f) v ∧ Edit.FailsOnSizes (assignZip other f) v v.size other.size) ∧
    (Edit.Atomic v.addTo other ∧ Edit.FailsOnSizes v.addTo other v.size other.size) ∧
    (∀ w steps f, v.window w = .error f →
      (Step.within w steps).run v = (.wrote (.error f) v.snapshot, v)) ∧
    ∀ m : Matrix, (∀ row col x, Edit.Atomic (Matrix.set row col x) m) ∧
      ∀ row, Edit.Atomic (Matrix.assignRow row other) m := by
  have hwf : v.WellFormed := wellFormed_windows (v := .dense root) trivial hv
  have howf : other.WellFormed := wellFormed_windows (v := .dense root') trivial ho
  have hP := steady_sized v.size
  have hs : Sized v.size v := ⟨hwf, rfl⟩
  have hP' := steady_sized other.size
  have hs' : Sized other.size other := ⟨howf, rfl⟩
  refine ⟨fun i x => (guarded_setElement hP i x).atomic hs, fun i x => (guarded_set hP i x).atomic hs,
    fun label x => (guarded_setLabel hP label x).atomic hs,
    fun label i x => (guarded_bindLabel hP label i x).atomic hs, fun xs => ?_, ?_, fun f => ?_, ?_,
    fun w steps f hw => ?_, fun m => ⟨fun row col x => ?_, fun row => ?_⟩⟩
  · have hg := guarded_assignList hP xs
    exact ⟨hg.atomic hs, hg.failsOnSizes hs rfl⟩
  · have hg := guarded_assignFrom hP howf
    exact ⟨hg.atomic hs, hg.failsOnSizes hs rfl⟩
  · have hg := guarded_assignZip hP howf f
    exact ⟨hg.atomic hs, hg.failsOnSizes hs rfl⟩
  · have hg := guarded_addTo hP' hwf
    exact ⟨hg.atomic hs', hg.failsOnSizes hs' rfl⟩
  · unfold Step.run
    rw [hw]
  · exact (Matrix.guarded_set row col x).atomic (P := Matrix.Shaped m.rows m.cols) ⟨rfl, rfl⟩
  · exact (Matrix.guarded_assignRow row howf).atomic (P := Matrix.Shaped m.rows m.cols) ⟨rfl, rfl⟩

/-- A window on storage with a cached length: a label for a slot past the window's end, though
    inside the storage, and an operand of another size. Storage itself keeps its cached
    length when such an operand is refused. -/
theorem failed_changes_of_window_and_storage :
    let root : Dense := { Dense.ofList [3, 4, 0] with name := some "root", cache := ⟨some 25⟩ }
    let v : Vect := .view (.dense root) ⟨1, 1, some "window", none⟩
    let other : Vect := .dense (Dense.ofList [1, 2])
    ((Vect.bindLabel "a" 1 9).outcome v = (.error (.index 1 1), v) ∧
      (Vect.addTo v).outcome other = (.error (.cardinality 1 2), other)) ∧
    (Vect.assignZip other .add).outcome (.dense root) = (.error (.cardinality 3 2), .dense root) := by
  intro root v other
  have hv : (Vect.dense root).windows [⟨1, 1, some "window", none⟩] = .ok v := rfl
  have hroot : (Vect.dense root).windows [] = .ok (.dense root) := rfl
  have ho : (Vect.dense (Dense.ofList [1, 2])).windows [] = .ok other := rfl
  obtain ⟨-, -, -, hbind, -, -, -, ⟨hadd, hsizes⟩, -⟩ := failed_change_leaves_no_trace hv ho
  obtain ⟨-, -, -, -, -, -, hzip, -⟩ := failed_change_leaves_no_trace hroot ho
  have hbound : ((Vect.bindLabel "a" 1 9).outcome v).1 = .error (.index 1 1) := rfl
  have hadded := (hsizes (.cardinality 1 2)).mpr ⟨by decide, rfl⟩
  have hzipped := ((hzip .add).2 (.cardinality 3 2)).mpr ⟨by decide, rfl⟩
  exact ⟨⟨Prod.ext hbound (hbind _ _ _ _ hbound), Prod.ext hadded (hadd _ hadded)⟩,
    Prod.ext hzipped ((hzip .add).1 _ hzipped)⟩

end FeatureVector

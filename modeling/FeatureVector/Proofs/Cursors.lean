/-
  FeatureVector.Proofs.Cursors — walks as they are taken: call by call, each giving an element
  or nothing.

  A `Cursor` is a step from one state to the next with at most one element to show for it.
  Contiguous storage steps a `Walk`. A window steps its parent's cursor through three more:
  it passes over what lies before its start, ends with the first element past its end, and
  counts from its start (`Vect.cursor`).

  `Yields s es`: from the state `s` the calls give the elements of `es`, one each and in order,
  and every call after them gives nothing. It is enough that the first call gives the head and
  leaves what yields the tail (`yields_of_step`), and so each cursor yields what the list
  operation of its name makes of the list underneath (`yields_map`, `yields_takeWhile`,
  `yields_skipWhile`). Over contiguous storage the invariant is that a walk rests before a slot
  it does not skip, or at the end (`Walk.Settled`).

  `Vect.yields_nonZero`: at any depth of windows the calls give the list `Vect.nonZero`.
-/
import FeatureVector.Proofs.Slots

namespace FeatureVector

variable {σ : Type}

structure Cursor (σ : Type) where
  next : σ → Option Element × σ
  /-- At most so many elements are still to come. -/
  ahead : σ → Nat
  ahead_next : ∀ {s e s'}, next s = (some e, s') → ahead s' < ahead s

namespace Cursor

/-- The first element that is not passed over. -/
def seek (c : Cursor σ) (passes : Element → Bool) (s : σ) : Option Element × σ :=
  match _h : c.next s with
  | (none, s') => (none, s')
  | (some e, s') => if passes e then c.seek passes s' else (some e, s')
termination_by c.ahead s
decreasing_by exact c.ahead_next _h

theorem ahead_seek (c : Cursor σ) (passes : Element → Bool) {s s' : σ} {e : Element}
    (h : c.seek passes s = (some e, s')) : c.ahead s' < c.ahead s := by
  induction s using seek.induct c passes with
  | case1 s t hnext =>
    rw [seek, hnext] at h
    cases h
  | case2 s a t hnext hpass ih =>
    rw [seek, hnext] at h
    simp only [hpass, if_true] at h
    exact Nat.lt_trans (ih h) (c.ahead_next hnext)
  | case3 s a t hnext hpass =>
    rw [seek, hnext] at h
    simp only [hpass] at h
    cases h
    exact c.ahead_next hnext

/-- Passes over elements up to the first that is not to be passed over, and over none behind
    it. The flag says that it has come. -/
def skipWhile (c : Cursor σ) (passes : Element → Bool) : Cursor (σ × Bool) where
  next := fun (s, begun) =>
    let call := if begun then c.next s else c.seek passes s
    (call.1, call.2, begun || call.1.isSome)
  ahead := fun (s, _) => c.ahead s
  ahead_next := by
    intro ⟨s, begun⟩ e ⟨s', begun'⟩ h
    simp only [Prod.mk.injEq] at h
    obtain ⟨he, hs, -⟩ := h
    cases begun with
    | true => exact c.ahead_next (Prod.ext he hs)
    | false => exact c.ahead_seek passes (Prod.ext he hs)

/-- Gives elements up to the first that is not to be kept. That one is lost, and the flag says
    that it has come: there is nothing behind it. -/
def takeWhile (c : Cursor σ) (keeps : Element → Bool) : Cursor (σ × Bool) where
  next := fun (s, ended) =>
    if ended then (none, s, true)
    else match c.next s with
      | (none, s') => (none, s', false)
      | (some e, s') => if keeps e then (some e, s', false) else (none, s', true)
  ahead := fun (s, _) => c.ahead s
  ahead_next := by
    intro ⟨s, ended⟩ e ⟨s', ended'⟩ h
    dsimp only at h ⊢
    split at h
    · cases h
    · split at h
      · cases h
      · rename_i hnext
        split at h
        · cases h
          exact c.ahead_next hnext
        · cases h

def map (c : Cursor σ) (f : Element → Element) : Cursor σ where
  next := fun s => ((c.next s).1.map f, (c.next s).2)
  ahead := c.ahead
  ahead_next := by
    intro s e s' h
    obtain ⟨a, ha, -⟩ := Option.map_eq_some_iff.mp (Prod.ext_iff.mp h).1
    exact c.ahead_next (Prod.ext ha (Prod.ext_iff.mp h).2)

/-! ## What the calls give -/

/-- The state after so many calls. -/
def after (c : Cursor σ) : Nat → σ → σ
  | 0, s => s
  | n + 1, s => c.after n (c.next s).2

/-- The calls give these elements and then nothing for good. -/
def Yields (c : Cursor σ) (s : σ) (es : List Element) : Prop := ∀ n, (c.next (c.after n s)).1 = es[n]?

theorem Yields.head {c : Cursor σ} {s : σ} {es : List Element} (h : c.Yields s es) :
    (c.next s).1 = es.head? := (h 0).trans (List.head?_eq_getElem? ..).symm

theorem Yields.tail {c : Cursor σ} {s : σ} {es : List Element} (h : c.Yields s es) :
    c.Yields (c.next s).2 es.tail := by
  intro n
  rw [List.getElem?_tail]
  exact h (n + 1)

/-- A relation between states and lists that each call keeps, giving the head. -/
theorem yields_of_step {c : Cursor σ} {R : σ → List Element → Prop}
    (hstep : ∀ s es, R s es → (c.next s).1 = es.head? ∧ R (c.next s).2 es.tail) {s : σ} {es : List Element}
    (h : R s es) : c.Yields s es := by
  intro n
  induction n generalizing s es with
  | zero => rw [← List.head?_eq_getElem?]; exact (hstep s es h).1
  | succ n ih =>
    rw [← List.getElem?_tail]
    exact ih (hstep s es h).2

theorem yields_map {c : Cursor σ} {s : σ} {es : List Element} (h : c.Yields s es) (f : Element → Element) :
    (c.map f).Yields s (es.map f) := by
  refine yields_of_step (R := fun s es => ∃ as, c.Yields s as ∧ es = as.map f) ?_ ⟨es, h, rfl⟩
  intro s _ h
  obtain ⟨as, has, rfl⟩ := h
  refine ⟨?_, as.tail, has.tail, List.map_tail.symm⟩
  show (c.next s).1.map f = _
  rw [has.head, List.head?_map]

theorem yields_takeWhile {c : Cursor σ} {s : σ} {es : List Element} (h : c.Yields s es)
    (keeps : Element → Bool) : (c.takeWhile keeps).Yields (s, false) (es.takeWhile keeps) := by
  refine yields_of_step
    (R := fun t es => t.2 = true ∧ es = [] ∨ t.2 = false ∧ ∃ as, c.Yields t.1 as ∧ es = as.takeWhile keeps)
    ?_ (.inr ⟨rfl, es, h, rfl⟩)
  intro ⟨s, ended⟩ _ h
  rcases h with ⟨rfl, rfl⟩ | ⟨rfl, as, has, rfl⟩
  · exact ⟨rfl, .inl ⟨rfl, rfl⟩⟩
  · have hhead := has.head
    have htail := has.tail
    simp only [takeWhile]
    rcases hnext : c.next s with ⟨_ | e, s'⟩ <;> rw [hnext] at hhead htail
    · have hnil : as = [] := List.head?_eq_none_iff.mp hhead.symm
      subst hnil
      exact ⟨rfl, .inr ⟨rfl, [], htail, rfl⟩⟩
    · obtain ⟨as, rfl⟩ := List.head?_eq_some_iff.mp hhead.symm
      by_cases hkeep : keeps e
      · simp only [hkeep, if_true, List.takeWhile_cons]
        exact ⟨rfl, .inr ⟨rfl, as, htail, rfl⟩⟩
      · simp only [hkeep, List.takeWhile_cons]
        exact ⟨rfl, .inl ⟨rfl, rfl⟩⟩

theorem seek_of_yields {c : Cursor σ} (passes : Element → Bool) {s : σ} {es : List Element} (h : c.Yields s es) :
    (c.seek passes s).1 = (es.dropWhile passes).head? ∧
      c.Yields (c.seek passes s).2 (es.dropWhile passes).tail := by
  induction es generalizing s with
  | nil =>
    have hhead := h.head
    have htail := h.tail
    rcases hnext : c.next s with ⟨_ | e, s'⟩ <;> rw [hnext] at hhead htail
    · rw [seek, hnext]
      exact ⟨rfl, htail⟩
    · cases hhead
  | cons a as ih =>
    have hhead := h.head
    have htail := h.tail
    rcases hnext : c.next s with ⟨_ | e, s'⟩ <;> rw [hnext] at hhead htail
    · cases hhead
    · cases hhead
      rw [seek, hnext]
      by_cases hpass : passes a
      · simp only [hpass, if_true, List.dropWhile_cons]
        exact ih htail
      · simp only [hpass, List.dropWhile_cons]
        exact ⟨rfl, htail⟩

theorem yields_skipWhile {c : Cursor σ} {s : σ} {es : List Element} (h : c.Yields s es)
    (passes : Element → Bool) : (c.skipWhile passes).Yields (s, false) (es.dropWhile passes) := by
  refine yields_of_step
    (R := fun t es => ∃ as, c.Yields t.1 as ∧ es = if t.2 then as else as.dropWhile passes) ?_ ⟨es, h, rfl⟩
  intro ⟨s, begun⟩ _ h
  obtain ⟨as, has, rfl⟩ := h
  cases begun with
  | true => exact ⟨has.head, as.tail, has.tail, rfl⟩
  | false =>
    obtain ⟨hhead, htail⟩ := seek_of_yields passes has
    refine ⟨hhead, _, htail, ?_⟩
    -- Without an element the flag stays down, but then there is nothing left to pass over.
    show (as.dropWhile passes).tail = if (c.seek passes s).1.isSome then _ else _
    rw [hhead]
    cases as.dropWhile passes <;> rfl

end Cursor

/-! ## Contiguous storage -/

namespace Walk

def cursor : Cursor Walk where
  next := fun w => match w.next? with
    | none => (none, w)
    | some (e, w') => (some e, w')
  ahead := fun w => w.rest.length
  ahead_next := by
    intro w e w' h
    unfold next? at h
    cases hrest : w.rest with
    | nil =>
      rw [hrest] at h
      cases h
    | cons x xs =>
      rw [hrest] at h
      cases h
      exact Nat.lt_succ_of_le (length_settle_le ..)

/-- The walk rests before a slot it does not skip, or at the end. -/
def Settled (w : Walk) : Prop := ∀ x, w.rest.head? = some x → w.pace.skips x = false

theorem settled_settle (pace : Pace) (index : Nat) (xs : List Float) : (settle pace index xs).Settled := by
  induction xs generalizing index with
  | nil =>
    intro x hx
    cases hx
  | cons x xs ih =>
    unfold settle
    by_cases hskip : pace.skips x
    · simp only [hskip, if_true]
      exact ih (index + 1)
    · simp only [hskip]
      intro y hy
      cases hy
      exact Bool.eq_false_iff.mpr hskip

theorem settled_start (pace : Pace) (xs : List Float) : (start pace xs).Settled := settled_settle pace 0 xs

/-- A call gives the first element still to come and leaves the others. -/
theorem next_cursor {w : Walk} (hw : w.Settled) : (cursor.next w).1 = w.toList.head? ∧
    (cursor.next w).2.Settled ∧ (cursor.next w).2.toList = w.toList.tail := by
  obtain ⟨pace, index, rest⟩ := w
  cases rest with
  | nil => exact ⟨rfl, hw, rfl⟩
  | cons x xs =>
    have hskip : pace.skips x = false := hw x rfl
    have hlist : toList ⟨pace, index, x :: xs⟩ = ⟨index, x⟩ :: elements pace (index + 1) xs := by
      simp only [toList, elements_cons, hskip]
      rfl
    rw [hlist]
    exact ⟨rfl, settled_settle pace (index + 1) xs, toList_settle pace (index + 1) xs⟩

theorem yields_toList {w : Walk} (hw : w.Settled) : cursor.Yields w w.toList := by
  refine Cursor.yields_of_step (R := fun w es => w.Settled ∧ es = w.toList) ?_ ⟨hw, rfl⟩
  intro w _ h
  obtain ⟨hw, rfl⟩ := h
  obtain ⟨hhead, hsettled, htail⟩ := next_cursor hw
  exact ⟨hhead, hsettled, htail.symm⟩

/-! What is known without looking ahead. -/

theorem length_elements_le (pace : Pace) (index : Nat) (xs : List Float) :
    (elements pace index xs).length ≤ xs.length := by
  rw [elements_eq_filter, List.length_map]
  exact Nat.le_trans (List.length_filter_le ..) (Nat.le_of_eq List.length_zipIdx)

/-- A walk over every slot knows how many are to come. -/
theorem hint_every {w : Walk} (hw : w.pace = .every) : w.hint = (w.toList.length, w.toList.length) := by
  obtain ⟨pace, index, rest⟩ := w
  cases hw
  simp [hint, toList, elements_every]

/-- The hint holds, and says that nothing is to come only when nothing is. -/
theorem hint_bounds {w : Walk} (hw : w.Settled) :
    w.hint.1 ≤ w.toList.length ∧ w.toList.length ≤ w.hint.2 ∧ (w.hint.1 = 0 → w.toList = []) := by
  obtain ⟨pace, index, rest⟩ := w
  cases pace with
  | every =>
    rw [hint_every rfl]
    exact ⟨Nat.le_refl _, Nat.le_refl _, List.eq_nil_of_length_eq_zero⟩
  | nonZero =>
    refine ⟨?_, length_elements_le .nonZero index rest, ?_⟩
    · cases rest with
      | nil => exact Nat.zero_le _
      | cons x xs => simp [hint, toList, elements_cons, hw x rfl]
    · cases rest with
      | nil => exact fun _ => rfl
      | cons x xs => simp [hint]

theorem pace_settle (pace : Pace) (index : Nat) (xs : List Float) : (settle pace index xs).pace = pace := by
  induction xs generalizing index with
  | nil => rfl
  | cons x xs ih =>
    unfold settle
    split
    · exact ih (index + 1)
    · rfl

theorem pace_next (w : Walk) : (cursor.next w).2.pace = w.pace := by
  obtain ⟨pace, index, rest⟩ := w
  cases rest with
  | nil => rfl
  | cons x xs => exact pace_settle pace (index + 1) xs

theorem after_cursor {w : Walk} (hw : w.Settled) (n : Nat) : (cursor.after n w).Settled ∧
    (cursor.after n w).toList = w.toList.drop n ∧ (cursor.after n w).pace = w.pace := by
  induction n generalizing w with
  | zero => exact ⟨hw, rfl, rfl⟩
  | succ n ih =>
    obtain ⟨-, hsettled, htail⟩ := next_cursor hw
    obtain ⟨hafter, hlist, hpace⟩ := ih hsettled
    refine ⟨hafter, ?_, hpace.trans (pace_next w)⟩
    rw [← List.drop_tail, ← htail]
    exact hlist

theorem hints_eq_cons (w : Walk) : w.hints = w.hint ::
    if (cursor.next w).1.isSome then (cursor.next w).2.hints else [] := by
  have hcursor : cursor.next w = match w.next? with
      | none => (none, w)
      | some (e, w') => (some e, w') := rfl
  rw [hints, hcursor]
  cases w.next? <;> rfl

/-- What `hints` lists are the hints before the first call and after each that gives an element. -/
theorem hints_eq {w : Walk} (hw : w.Settled) :
    w.hints = (List.range (w.toList.length + 1)).map fun n => (cursor.after n w).hint := by
  obtain ⟨es, hes⟩ : ∃ es, w.toList = es := ⟨_, rfl⟩
  induction es generalizing w with
  | nil =>
    obtain ⟨hhead, -⟩ := next_cursor hw
    rw [hints_eq_cons, hhead, hes]
    rfl
  | cons e es ih =>
    obtain ⟨hhead, hsettled, htail⟩ := next_cursor hw
    rw [hes] at hhead htail
    rw [hints_eq_cons, hhead, hes, List.length_cons, List.range_succ_eq_map, List.map_cons, List.map_map,
      List.head?_cons, Option.isSome_some, if_pos rfl, ih hsettled htail, htail]
    rfl

end Walk

/-! ## Vectors -/

namespace Vect

/-- How far a walk over the non-zero slots has come: for each window, whether its first slot
    has been met and whether its end has. -/
def Progress : Vect → Type
  | dense _ => Walk
  | view p _ => (p.Progress × Bool) × Bool

/-- Nothing has been met. -/
def beginning : (v : Vect) → v.Progress
  | dense d => d.walk .nonZero
  | view p _ => ((p.beginning, false), false)

/-- A window takes its part of what its parent's cursor gives. -/
def cursor : (v : Vect) → Cursor v.Progress
  | dense _ => Walk.cursor
  | view p w =>
    ((p.cursor.skipWhile (·.index < w.offset)).takeWhile (·.index < w.offset + w.length)).map
      fun e => ⟨e.index - w.offset, e.value⟩

/-- The calls give the non-zero slots, through any windows, and then nothing for good. -/
theorem yields_nonZero (v : Vect) : v.cursor.Yields v.beginning v.nonZero := by
  induction v with
  | dense d => exact Walk.yields_toList (Walk.settled_start .nonZero d.toList)
  | view p w ih =>
    exact Cursor.yields_map (Cursor.yields_takeWhile (Cursor.yields_skipWhile ih _) _) _

end Vect

end FeatureVector

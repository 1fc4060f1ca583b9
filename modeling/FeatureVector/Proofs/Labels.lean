/-
  FeatureVector.Proofs.Labels — bindings as finite maps from labels to indices.

  Binding a label changes what that label stands for and nothing else (`get?_insert`), and
  bindings are no more than what their labels stand for (`ext_get?`): the order of the entries
  is that of the labels and not the one in which they were bound (`insert_comm`,
  `ofList_eq_of_perm`). Binding the entries again gives the same bindings (`ofList_toList`).
-/
import Mathlib.Data.List.Pairwise
import Mathlib.Data.List.Sort
import FeatureVector.Bindings

namespace FeatureVector.Bindings

/-! ## Look-up -/

theorem lookup_cons_eq (label k : String) (i : Nat) (entries : List (String × Nat)) :
    ((k, i) :: entries).lookup label = if label = k then some i else entries.lookup label := by
  rw [List.lookup_cons]
  by_cases h : label = k
  · rw [if_pos h, beq_iff_eq.mpr h]
  · rw [if_neg h, beq_eq_false_iff_ne.mpr h]

theorem lookup_insertEntry (label : String) (index : Nat) (entries : List (String × Nat)) (label' : String) :
    (insertEntry label index entries).lookup label' =
      if label' = label then some index else entries.lookup label' := by
  induction entries with
  | nil => exact lookup_cons_eq label' label index []
  | cons e entries ih =>
    obtain ⟨k, i⟩ := e
    unfold insertEntry
    by_cases hk : label = k
    -- in the place of the entry with its label
    · rw [if_pos hk, lookup_cons_eq, lookup_cons_eq, hk]
      by_cases h : label' = k
      · rw [if_pos h, if_pos h]
      · rw [if_neg h, if_neg h, if_neg h]
    · rw [if_neg hk]
      by_cases hlt : label < k
      -- before all others
      · rw [if_pos hlt, lookup_cons_eq]
      -- behind the first
      · rw [if_neg hlt, lookup_cons_eq, lookup_cons_eq, ih]
        by_cases h : label' = k
        · rw [if_pos h, if_pos h, if_neg fun h' => hk (h'.symm.trans h)]
        · rw [if_neg h, if_neg h]

@[simp] theorem get?_insert (b : Bindings) (label : String) (index : Nat) (label' : String) :
    (b.insert label index).get? label' = if label' = label then some index else b.get? label' :=
  lookup_insertEntry label index b.entries label'

theorem mem_entries_iff {b : Bindings} {label : String} {index : Nat} :
    (label, index) ∈ b.entries ↔ b.get? label = some index := by
  have hascending := b.ascending
  unfold get?
  generalize b.entries = entries at hascending
  induction entries with
  | nil => simp
  | cons e entries ih =>
    obtain ⟨k, i⟩ := e
    obtain ⟨hfirst, hrest⟩ := List.pairwise_cons.mp hascending
    have hmem : (label, index) ∈ entries ↔ entries.lookup label = some index := ih hrest
    rw [List.mem_cons, hmem, lookup_cons_eq, Prod.mk.injEq]
    by_cases h : label = k
    -- no later entry has the first one's label
    · have hlater : ¬ entries.lookup label = some index := by
        intro hlookup
        have hlt := hfirst _ (hmem.mpr hlookup)
        exact String.lt_irrefl _ (h ▸ hlt)
      rw [if_pos h]
      simp [h ▸ hlater, h, eq_comm]
    · simp [h]

theorem ext_entries {a b : Bindings} (h : a.entries = b.entries) : a = b := by
  cases a
  cases b
  cases h
  rfl

/-- Bindings are determined by what every label stands for. -/
theorem ext_get? {a b : Bindings} (h : a.get? = b.get?) : a = b := by
  have : Std.Antisymm fun e e' : String × Nat => e.1 < e'.1 :=
    ⟨fun _ _ hlt hlt' => absurd (String.lt_trans hlt hlt') (String.lt_irrefl _)⟩
  have : Std.Irrefl fun e e' : String × Nat => e.1 < e'.1 := ⟨fun _ => String.lt_irrefl _⟩
  refine ext_entries (a.ascending.eq_of_mem_iff b.ascending fun e => ?_)
  rw [mem_entries_iff, mem_entries_iff, h]

/-! ## The order of binding -/

theorem insert_comm (b : Bindings) {label label' : String} (h : label ≠ label') (index index' : Nat) :
    (b.insert label index).insert label' index' = (b.insert label' index').insert label index := by
  apply ext_get?
  funext l
  simp only [get?_insert]
  by_cases hl : l = label
  · rw [if_pos hl, if_pos hl, if_neg fun hl' => h (hl.symm.trans hl')]
  · rw [if_neg hl, if_neg hl]

/-- Labels that are bound once each may be bound in any order. -/
theorem ofList_eq_of_perm {entries entries' : List (String × Nat)} (h : entries.Perm entries')
    (hdistinct : entries.Pairwise (·.1 ≠ ·.1)) : ofList entries = ofList entries' := by
  refine h.foldl_eq' (fun e he e' he' b => ?_) empty
  by_cases hsame : e = e'
  · rw [hsame]
  · have : Std.Symm fun e e' : String × Nat => e.1 ≠ e'.1 := ⟨fun _ _ hne => hne.symm⟩
    exact b.insert_comm (hdistinct.forall he he' hsame) e.2 e'.2

/-! ## Entries bound again -/

/-- A label past all others is bound at the end. -/
theorem insertEntry_of_lt {label : String} (index : Nat) {entries : List (String × Nat)}
    (h : ∀ e ∈ entries, e.1 < label) : insertEntry label index entries = entries ++ [(label, index)] := by
  induction entries with
  | nil => rfl
  | cons e entries ih =>
    have he : e.1 < label := h e List.mem_cons_self
    have hne : label ≠ e.1 := by
      rintro rfl
      exact String.lt_irrefl _ he
    have hnlt : ¬ label < e.1 := fun hlt => String.lt_irrefl _ (String.lt_trans he hlt)
    rw [insertEntry, if_neg hne, if_neg hnlt, ih fun e' he' => h e' (List.mem_cons_of_mem e he')]
    rfl

theorem entries_foldl_insert (b : Bindings) (rest : List (String × Nat))
    (h : (b.entries ++ rest).Pairwise (·.1 < ·.1)) :
    (rest.foldl (fun b e => b.insert e.1 e.2) b).entries = b.entries ++ rest := by
  induction rest generalizing b with
  | nil => simp
  | cons e rest ih =>
    have hlt : ∀ e' ∈ b.entries, e'.1 < e.1 :=
      fun e' he' => (List.pairwise_append.mp h).2.2 e' he' e List.mem_cons_self
    have hinsert : (b.insert e.1 e.2).entries = b.entries ++ [e] := insertEntry_of_lt e.2 hlt
    rw [List.foldl_cons, ih _ (by rw [hinsert, List.append_assoc]; exact h), hinsert, List.append_assoc]
    rfl

theorem ofList_toList (b : Bindings) : ofList b.toList = b :=
  ext_entries (entries_foldl_insert empty b.entries b.ascending)

end FeatureVector.Bindings

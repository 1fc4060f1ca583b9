/-
  FeatureVector.Bindings — aliases of a vector's slots: a finite map from labels to indices.

  Entries are kept in ascending order of label (by code point), each label once, so that
  equal maps are equal values and the order of binding leaves no trace. An index need not
  be in range of any vector.
-/

namespace FeatureVector

structure Bindings where
  entries : List (String × Nat)
  ascending : entries.Pairwise (·.1 < ·.1)

namespace Bindings

instance : DecidableEq Bindings := fun a b =>
  if h : a.entries = b.entries then isTrue (by cases a; cases b; cases h; rfl)
  else isFalse fun e => h (e ▸ rfl)

def empty : Bindings := ⟨[], List.Pairwise.nil⟩

instance : Inhabited Bindings := ⟨empty⟩

def get? (b : Bindings) (label : String) : Option Nat := b.entries.lookup label

def toList (b : Bindings) : List (String × Nat) := b.entries

/-- The entry takes its place in the order, or that of the entry with its label. -/
def insertEntry (label : String) (index : Nat) : List (String × Nat) → List (String × Nat)
  | [] => [(label, index)]
  | (k, i) :: rest =>
    if label = k then (label, index) :: rest
    else if label < k then (label, index) :: (k, i) :: rest
    else (k, i) :: insertEntry label index rest

theorem mem_insertEntry {label : String} {index : Nat} {entries : List (String × Nat)} {e : String × Nat}
    (h : e ∈ insertEntry label index entries) : e = (label, index) ∨ e ∈ entries := by
  induction entries with
  | nil => simpa [insertEntry] using h
  | cons head rest ih =>
    obtain ⟨k, i⟩ := head
    unfold insertEntry at h
    split at h
    · simp only [List.mem_cons] at h ⊢
      exact h.imp_right Or.inr
    · split at h
      · simpa only [List.mem_cons] using h
      · simp only [List.mem_cons] at h ⊢
        rcases h with h | h
        · exact Or.inr (Or.inl h)
        · exact (ih h).imp_right Or.inr

theorem ascending_insertEntry {label : String} {index : Nat} {entries : List (String × Nat)}
    (h : entries.Pairwise (·.1 < ·.1)) : (insertEntry label index entries).Pairwise (·.1 < ·.1) := by
  induction entries with
  | nil => simp [insertEntry]
  | cons head rest ih =>
    obtain ⟨k, i⟩ := head
    obtain ⟨hk, hr⟩ := List.pairwise_cons.mp h
    unfold insertEntry
    split
    · rename_i e
      subst e
      exact List.pairwise_cons.mpr ⟨hk, hr⟩
    · rename_i ne
      split
      · rename_i lt
        refine List.pairwise_cons.mpr ⟨fun e he => ?_, h⟩
        rcases List.mem_cons.mp he with rfl | he
        · exact lt
        · exact String.lt_trans lt (hk e he)
      · rename_i nlt
        refine List.pairwise_cons.mpr ⟨fun e he => ?_, ih hr⟩
        rcases mem_insertEntry he with rfl | he
        · exact Std.lt_of_le_of_ne (String.not_lt.mp nlt) (Ne.symm ne)
        · exact hk e he

/-- The last binding of a label wins. -/
def insert (b : Bindings) (label : String) (index : Nat) : Bindings :=
  ⟨insertEntry label index b.entries, ascending_insertEntry b.ascending⟩

def ofList (entries : List (String × Nat)) : Bindings :=
  entries.foldl (fun b e => b.insert e.1 e.2) empty

end Bindings

end FeatureVector

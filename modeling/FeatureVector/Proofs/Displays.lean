/-
  FeatureVector.Proofs.Displays — a display text says which vector or matrix it shows.

  Slots stand in brackets with commas between them. A vector's name stands in front as it is,
  so it can bring brackets, commas, colons and whole lists of its own. A number has none of
  these and no blank (`not_endsWord_of_mem_display`), and no two doubles share a number
  (`display_injective`); what is left is to find where a part of the text ends.
  - Inside the brackets, from the left: an item ends where a comma or a bracket follows.
    `Delimited write` says that what `write` writes can be told so. It holds for numbers, and
    for lists if it holds for their items (`Delimited.bracketed`): once for a vector or a row,
    twice for a matrix.
  - In front of them, from the right: the last opening bracket of the text is the one the list
    begins with (`append_bracket_inj`), and what precedes it is a name and a colon, or nothing.

  `display_identifies`: so vectors are displayed alike exactly if names and slots agree, and
  matrices exactly if the rows agree and, where there is one, the columns and the cells.
-/
import FeatureVector.Proofs.MatrixRuns
import FeatureVector.Proofs.Numerals

namespace FeatureVector

/-! ## Numbers -/

namespace Binary64

/-- The same bits, or both no number. -/
def SameBits (x y : Float) : Prop := x.toBits = y.toBits ∨ (x.isNaN = true ∧ y.isNaN = true)

/-- There is one NaN, so sameness of bits is equality. -/
theorem sameBits_iff {x y : Float} : SameBits x y ↔ x = y := by
  constructor
  · rintro (hbits | ⟨hx, hy⟩)
    · exact Float.toBits_inj.mp hbits
    · exact value_inj ((isNaN_iff.mp hx).trans (isNaN_iff.mp hy).symm)
  · rintro rfl
    exact .inl rfl

theorem spelledBy_display {x : Float} {n : Numeral} (h : NumberStyle.plain.numeral? x = some n) :
    n.SpelledBy (display x).toList := by
  have htext : (display x).toList = n.text := by
    rw [display, h]
    exact String.toList_ofList
  rw [htext]
  exact Json.spelledBy_text (NumberStyle.wellFormed_of_numeral? h)

/-- What has no digits, and the word for it. -/
def words : List (Value × String) := [(.nan, "NaN"), (.infinite true, "-inf"), (.infinite false, "inf")]

theorem mem_words {x : Float} (h : NumberStyle.plain.numeral? x = none) : (value x, display x) ∈ words := by
  cases hx : value x with
  | nan =>
    obtain rfl : x = zero / zero := value_inj (hx.trans (by decide))
    decide
  | infinite negative =>
    cases negative with
    | true =>
      obtain rfl : x = negInfinity := value_inj (hx.trans (by decide))
      decide
    | false =>
      obtain rfl : x = -negInfinity := value_inj (hx.trans (by decide))
      decide
  | zero negative | finite negative m =>
    rw [NumberStyle.numeral?, hx] at h
    cases h

theorem words_injective : ∀ v ∈ words, ∀ w ∈ words, v.2 = w.2 → v.1 = w.1 := by decide

/-- A number is read back as its numeral, and a word as none. -/
theorem numeral?_display (x : Float) : Json.numeral? (display x).toList = NumberStyle.plain.numeral? x := by
  cases h : NumberStyle.plain.numeral? x with
  | some n => exact Json.numeral?_eq_some_iff.mpr (spelledBy_display h)
  | none =>
    have hwords : ∀ w ∈ words, Json.numeral? w.2.toList = none := by decide
    exact hwords (value x, display x) (mem_words h)

theorem display_injective : Function.Injective display := by
  intro x y h
  have hnumerals : NumberStyle.plain.numeral? x = NumberStyle.plain.numeral? y := by
    rw [← numeral?_display, ← numeral?_display, h]
  cases hx : NumberStyle.plain.numeral? x with
  | some n =>
    refine NumberStyle.numeral?_injective .plain ?_ hnumerals
    rw [NumberStyle.isFinite_eq .plain, hx]
    rfl
  | none => exact value_inj (words_injective _ (mem_words hx) _ (mem_words (hnumerals.symm.trans hx)) h)

theorem not_endsWord_of_mem_display (x : Float) : ∀ c ∈ (display x).toList, Json.Scan.endsWord c = false := by
  cases h : NumberStyle.plain.numeral? x with
  | some n => exact Json.Word.not_endsWord (.number (spelledBy_display h))
  | none =>
    have hwords : ∀ w ∈ words, w.2.toList.all (!Json.Scan.endsWord ·) = true := by decide
    simpa using hwords (value x, display x) (mem_words h)

theorem display_ne_empty (x : Float) : (display x).toList ≠ [] := by
  cases h : NumberStyle.plain.numeral? x with
  | some n =>
    obtain ⟨c, cs, htext, -⟩ := Json.exists_cons_of_spelledBy (spelledBy_display h)
    rw [htext]
    exact List.cons_ne_nil c cs
  | none =>
    have hwords : ∀ w ∈ words, w.2.toList ≠ [] := by decide
    exact hwords (value x, display x) (mem_words h)

end Binary64

/-! ## Lists in brackets -/

/-- A text ends at the first character that stops it. -/
theorem takeWhile_append_stop {p : Char → Bool} {x s : List Char} (hx : ∀ c ∈ x, p c = false)
    (hs : s.head?.any p = true) : (x ++ s).takeWhile (!p ·) = x := by
  cases s with
  | nil => cases hs
  | cons c s =>
    have hc : p c = true := hs
    rw [List.takeWhile_append_of_pos (by simpa using hx), List.takeWhile_cons_of_neg (by simp [hc]), List.append_nil]

theorem append_inj_of_stop {p : Char → Bool} {x y s t : List Char} (hx : ∀ c ∈ x, p c = false)
    (hy : ∀ c ∈ y, p c = false) (hs : s.head?.any p = true) (ht : t.head?.any p = true) (h : x ++ s = y ++ t) :
    x = y ∧ s = t := by
  have hxy : x = y := by
    rw [← takeWhile_append_stop hx hs, h, takeWhile_append_stop hy ht]
  exact ⟨hxy, List.append_cancel_left (hxy ▸ h)⟩

/-- What follows an item of a list. -/
def EndsItem (s : List Char) : Prop := s.head? = some ',' ∨ s.head? = some ']'

/-- Items written this way can be told by what follows them, and from the end of the list. -/
structure Delimited (write : α → List Char) : Prop where
  begins : ∀ a, ∃ c cs, write a = c :: cs ∧ c ≠ ']'
  ends : ∀ {a b s t}, EndsItem s → EndsItem t → write a ++ s = write b ++ t → a = b ∧ s = t

theorem Delimited.injective {write : α → List Char} (h : Delimited write) : Function.Injective write := by
  intro a b heq
  have hend : EndsItem [']'] := .inr rfl
  exact (h.ends hend hend (congrArg (· ++ [']']) heq)).1

/-- The items in brackets, with commas between them. -/
def bracketed (write : α → List Char) (items : List α) : List Char :=
  '[' :: ([',', ' '].intercalate (items.map write) ++ [']'])

theorem toList_brackets (text : α → String) (items : List α) :
    ("[" ++ ", ".intercalate (items.map text) ++ "]").toList = bracketed (fun a => (text a).toList) items := by
  simp [bracketed, Function.comp_def]

/-- What stands in the brackets behind an item: the others, each behind a comma, and the end. -/
def behindItem (write : α → List Char) : List α → List Char
  | [] => [']']
  | a :: items => ',' :: ' ' :: (write a ++ behindItem write items)

section Items

variable {write : α → List Char}

theorem bracketed_cons (a : α) (items : List α) :
    bracketed write (a :: items) = '[' :: (write a ++ behindItem write items) := by
  unfold bracketed
  congr 1
  induction items generalizing a with
  | nil => simp [behindItem]
  | cons b items ih =>
    rw [List.map_cons, List.map_cons, List.intercalate_cons_cons, List.append_assoc, ← List.map_cons, ih b]
    simp [behindItem]

theorem endsItem_behindItem (items : List α) (s : List Char) : EndsItem (behindItem write items ++ s) := by
  cases items with
  | nil => exact .inr rfl
  | cons a items => exact .inl rfl

theorem behindItem_inj (h : Delimited write) {xs ys : List α} {s t : List Char}
    (heq : behindItem write xs ++ s = behindItem write ys ++ t) : xs = ys ∧ s = t := by
  induction xs generalizing ys with
  | nil =>
    cases ys with
    | nil => exact ⟨rfl, (List.cons.inj heq).2⟩
    | cons y ys => exact absurd (List.cons.inj heq).1 (by decide)
  | cons x xs ih =>
    cases ys with
    | nil => exact absurd (List.cons.inj heq).1 (by decide)
    | cons y ys =>
      simp only [behindItem, List.cons_append, List.append_assoc, List.cons.injEq, true_and] at heq
      obtain ⟨rfl, hrest⟩ := h.ends (endsItem_behindItem xs s) (endsItem_behindItem ys t) heq
      obtain ⟨rfl, hst⟩ := ih hrest
      exact ⟨rfl, hst⟩

/-- An empty list has its end where another has its first item. -/
theorem Delimited.bracketed_ne (h : Delimited write) (a : α) (items : List α) (s t : List Char) :
    bracketed write [] ++ s ≠ bracketed write (a :: items) ++ t := by
  obtain ⟨c, cs, hc, hne⟩ := h.begins a
  rw [bracketed_cons, hc]
  intro heq
  exact hne (List.cons.inj (List.cons.inj heq).2).1.symm

theorem Delimited.bracketed (h : Delimited write) : Delimited (bracketed write) where
  begins a := ⟨'[', _, rfl, by decide⟩
  ends {a b s t} _ _ heq := by
    cases a with
    | nil =>
      cases b with
      | nil => exact ⟨rfl, List.append_cancel_left heq⟩
      | cons y ys => exact absurd heq (h.bracketed_ne y ys s t)
    | cons x xs =>
      cases b with
      | nil => exact absurd heq.symm (h.bracketed_ne x xs t s)
      | cons y ys =>
        -- with a comma for the bracket, both stand behind an item
        rw [bracketed_cons, bracketed_cons] at heq
        exact behindItem_inj h (congrArg (',' :: ' ' :: ·) (List.cons.inj heq).2)

theorem not_mem_behindItem (h : ∀ a, '[' ∉ write a) (items : List α) : '[' ∉ behindItem write items := by
  induction items with
  | nil => simp [behindItem]
  | cons a items ih => simp [behindItem, h a, ih]

/-- A list of items without brackets has no other opening bracket than its first character. -/
theorem exists_bracketed (h : ∀ a, '[' ∉ write a) (items : List α) :
    ∃ u, bracketed write items = '[' :: u ∧ '[' ∉ u := by
  cases items with
  | nil => exact ⟨[']'], rfl, by decide⟩
  | cons a items => exact ⟨_, bracketed_cons a items, by simp [h a, not_mem_behindItem h items]⟩

end Items

/-! ## Lists of numbers -/

namespace Binary64

/-- A number as it stands in a list. -/
def shown (x : Float) : List Char := (display x).toList

theorem not_mem_shown {c : Char} (hc : Json.Scan.endsWord c = true) (x : Float) : c ∉ shown x := by
  intro hmem
  rw [not_endsWord_of_mem_display x c hmem] at hc
  cases hc

theorem delimited_shown : Delimited shown where
  begins x := by
    obtain ⟨c, cs, hcs⟩ := List.exists_cons_of_ne_nil (display_ne_empty x)
    refine ⟨c, cs, hcs, ?_⟩
    rintro rfl
    have hmem : ']' ∈ shown x := List.mem_of_mem_head? (by rw [shown, hcs]; rfl)
    exact not_mem_shown (by decide) x hmem
  ends {x y s t} hs ht heq := by
    have hstop {s : List Char} (hs : EndsItem s) : s.head?.any Json.Scan.endsWord = true := by
      rcases hs with hs | hs
      · rw [hs]
        decide
      · rw [hs]
        decide
    obtain ⟨htext, hrest⟩ := append_inj_of_stop (not_endsWord_of_mem_display x) (not_endsWord_of_mem_display y)
      (hstop hs) (hstop ht) heq
    exact ⟨display_injective (String.toList_inj.mp htext), hrest⟩

end Binary64

open Binary64

/-- Equality slot by slot. -/
theorem eq_iff_sameBits {xs ys : List Float} : xs = ys ↔ xs.length = ys.length ∧
    ∀ i < xs.length, ∃ x y, xs[i]? = some x ∧ ys[i]? = some y ∧ SameBits x y := by
  constructor
  · rintro rfl
    exact ⟨rfl, fun i hi => ⟨xs[i], xs[i], List.getElem?_eq_getElem hi, List.getElem?_eq_getElem hi, .inl rfl⟩⟩
  · rintro ⟨hlength, hslots⟩
    refine List.ext_getElem hlength fun i hi hi' => ?_
    obtain ⟨x, y, hx, hy, hxy⟩ := hslots i hi
    rw [(List.getElem_eq_iff hi).mpr hx, (List.getElem_eq_iff hi').mpr hy, sameBits_iff.mp hxy]

/-! ## Vectors -/

/-- The last opening bracket of a text parts it in one way. -/
theorem append_bracket_inj {p q u v : List Char} (hu : '[' ∉ u) (hv : '[' ∉ v) (h : p ++ '[' :: u = q ++ '[' :: v) :
    p = q ∧ u = v := by
  have hfree {w : List Char} (hw : '[' ∉ w) : ∀ c ∈ w.reverse, (c == '[') = false := by
    intro c hc
    rw [beq_eq_false_iff_ne]
    rintro rfl
    exact hw (List.mem_reverse.mp hc)
  have hreverse := congrArg List.reverse h
  simp only [List.reverse_append, List.reverse_cons, List.append_assoc, List.singleton_append] at hreverse
  obtain ⟨huv, hpq⟩ := append_inj_of_stop (hfree hu) (hfree hv) rfl rfl hreverse
  exact ⟨List.reverse_inj.mp (List.cons.inj hpq).2, List.reverse_inj.mp huv⟩

namespace Dense

/-- What stands before the list: no name leaves no colon either. -/
def nameText : Option String → List Char
  | none => []
  | some name => name.toList ++ [':']

theorem nameText_injective : Function.Injective nameText := by
  intro a b h
  cases a with
  | none =>
    cases b with
    | none => rfl
    | some name => exact absurd h.symm (List.append_ne_nil_of_right_ne_nil _ (by decide))
  | some name =>
    cases b with
    | none => exact absurd h (List.append_ne_nil_of_right_ne_nil _ (by decide))
    | some name' => rw [String.toList_inj.mp (List.append_cancel_right h)]

theorem toList_display (d : Dense) : d.display.toList = nameText d.name ++ bracketed shown d.toList := by
  unfold display nameText
  extract_lets body
  have hbody : body.toList = bracketed shown d.toList := toList_brackets Binary64.display d.toList
  cases d.name with
  | none => exact hbody
  | some name =>
    rw [String.toList_append, String.toList_append, hbody]
    rfl

example : (⟨#[1, 0.5, negZero], some "w:[", none, .empty⟩ : Dense).display = "w:[:[1, 0.5, -0]" := by decide

theorem display_eq_iff {a b : Dense} : a.display = b.display ↔ a.name = b.name ∧ a.toList = b.toList := by
  rw [← String.toList_inj, toList_display, toList_display]
  constructor
  · intro h
    have hfree : ∀ x, '[' ∉ shown x := not_mem_shown (by decide)
    obtain ⟨u, hu, hu'⟩ := exists_bracketed hfree a.toList
    obtain ⟨v, hv, hv'⟩ := exists_bracketed hfree b.toList
    rw [hu, hv] at h
    obtain ⟨hname, huv⟩ := append_bracket_inj hu' hv' h
    exact ⟨nameText_injective hname, delimited_shown.bracketed.injective (by rw [hu, hv, huv])⟩
  · rintro ⟨hname, hslots⟩
    rw [hname, hslots]

end Dense

/-! ## Matrices -/

namespace Matrix

theorem toList_display (m : Matrix) :
    m.display.toList = bracketed (bracketed shown) ((List.range m.rows).map m.rowCells) := by
  unfold display
  extract_lets rowText
  have hrow : (fun row => (rowText row).toList) = fun row => bracketed shown (m.rowCells row) :=
    funext fun row => toList_brackets Binary64.display (m.rowCells row)
  rw [toList_brackets, hrow]
  simp [bracketed, Function.comp_def]

theorem display_eq_iff {m n : Matrix} :
    m.display = n.display ↔ m.rows = n.rows ∧ ∀ row < m.rows, m.rowCells row = n.rowCells row := by
  rw [← String.toList_inj, toList_display, toList_display, delimited_shown.bracketed.bracketed.injective.eq_iff]
  constructor
  · intro h
    have hrows : m.rows = n.rows := by simpa using congrArg List.length h
    rw [← hrows] at h
    exact ⟨hrows, fun row hr => List.map_inj_left.mp h row (List.mem_range.mpr hr)⟩
  · rintro ⟨hrows, hcells⟩
    rw [← hrows]
    exact List.map_congr_left fun row hr => hcells row (List.mem_range.mp hr)

/-- A row, cell by cell. -/
theorem rowCells_eq_iff {m n : Matrix} {row : Nat} (hr : row < m.rows) (hr' : row < n.rows) :
    m.rowCells row = n.rowCells row ↔ m.cols = n.cols ∧
      ∀ col < m.cols, ∃ x y, m.get row col = .ok x ∧ n.get row col = .ok y ∧ SameBits x y := by
  rw [eq_iff_sameBits, length_rowCells hr, length_rowCells hr']
  refine and_congr_right fun hcols => forall₂_congr fun col hc => ?_
  rw [getElem?_rowCells hc, getElem?_rowCells (hcols ▸ hc), get_of_lt hr hc, get_of_lt hr' (hcols ▸ hc)]
  simp only [cell_eq_ok]

end Matrix

/-- Two vectors are displayed alike exactly if they have the same name, no name not being an
    empty one, and the same number of slots with the same bits in each, whatever the names
    contain. Two matrices are displayed alike exactly if they have the same number of rows and,
    where there is a row, the same number of columns and the same bits in each cell. Bits count
    as the same where both are of NaN. -/
theorem display_identifies (a b : Dense) (m n : Matrix) :
    (a.display = b.display ↔ a.name = b.name ∧ a.size = b.size ∧
      ∀ i < a.size, ∃ x y, a.slot i = .ok x ∧ b.slot i = .ok y ∧ SameBits x y) ∧
    (m.display = n.display ↔ m.rows = n.rows ∧ (0 < m.rows → m.cols = n.cols ∧
      ∀ row < m.rows, ∀ col < m.cols, ∃ x y, m.get row col = .ok x ∧ n.get row col = .ok y ∧ SameBits x y)) := by
  constructor
  · rw [Dense.display_eq_iff, eq_iff_sameBits]
    simp only [Dense.slot_eq_ok]
    rfl
  · rw [Matrix.display_eq_iff]
    refine and_congr_right fun hrows => ?_
    constructor
    · intro hcells hpos
      have hrow (row : Nat) (hr : row < m.rows) := (Matrix.rowCells_eq_iff hr (hrows ▸ hr)).mp (hcells row hr)
      exact ⟨(hrow 0 hpos).1, fun row hr => (hrow row hr).2⟩
    · intro hcells row hr
      obtain ⟨hcols, hcells⟩ := hcells (Nat.zero_lt_of_lt hr)
      exact (Matrix.rowCells_eq_iff hr (hrows ▸ hr)).mpr ⟨hcols, hcells row hr⟩

/-- A zero of the other sign shows behind a name with a list in it, and an empty name shows
    beside none; bindings and a cached length do not. Without rows the columns do not show, but
    rows without columns do. -/
theorem displays_of_odd_names :
    let a : Dense := ⟨#[1, negZero], some "w:[2, 3]", none, .empty⟩
    let b : Dense := ⟨#[1, zero], some "w:[2, 3]", none, .empty⟩
    let c : Dense := ⟨#[zero / zero], some "", none, .empty⟩
    let d : Dense := ⟨#[zero / zero], none, some (.ofList [("x", 0)]), ⟨some 4⟩⟩
    let e : Dense := ⟨#[zero / zero], none, none, .empty⟩
    (a.display ≠ b.display ∧ c.display ≠ d.display ∧ d.display = e.display) ∧
      (Matrix.zeros 0 3).display = (Matrix.zeros 0 5).display ∧
      (Matrix.zeros 1 0).display ≠ (Matrix.zeros 2 0).display := by
  intro a b c d e
  obtain ⟨hab, hempty⟩ := display_identifies a b (Matrix.zeros 0 3) (Matrix.zeros 0 5)
  obtain ⟨hcd, hrows⟩ := display_identifies c d (Matrix.zeros 1 0) (Matrix.zeros 2 0)
  obtain ⟨hde, -⟩ := display_identifies d e (Matrix.zeros 0 0) (Matrix.zeros 0 0)
  refine ⟨⟨fun h => ?_, fun h => ?_, ?_⟩, ?_, fun h => ?_⟩
  · obtain ⟨x, y, hx, hy, hxy⟩ := (hab.mp h).2.2 1 (by decide)
    cases hx
    cases hy
    exact absurd (sameBits_iff.mp hxy) (by decide)
  · exact absurd (hcd.mp h).1 (by decide)
  · refine hde.mpr ⟨rfl, rfl, fun i hi => ?_⟩
    obtain rfl : i = 0 := Nat.lt_one_iff.mp hi
    exact ⟨_, _, rfl, rfl, .inl rfl⟩
  · exact hempty.mpr ⟨rfl, fun hpos => absurd hpos (by decide)⟩
  · exact absurd (hrows.mp h).1 (by decide)

end FeatureVector

/-
  FeatureVector.Proofs.Json.Building — the lexemes of a value build that value, nothing else
  builds it, and so the reader takes exactly the texts of values.

  Where a value is missing, its lexemes fill the hole and nothing else (`foldlM_lexemes`);
  by induction along the value, the items of an array and the members of an object in turn.
  Conversely what has been built says which lexemes it was built of (`Build.read`), and each
  lexeme adds itself to them (`read_of_step?`).

  With the scanner: `parse?_eq_some_iff`, a text is read as a value if it is one of the
  value's texts, and `parse?_toText`, the round trip of documents, for either layout.
-/
import FeatureVector.Json.Tree
import FeatureVector.Proofs.Json.Lexing

namespace FeatureVector.Json

namespace Build

theorem step?_firstItem {l : Lexeme} (h : l ≠ .mark .closeBracket) (holes : List Hole) :
    step? (firstItem holes) l = step? (value (.item [] :: holes)) l := by
  cases l with
  | mark m =>
    cases m with
    | closeBracket => exact absurd rfl h
    | openBrace | closeBrace | openBracket | colon | comma => rfl
  | word w => rfl
  | string t => rfl

/-- No value begins with the end of an array. -/
theorem exists_cons_lexemes (v : Json) : ∃ l ls, v.lexemes = l :: ls ∧ l ≠ .mark .closeBracket := by
  cases v with
  | null | bool _ | number _ | string _ => exact ⟨_, [], by rw [lexemes], by simp⟩
  | array items =>
    cases items with
    | nil => exact ⟨.mark .openBracket, _, by rw [lexemes], by decide⟩
    | cons v items => exact ⟨.mark .openBracket, _, by rw [lexemes]; rfl, by decide⟩
  | object members =>
    cases members with
    | nil => exact ⟨.mark .openBrace, _, by rw [lexemes], by decide⟩
    | cons m members =>
      obtain ⟨key, v⟩ := m
      exact ⟨.mark .openBrace, _, by rw [lexemes]; rfl, by decide⟩

theorem foldlM_firstItem (v : Json) (holes : List Hole) :
    v.lexemes.foldlM step? (firstItem holes) = v.lexemes.foldlM step? (value (.item [] :: holes)) := by
  obtain ⟨l, ls, hv, hl⟩ := exists_cons_lexemes v
  rw [hv, List.foldlM_cons, List.foldlM_cons, step?_firstItem hl]

mutual

/-- The lexemes of a value fill the innermost hole. -/
theorem foldlM_lexemes :
    (v : Json) → (holes : List Hole) → v.lexemes.foldlM step? (value holes) = some (complete v holes)
  | .null, _ | .bool _, _ | .number _, _ | .string _, _ | .array [], _ | .object [], _ => by
    rw [lexemes]
    rfl
  | .array (v :: items), holes => by
    rw [lexemes, List.foldlM_append, List.foldlM_cons]
    show (v.lexemes ++ (itemLexemes items ++ [Lexeme.mark .closeBracket])).foldlM step? (firstItem holes) = _
    rw [List.foldlM_append, foldlM_firstItem, foldlM_lexemes v, Option.bind_eq_bind, Option.bind_some,
      foldlM_itemLexemes items v [] holes]
    rfl
  | .object ((key, v) :: members), holes => by
    rw [lexemes, List.foldlM_append, List.foldlM_cons]
    show (v.lexemes ++ (memberLexemes members ++ [Lexeme.mark .closeBrace])).foldlM step?
      (value (.member [] key :: holes)) = _
    rw [List.foldlM_append, foldlM_lexemes v, Option.bind_eq_bind, Option.bind_some,
      foldlM_memberLexemes members v [] key holes]
    rfl

/-- Behind an item: the others and the end of the array. -/
theorem foldlM_itemLexemes :
    (items : List Json) → (v : Json) → (before : List Json) → (holes : List Hole) →
      (itemLexemes items ++ [Lexeme.mark .closeBracket]).foldlM step? (complete v (.item before :: holes)) =
        some (complete (array ((v :: before).reverse ++ items)) holes)
  | [], v, before, holes => by
    rw [itemLexemes, List.append_nil]
    rfl
  | w :: items, v, before, holes => by
    rw [itemLexemes, List.append_assoc, List.foldlM_append, List.foldlM_cons, List.append_assoc]
    show (w.lexemes ++ (itemLexemes items ++ [Lexeme.mark .closeBracket])).foldlM step?
      (value (.item (v :: before) :: holes)) = _
    rw [List.foldlM_append, foldlM_lexemes w, Option.bind_eq_bind, Option.bind_some,
      foldlM_itemLexemes items w (v :: before) holes, List.reverse_cons (a := w), List.append_assoc]
    rfl

/-- Behind a member: the others and the end of the object. -/
theorem foldlM_memberLexemes :
    (members : List (Text × Json)) → (v : Json) → (before : List (Text × Json)) → (key : Text) →
      (holes : List Hole) →
      (memberLexemes members ++ [Lexeme.mark .closeBrace]).foldlM step? (complete v (.member before key :: holes)) =
        some (complete (object (((key, v) :: before).reverse ++ members)) holes)
  | [], v, before, key, holes => by
    rw [memberLexemes, List.append_nil]
    rfl
  | (key', w) :: members, v, before, key, holes => by
    rw [memberLexemes, List.append_assoc, List.foldlM_append, List.foldlM_cons]
    simp only [List.append_assoc]
    show (w.lexemes ++ (memberLexemes members ++ [Lexeme.mark .closeBrace])).foldlM step?
      (value (.member ((key, v) :: before) key' :: holes)) = _
    rw [List.foldlM_append, foldlM_lexemes w, Option.bind_eq_bind, Option.bind_some,
      foldlM_memberLexemes members w ((key, v) :: before) key' holes, List.reverse_cons (a := (key', w)),
      List.append_assoc]
    rfl

end

/-! ## What has been built -/

/-- Items, each with the comma behind it. -/
def itemsBefore (items : List Json) : List Lexeme := items.flatMap fun v => v.lexemes ++ [.mark .comma]

/-- Members, each with the comma behind it. -/
def membersBefore (members : List (Text × Json)) : List Lexeme :=
  members.flatMap fun m => [.string m.1, .mark .colon] ++ (m.2.lexemes ++ [.mark .comma])

theorem lexemes_array_concat (items : List Json) (v : Json) :
    (array (items ++ [v])).lexemes =
      [.mark .openBracket] ++ (itemsBefore items ++ (v.lexemes ++ [.mark .closeBracket])) := by
  have hrest (items : List Json) (w : Json) : w.lexemes ++ itemLexemes (items ++ [v]) =
      itemsBefore (w :: items) ++ v.lexemes := by
    induction items generalizing w with
    | nil => simp [itemLexemes, itemsBefore]
    | cons u items ih =>
      rw [List.cons_append, itemLexemes, ih u]
      simp [itemsBefore]
  cases items with
  | nil => simp [lexemes, itemLexemes, itemsBefore]
  | cons w items =>
    rw [List.cons_append, lexemes, ← List.append_assoc w.lexemes, hrest, List.append_assoc]

theorem lexemes_object_concat (members : List (Text × Json)) (key : Text) (v : Json) :
    (object (members ++ [(key, v)])).lexemes =
      [.mark .openBrace] ++ (membersBefore members ++ ([.string key, .mark .colon] ++
        (v.lexemes ++ [.mark .closeBrace]))) := by
  have hrest (members : List (Text × Json)) (k : Text) (w : Json) :
      [.string k, .mark .colon] ++ (w.lexemes ++ memberLexemes (members ++ [(key, v)])) =
        membersBefore ((k, w) :: members) ++ ([.string key, .mark .colon] ++ v.lexemes) := by
    induction members generalizing k w with
    | nil => simp [memberLexemes, membersBefore]
    | cons m members ih =>
      obtain ⟨k', w'⟩ := m
      have hih := ih k' w'
      simp only [List.cons_append, List.nil_append] at hih
      simp only [List.cons_append, List.nil_append, memberLexemes, hih]
      simp [membersBefore]
  cases members with
  | nil => simp [lexemes, memberLexemes, membersBefore]
  | cons m members =>
    obtain ⟨k, w⟩ := m
    have hall := congrArg (· ++ [Lexeme.mark .closeBrace]) (hrest members k w)
    simp only [List.append_assoc, List.cons_append, List.nil_append] at hall
    simp only [List.cons_append, List.nil_append, lexemes, hall]

/-- What stands before the value a hole is for. -/
def holeRead : Hole → List Lexeme
  | .item before => [.mark .openBracket] ++ itemsBefore before.reverse
  | .member before key => [.mark .openBrace] ++ (membersBefore before.reverse ++ [.string key, .mark .colon])

/-- The innermost hole stands first. -/
def holesRead : List Hole → List Lexeme
  | [] => []
  | h :: holes => holesRead holes ++ holeRead h

/-- The lexemes something has been built of. -/
def read : Build → List Lexeme
  | value holes => holesRead holes
  | firstItem holes => holesRead holes ++ [.mark .openBracket]
  | firstKey holes => holesRead holes ++ [.mark .openBrace]
  | nextKey before holes => holesRead holes ++ ([.mark .openBrace] ++ membersBefore before.reverse)
  | colon before key holes =>
    holesRead holes ++ ([.mark .openBrace] ++ (membersBefore before.reverse ++ [.string key]))
  | complete v holes => holesRead holes ++ v.lexemes

theorem read_of_beginValue? {holes : List Hole} {l : Lexeme} {b : Build} (h : beginValue? holes l = some b) :
    b.read = holesRead holes ++ [l] := by
  cases l with
  | word w =>
    cases h
    cases w <;> rfl
  | string t =>
    cases h
    rfl
  | mark m =>
    cases m with
    | openBracket | openBrace =>
      cases h
      rfl
    | closeBrace | closeBracket | colon | comma => cases h

/-- Behind a complete value only a mark can stand. -/
theorem exists_mark_of_complete {v : Json} {holes : List Hole} {l : Lexeme} {b : Build}
    (h : step? (complete v holes) l = some b) : ∃ m, l = .mark m := by
  cases l with
  | mark m => exact ⟨m, rfl⟩
  | word _ | string _ =>
    cases holes with
    | nil => cases h
    | cons hole holes => cases hole <;> cases h

/-- A word completes a value. -/
theorem exists_complete_of_word {b b' : Build} {w : Word} (h : step? b (.word w) = some b') :
    ∃ v holes, b' = complete v holes := by
  cases b with
  | value holes | firstItem holes => exact ⟨_, _, (Option.some.inj h).symm⟩
  | firstKey holes | nextKey before holes | colon before key holes => cases h
  | complete v holes =>
    obtain ⟨m, hm⟩ := exists_mark_of_complete h
    cases hm

/-- A lexeme adds itself. -/
theorem read_of_step? {b b' : Build} {l : Lexeme} (h : step? b l = some b') : b'.read = b.read ++ [l] := by
  cases b with
  | value holes => exact read_of_beginValue? h
  | firstItem holes =>
    by_cases hl : l = .mark .closeBracket
    · subst hl
      cases h
      simp [read, lexemes]
    · rw [step?_firstItem hl] at h
      rw [read_of_beginValue? h]
      simp [holesRead, holeRead, itemsBefore, read]
  | firstKey holes =>
    cases l with
    | word w => cases h
    | string key =>
      cases h
      simp [read, membersBefore]
    | mark m =>
      cases m with
      | closeBrace =>
        cases h
        simp [read, lexemes]
      | openBrace | openBracket | closeBracket | colon | comma => cases h
  | nextKey before holes =>
    cases l with
    | word w => cases h
    | mark m => cases h
    | string key =>
      cases h
      simp [read]
  | colon before key holes =>
    cases l with
    | word w => cases h
    | string t => cases h
    | mark m =>
      cases m with
      | colon =>
        cases h
        simp [read, holesRead, holeRead]
      | openBrace | closeBrace | openBracket | closeBracket | comma => cases h
  | complete v holes =>
    obtain ⟨m, rfl⟩ := exists_mark_of_complete h
    cases holes with
    | nil => cases h
    | cons hole holes =>
      cases hole with
      | item before =>
        cases m with
        | comma =>
          cases h
          simp [read, holesRead, holeRead, itemsBefore]
        | closeBracket =>
          cases h
          simp [read, holesRead, holeRead, lexemes_array_concat]
        | openBrace | closeBrace | openBracket | colon => cases h
      | member before key =>
        cases m with
        | comma =>
          cases h
          simp [read, holesRead, holeRead, membersBefore]
        | closeBrace =>
          cases h
          simp [read, holesRead, holeRead, lexemes_object_concat]
        | openBrace | openBracket | closeBracket | colon => cases h

theorem read_of_foldlM {ls : List Lexeme} {b b' : Build} (h : ls.foldlM step? b = some b') :
    b'.read = b.read ++ ls := by
  induction ls generalizing b with
  | nil =>
    cases h
    rw [List.append_nil]
  | cons l ls ih =>
    rw [List.foldlM_cons] at h
    obtain ⟨t, ht, h⟩ := Option.bind_eq_some_iff.mp h
    rw [ih h, read_of_step? ht, List.append_assoc]
    rfl

end Build

/-- The lexemes of a value build it, and no others do. -/
theorem ofLexemes?_eq_some_iff {ls : List Lexeme} {v : Json} : ofLexemes? ls = some v ↔ ls = v.lexemes := by
  constructor
  · intro h
    obtain ⟨b, hb, hfinish⟩ := Option.bind_eq_some_iff.mp h
    have hread := Build.read_of_foldlM hb
    unfold Build.finish? at hfinish
    split at hfinish
    all_goals cases hfinish
    exact hread.symm
  · rintro rfl
    rw [ofLexemes?, Build.start, Build.foldlM_lexemes]
    rfl

/-! ## Texts -/

theorem Build.apart_of_foldlM {ls : List Lexeme} {b b' : Build} (h : ls.foldlM step? b = some b') : Apart ls := by
  induction ls generalizing b with
  | nil => exact .nil
  | cons l ls ih =>
    rw [List.foldlM_cons] at h
    obtain ⟨t, ht, h⟩ := Option.bind_eq_some_iff.mp h
    refine List.isChain_cons.mpr ⟨fun l' hl' hword hword' => ?_, ih h⟩
    cases ls with
    | nil => cases hl'
    | cons k ls =>
      cases hl'
      rw [List.foldlM_cons] at h
      obtain ⟨u, hu, -⟩ := Option.bind_eq_some_iff.mp h
      cases l with
      | mark m => exact hword
      | string t => exact hword
      | word w =>
        obtain ⟨v, holes, rfl⟩ := exists_complete_of_word ht
        obtain ⟨m, rfl⟩ := exists_mark_of_complete hu
        exact hword'

theorem apart_lexemes (v : Json) : Apart v.lexemes := Build.apart_of_foldlM (Build.foldlM_lexemes v [])

/-- The reader takes the texts of values, and nothing else. -/
theorem parse?_eq_some_iff {s : String} {v : Json} : parse? s = some v ↔ v.SpelledBy s := by
  constructor
  · intro h
    obtain ⟨ls, hls, hv⟩ := Option.bind_eq_some_iff.mp h
    rw [ofLexemes?_eq_some_iff] at hv
    unfold SpelledBy
    rw [← hv]
    exact lexed_of_lexemes? hls
  · intro h
    rw [parse?, lexemes?_of_lexed h (apart_lexemes v), Option.bind_some, ofLexemes?_eq_some_iff]

/-- Documents read back, whichever way they are laid out. -/
theorem parse?_toText (layout : Layout) {v : Json} (h : v.Writable) : parse? (toText layout v) = some v :=
  parse?_eq_some_iff.mpr (spelledBy_toText layout h)

end FeatureVector.Json

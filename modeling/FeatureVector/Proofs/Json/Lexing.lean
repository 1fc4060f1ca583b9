/-
  FeatureVector.Proofs.Json.Lexing — the texts of a value, and that they are scanned as its
  lexemes.

  `Json.lexemes` lists the lexemes of a value. A text of the value is these lexemes one behind
  the other with any blanks around them (`Lexed`, `Json.SpelledBy`); so layout leaves no trace,
  and what a writer makes is one of the texts (`lexed_render`).

  - A scan is settled when the text may end where it stands: between lexemes, or behind a word
    that is complete (`Settled`). From there lexemes are scanned as what they are, but for a
    word behind a word (`Scan.foldlM_lexed`, `lexemes?_of_lexed`).
  - Whatever has been read is accounted for by the lexemes that are complete and the part of
    the one that is not (`Scan.Accounts`). A character keeps this (`Scan.accounts_step`), so
    what a scan finds in a text is spelled by it (`lexed_of_lexemes?`).
-/
import Mathlib.Data.List.Chain
import FeatureVector.Json.Render
import FeatureVector.Proofs.Json.Texts
import FeatureVector.Proofs.Json.Words

namespace FeatureVector.Json

/-! ## Lexemes of a value -/

mutual

def lexemes : Json → List Lexeme
  | null => [.word .null]
  | bool b => [.word (.bool b)]
  | number n => [.word (.number n)]
  | string t => [.string t]
  | array [] => [.mark .openBracket, .mark .closeBracket]
  | array (v :: items) =>
    [.mark .openBracket] ++ (lexemes v ++ (itemLexemes items ++ [.mark .closeBracket]))
  | object [] => [.mark .openBrace, .mark .closeBrace]
  | object ((key, v) :: members) =>
    [.mark .openBrace] ++ ([.string key] ++ ([.mark .colon] ++ (lexemes v ++
      (memberLexemes members ++ [.mark .closeBrace]))))

/-- Further items, each behind a comma. -/
def itemLexemes : List Json → List Lexeme
  | [] => []
  | v :: items => [.mark .comma] ++ (lexemes v ++ itemLexemes items)

/-- Further members, each behind a comma. -/
def memberLexemes : List (Text × Json) → List Lexeme
  | [] => []
  | (key, v) :: members =>
    [.mark .comma] ++ ([.string key] ++ ([.mark .colon] ++ (lexemes v ++ memberLexemes members)))

end

mutual

/-- Numerals are well formed, texts name characters: what a writer makes. -/
def Writable : Json → Prop
  | null => True
  | bool _ => True
  | number n => n.WellFormed
  | string t => t.IsPlain
  | array items => ItemsWritable items
  | object members => MembersWritable members

def ItemsWritable : List Json → Prop
  | [] => True
  | v :: items => v.Writable ∧ ItemsWritable items

def MembersWritable : List (Text × Json) → Prop
  | [] => True
  | (key, v) :: members => key.IsPlain ∧ v.Writable ∧ MembersWritable members

end

theorem itemsWritable_iff {items : List Json} : ItemsWritable items ↔ ∀ v ∈ items, v.Writable := by
  induction items with
  | nil => simp [ItemsWritable]
  | cons v items ih => simp [ItemsWritable, ih]

theorem membersWritable_iff {members : List (Text × Json)} :
    MembersWritable members ↔ ∀ m ∈ members, m.1.IsPlain ∧ m.2.Writable := by
  induction members with
  | nil => simp [MembersWritable]
  | cons m members ih =>
    obtain ⟨key, v⟩ := m
    simp [MembersWritable, ih, and_assoc]

/-! ## Texts of lexemes -/

inductive Lexeme.SpelledBy : Lexeme → List Char → Prop
  | mark (m : Mark) : SpelledBy (.mark m) [m.char]
  | word {w : Word} {cs : List Char} : w.SpelledBy cs → SpelledBy (.word w) cs
  | string {t : Text} {cs : List Char} : t.SpelledBy cs → SpelledBy (.string t) ('"' :: (cs ++ ['"']))

/-- The characters are these lexemes, with blanks before, between and behind them. -/
inductive Lexed : List Lexeme → List Char → Prop
  | nil : Lexed [] []
  | blank {c : Char} {ls : List Lexeme} {cs : List Char} : isBlank c → Lexed ls cs → Lexed ls (c :: cs)
  | cons {l : Lexeme} {ls : List Lexeme} {cs cs' : List Char} :
      l.SpelledBy cs → Lexed ls cs' → Lexed (l :: ls) (cs ++ cs')

/-- The texts of a value. -/
def SpelledBy (v : Json) (s : String) : Prop := Lexed v.lexemes s.toList

section Lexed

variable {ls ls' : List Lexeme} {cs cs' : List Char}

theorem Lexed.append (h : Lexed ls cs) (h' : Lexed ls' cs') : Lexed (ls ++ ls') (cs ++ cs') := by
  induction h with
  | nil => exact h'
  | blank hc _ ih => exact .blank hc ih
  | cons hl _ ih =>
    rw [List.append_assoc]
    exact .cons hl ih

theorem lexed_one {l : Lexeme} (h : l.SpelledBy cs) : Lexed [l] cs := by
  have hone := Lexed.cons h .nil
  rwa [List.append_nil] at hone

theorem lexed_blanks (h : ∀ c ∈ cs, isBlank c) : Lexed [] cs := by
  induction cs with
  | nil => exact .nil
  | cons c cs ih => exact .blank (h c List.mem_cons_self) (ih fun d hd => h d (List.mem_cons_of_mem c hd))

end Lexed

def Lexeme.IsWord : Lexeme → Prop
  | .word _ => True
  | _ => False

/-- No word stands behind a word. -/
def Apart (ls : List Lexeme) : Prop := ls.IsChain fun l l' => l.IsWord → ¬ l'.IsWord

namespace Scan

/-! ## Scanning lexemes -/

/-- The lexemes, last first, when the text may end here. -/
def settle? (s : Scan) : Option (List Lexeme) :=
  match s.mode with
  | .between => some s.done
  | .word read => finishWord? read s.done
  | .string _ | .escape _ | .unit _ _ _ => none

def Settled (s : Scan) (done : List Lexeme) : Prop := s.settle? = some done

theorem finish?_eq (s : Scan) : s.finish? = s.settle?.map List.reverse := by
  obtain ⟨mode, done⟩ := s
  cases mode <;> rfl

/-- What ends a word starts the next lexeme, whatever stands before it. -/
theorem step?_of_settled {s : Scan} {done : List Lexeme} {c : Char} (h : Settled s done) (hc : endsWord c) :
    step? s c = some (begin done c) := by
  obtain ⟨mode, before⟩ := s
  cases mode with
  | between =>
    cases h
    rfl
  | word read =>
    have hfinish : finishWord? read before = some done := h
    simp only [step?, hc, if_true, hfinish, Option.map_some]
  | string read => cases h
  | escape read => cases h
  | unit read missing value => cases h

theorem begin_mark (done : List Lexeme) (m : Mark) : begin done m.char = ⟨.between, .mark m :: done⟩ := by
  cases m <;> rfl

theorem endsWord_mark (m : Mark) : endsWord m.char := by
  cases m <;> rfl

theorem foldlM_word {cs : List Char} (h : ∀ c ∈ cs, endsWord c = false) (read : List Char) (done : List Lexeme) :
    cs.foldlM step? ⟨.word read, done⟩ = some ⟨.word (cs.reverse ++ read), done⟩ := by
  induction cs generalizing read with
  | nil => rfl
  | cons c cs ih =>
    have hstep : step? ⟨.word read, done⟩ c = some ⟨.word (c :: read), done⟩ := by
      simp [step?, h c List.mem_cons_self]
    rw [List.foldlM_cons, hstep, Option.bind_eq_bind, Option.bind_some,
      ih fun d hd => h d (List.mem_cons_of_mem c hd)]
    simp

theorem begin_of_not_endsWord {c : Char} (h : endsWord c = false) (done : List Lexeme) :
    begin done c = ⟨.word [c], done⟩ := by
  simp only [endsWord, Bool.or_eq_false_iff, Option.isSome_eq_false_iff, Option.isNone_iff_eq_none] at h
  obtain ⟨⟨hblank, hmark⟩, hquote⟩ := h
  simp [begin, hblank, hmark, hquote]

theorem settled_word {w : Word} {cs : List Char} (h : w.SpelledBy cs) (done : List Lexeme) :
    ∃ s, cs.foldlM step? ⟨.between, done⟩ = some s ∧ Settled s (.word w :: done) := by
  have hends := Word.not_endsWord h
  have hchars := Word.ofChars?_eq_some_iff.mpr h
  obtain ⟨c, cs, rfl⟩ := Word.exists_cons_of_spelledBy h
  refine ⟨⟨.word (cs.reverse ++ [c]), done⟩, ?_, ?_⟩
  · have hstep : step? ⟨.between, done⟩ c = some ⟨.word [c], done⟩ := by
      simp only [step?, begin_of_not_endsWord (hends c List.mem_cons_self)]
    rw [List.foldlM_cons, hstep]
    exact foldlM_word (fun d hd => hends d (List.mem_cons_of_mem c hd)) [c] done
  · simp [Settled, settle?, finishWord?, hchars]

theorem foldlM_string {t : Text} {cs : List Char} (h : t.SpelledBy cs) {s : Scan} {done : List Lexeme}
    (hs : Settled s done) :
    ('"' :: (cs ++ ['"'])).foldlM step? s = some ⟨.between, .string t :: done⟩ := by
  have hopen : step? s '"' = some ⟨.string [], done⟩ := step?_of_settled hs rfl
  have hclose : step? ⟨.string (t.reverse ++ []), done⟩ '"' = some ⟨.between, .string t :: done⟩ := by
    simp [step?]
  rw [List.foldlM_cons, hopen, Option.bind_eq_bind, Option.bind_some, List.foldlM_append, foldlM_text h,
    Option.bind_eq_bind, Option.bind_some, List.foldlM_cons, hclose]
  rfl

/-- Lexemes are scanned as what they are, if a word among them is not taken for the end of
    another. -/
theorem foldlM_lexed {ls : List Lexeme} {cs : List Char} (h : Lexed ls cs) (hapart : Apart ls) {s : Scan}
    {done : List Lexeme} (hs : Settled s done) (hnext : s.mode = .between ∨ ∀ l ∈ ls.head?, ¬ l.IsWord) :
    ∃ s', cs.foldlM step? s = some s' ∧ Settled s' (ls.reverse ++ done) := by
  induction h generalizing s done with
  | nil => exact ⟨s, rfl, hs⟩
  | @blank c ls cs hc _ ih =>
    have hstep : step? s c = some ⟨.between, done⟩ := by
      rw [step?_of_settled hs (by simp [endsWord, hc]), begin, if_pos hc]
    rw [List.foldlM_cons, hstep]
    exact ih hapart rfl (.inl rfl)
  | @cons l ls cs cs' hl _ ih =>
    rw [List.reverse_cons, List.append_assoc, List.foldlM_append]
    cases hl with
    | mark m =>
      rw [List.foldlM_cons, step?_of_settled hs (endsWord_mark m), begin_mark]
      exact ih hapart.of_cons rfl (.inl rfl)
    | word hw =>
      have hbetween : s = ⟨.between, done⟩ := by
        obtain ⟨mode, before⟩ := s
        rcases hnext with hmode | hword
        · cases hmode
          cases hs
          rfl
        · exact (hword _ rfl trivial).elim
      obtain ⟨t, ht, hsettled⟩ := settled_word hw done
      rw [hbetween, ht]
      refine ih hapart.of_cons hsettled (.inr fun l hl => ?_)
      exact List.isChain_cons.mp hapart |>.1 l hl trivial
    | string ht =>
      rw [foldlM_string ht hs]
      exact ih hapart.of_cons rfl (.inl rfl)

/-! ## What has been read -/

/-- The part of a text that belongs to the lexeme that is not complete. -/
inductive Pending : Mode → List Char → Prop
  | between : Pending .between []
  | word (read : List Char) : Pending (.word read) read.reverse
  | string {read : List Piece} {cs : List Char} : Text.SpelledBy read.reverse cs → Pending (.string read) ('"' :: cs)
  | escape {read : List Piece} {cs : List Char} : Text.SpelledBy read.reverse cs →
      Pending (.escape read) ('"' :: (cs ++ ['\\']))
  | unit {read : List Piece} {cs ds : List Char} {missing value : Nat} : Text.SpelledBy read.reverse cs →
      0 < missing → ds.length + missing = 4 → hexNumber? ds = some value →
      Pending (.unit read missing value) ('"' :: (cs ++ '\\' :: 'u' :: ds))

/-- The characters are complete lexemes and a part of one more. -/
def Accounts (s : Scan) (cs : List Char) : Prop :=
  ∃ before part, cs = before ++ part ∧ Lexed s.done.reverse before ∧ Pending s.mode part

theorem lexed_concat {l : Lexeme} {done : List Lexeme} {cs cs' : List Char} (h : Lexed done.reverse cs)
    (hl : l.SpelledBy cs') : Lexed (l :: done).reverse (cs ++ cs') := by
  rw [List.reverse_cons]
  exact h.append (lexed_one hl)

theorem text_concat {read : List Piece} {p : Piece} {cs cs' : List Char} (h : Text.SpelledBy read.reverse cs)
    (hp : p.SpelledBy cs') : Text.SpelledBy (p :: read).reverse (cs ++ cs') := by
  rw [List.reverse_cons]
  exact h.append (Text.spelledBy_singleton hp)

theorem mark_of_ofChar? {c : Char} {m : Mark} (h : Mark.ofChar? c = some m) : m.char = c := by
  unfold Mark.ofChar? at h
  split at h
  all_goals cases h
  all_goals rfl

theorem accounts_begin {done : List Lexeme} {cs : List Char} (h : Lexed done.reverse cs) (c : Char) :
    Accounts (begin done c) (cs ++ [c]) := by
  unfold begin
  by_cases hblank : isBlank c
  · rw [if_pos hblank]
    refine ⟨cs ++ [c], [], by simp, ?_, .between⟩
    have hall := h.append (.blank hblank .nil)
    rwa [List.append_nil] at hall
  · rw [if_neg hblank]
    cases hm : Mark.ofChar? c with
    | some m =>
      refine ⟨cs ++ [c], [], by simp, ?_, .between⟩
      rw [← mark_of_ofChar? hm]
      exact lexed_concat h (.mark m)
    | none =>
      by_cases hquote : c = '"'
      · rw [hquote]
        exact ⟨cs, ['"'], rfl, h, .string .nil⟩
      · simp only [beq_iff_eq, if_neg hquote]
        exact ⟨cs, [c], rfl, h, .word [c]⟩

/-- Every character is accounted for. -/
theorem accounts_step {s s' : Scan} {cs : List Char} {c : Char} (h : Accounts s cs) (hs : step? s c = some s') :
    Accounts s' (cs ++ [c]) := by
  obtain ⟨mode, done⟩ := s
  obtain ⟨before, part, rfl, hbefore, hpart⟩ := h
  cases hpart with
  | between =>
    cases hs
    rw [List.append_nil]
    exact accounts_begin hbefore c
  | word read =>
    simp only [step?] at hs
    split at hs
    · obtain ⟨done', hfinish, rfl⟩ := Option.map_eq_some_iff.mp hs
      obtain ⟨w, hw, rfl⟩ := Option.map_eq_some_iff.mp hfinish
      exact accounts_begin (lexed_concat hbefore (.word (Word.ofChars?_eq_some_iff.mp hw))) c
    · cases hs
      refine ⟨before, (c :: read).reverse, ?_, hbefore, .word (c :: read)⟩
      rw [List.reverse_cons, List.append_assoc]
  | @string read cs ht =>
    simp only [step?, beq_iff_eq] at hs
    split at hs
    · rename_i hquote
      cases hs
      refine ⟨before ++ '"' :: (cs ++ ['"']), [], by simp [hquote], lexed_concat hbefore (.string ht), .between⟩
    · split at hs
      · rename_i hbackslash
        cases hs
        exact ⟨before, _, by simp [hbackslash], hbefore, .escape ht⟩
      · split at hs
        · cases hs
        · rename_i hquote hbackslash hcontrol
          cases hs
          have hp := Piece.SpelledBy.plain hquote hbackslash (Nat.not_lt.mp hcontrol)
          exact ⟨before, _, by simp, hbefore, .string (text_concat ht hp)⟩
  | @escape read cs ht =>
    simp only [step?, beq_iff_eq] at hs
    split at hs
    · rename_i hu
      cases hs
      have hnone : hexNumber? [] = some 0 := rfl
      exact ⟨before, _, by simp [hu], hbefore, .unit ht (by decide) rfl hnone⟩
    · obtain ⟨p, hp, rfl⟩ := Option.map_eq_some_iff.mp hs
      exact ⟨before, _, by simp, hbefore, .string (text_concat ht (.short hp))⟩
  | @unit read cs ds missing value ht hmissing hlength hvalue =>
    simp only [step?] at hs
    obtain ⟨d, hd, rfl⟩ := Option.map_eq_some_iff.mp hs
    have hnumber : hexNumber? (ds ++ [c]) = some (value * 16 + d) := by
      unfold hexNumber? at hvalue ⊢
      rw [List.foldlM_append, hvalue]
      simp [hd]
    by_cases hlast : missing ≤ 1
    · rw [if_pos hlast]
      have hp : Piece.SpelledBy (Piece.ofUnit (value * 16 + d)) ('\\' :: 'u' :: (ds ++ [c])) :=
        .unit (by rw [List.length_append, List.length_singleton]; omega) hnumber
      exact ⟨before, _, by simp, hbefore, .string (text_concat ht hp)⟩
    · rw [if_neg hlast]
      refine ⟨before, '"' :: (cs ++ '\\' :: 'u' :: (ds ++ [c])), by simp, hbefore, .unit ht (by omega) ?_ hnumber⟩
      rw [List.length_append, List.length_singleton]
      omega

theorem accounts_foldlM {s s' : Scan} {cs cs' : List Char} (h : Accounts s cs) (hs : cs'.foldlM step? s = some s') :
    Accounts s' (cs ++ cs') := by
  induction cs' generalizing s cs with
  | nil =>
    cases hs
    rwa [List.append_nil]
  | cons c cs' ih =>
    rw [List.foldlM_cons] at hs
    obtain ⟨t, ht, hs⟩ := Option.bind_eq_some_iff.mp hs
    rw [List.append_cons]
    exact ih (accounts_step h ht) hs

end Scan

/-! ## Whole texts -/

theorem lexemes?_of_lexed {ls : List Lexeme} {cs : List Char} (h : Lexed ls cs) (hapart : Apart ls) :
    lexemes? cs = some ls := by
  have hstart : Scan.Settled Scan.start [] := rfl
  obtain ⟨s, hs, hsettled⟩ := Scan.foldlM_lexed h hapart hstart (.inl rfl)
  rw [lexemes?, hs, Option.bind_some, Scan.finish?_eq, hsettled, Option.map_some, List.append_nil,
    List.reverse_reverse]

theorem lexed_of_lexemes? {ls : List Lexeme} {cs : List Char} (h : lexemes? cs = some ls) : Lexed ls cs := by
  obtain ⟨s, hs, hfinish⟩ := Option.bind_eq_some_iff.mp h
  have hstart : Scan.Accounts Scan.start [] := ⟨[], [], rfl, .nil, .between⟩
  obtain ⟨before, part, rfl, hbefore, hpart⟩ := Scan.accounts_foldlM hstart hs
  obtain ⟨mode, done⟩ := s
  cases hpart with
  | between =>
    cases hfinish
    rwa [List.append_nil]
  | word read =>
    obtain ⟨done', hdone, rfl⟩ := Option.map_eq_some_iff.mp hfinish
    obtain ⟨w, hw, rfl⟩ := Option.map_eq_some_iff.mp hdone
    exact Scan.lexed_concat hbefore (.word (Word.ofChars?_eq_some_iff.mp hw))
  | string _ | escape _ | unit _ _ _ _ => cases hfinish

/-! ## The text a writer makes -/

variable (layout : Layout)

theorem isBlank_breakLine (depth : Nat) : ∀ c ∈ layout.breakLine depth, isBlank c := by
  cases layout with
  | compact =>
    intro c hc
    cases hc
  | pretty =>
    intro c hc
    rcases List.mem_cons.mp hc with rfl | hc
    · rfl
    · rw [List.eq_of_mem_replicate hc]
      rfl

/-- A mark and the line break behind it. -/
theorem lexed_mark_breakLine (m : Mark) (depth : Nat) : Lexed [.mark m] ([m.char] ++ layout.breakLine depth) :=
  (lexed_one (.mark m)).append (lexed_blanks (isBlank_breakLine layout depth))

/-- A mark and the line break before it. -/
theorem lexed_breakLine_mark (m : Mark) (depth : Nat) : Lexed [.mark m] (layout.breakLine depth ++ [m.char]) :=
  (lexed_blanks (isBlank_breakLine layout depth)).append (lexed_one (.mark m))

theorem lexed_text {t : Text} (ht : t.IsPlain) : Lexed [.string t] t.render :=
  lexed_one (.string (Text.spelledBy_render ht))

/-- A key and the colon behind it. -/
theorem lexed_key {key : Text} (h : key.IsPlain) :
    Lexed [.string key, .mark .colon] (Text.render key ++ layout.colon) := by
  refine (lexed_text h).append ?_
  cases layout with
  | compact => exact lexed_one (.mark .colon)
  | pretty => exact (lexed_one (.mark .colon)).append (lexed_blanks (List.forall_mem_singleton.mpr rfl))

mutual

theorem lexed_render (depth : Nat) : (v : Json) → v.Writable → Lexed v.lexemes (render layout depth v)
  | .null, _ => lexed_one (.word .null)
  | .bool true, _ => lexed_one (.word .true)
  | .bool false, _ => lexed_one (.word .false)
  | .number _, h => lexed_one (.word (.number (spelledBy_text h)))
  | .string _, h => lexed_text h
  | .array [], _ => (lexed_one (.mark .openBracket)).append (lexed_one (.mark .closeBracket))
  | .array (v :: items), h => by
    have hv := lexed_render (depth + 1) v h.1
    have hitems := lexed_renderItems (depth + 1) items h.2
    have hopen := lexed_mark_breakLine layout .openBracket (depth + 1)
    have hclose := lexed_breakLine_mark layout .closeBracket depth
    have hall := hopen.append (hv.append (hitems.append hclose))
    simpa only [render, lexemes, Mark.char, List.append_assoc, List.cons_append, List.nil_append] using hall
  | .object [], _ => (lexed_one (.mark .openBrace)).append (lexed_one (.mark .closeBrace))
  | .object ((key, v) :: members), h => by
    have hv := lexed_render (depth + 1) v h.2.1
    have hmembers := lexed_renderMembers (depth + 1) members h.2.2
    have hopen := lexed_mark_breakLine layout .openBrace (depth + 1)
    have hclose := lexed_breakLine_mark layout .closeBrace depth
    have hall := hopen.append ((lexed_key layout h.1).append (hv.append (hmembers.append hclose)))
    simpa only [render, lexemes, Mark.char, List.append_assoc, List.cons_append, List.nil_append] using hall

theorem lexed_renderItems (depth : Nat) :
    (items : List Json) → ItemsWritable items → Lexed (itemLexemes items) (renderItems layout depth items)
  | [], _ => .nil
  | v :: items, h => by
    have hv := lexed_render depth v h.1
    have hitems := lexed_renderItems depth items h.2
    have hall := (lexed_mark_breakLine layout .comma depth).append (hv.append hitems)
    simpa only [renderItems, itemLexemes, Mark.char, List.append_assoc, List.cons_append, List.nil_append] using hall

theorem lexed_renderMembers (depth : Nat) :
    (members : List (Text × Json)) → MembersWritable members →
      Lexed (memberLexemes members) (renderMembers layout depth members)
  | [], _ => .nil
  | (key, v) :: members, h => by
    have hv := lexed_render depth v h.2.1
    have hmembers := lexed_renderMembers depth members h.2.2
    have hcomma := lexed_mark_breakLine layout .comma depth
    have hall := hcomma.append ((lexed_key layout h.1).append (hv.append hmembers))
    simpa only [renderMembers, memberLexemes, Mark.char, List.append_assoc, List.cons_append,
      List.nil_append] using hall

end

/-- A document is one of the texts of its value. -/
theorem spelledBy_toText {v : Json} (h : v.Writable) : v.SpelledBy (toText layout v) := by
  unfold SpelledBy toText
  rw [String.toList_ofList]
  exact lexed_render layout 0 v h

end FeatureVector.Json

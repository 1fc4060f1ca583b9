/-
  FeatureVector.Proofs.Json.Words — the texts of bare words.

  A numeral is well formed when its digits are digits and its whole part has no zero too
  many in front. Of its texts (`Numeral.SpelledBy`) the writer makes one; others have another
  mark or sign before the power of ten, or zeros in front of that.
  - `numeral?_eq_some_iff`: each of them is read as the numeral, and nothing else is. The parts
    are read one behind the other, so each is settled for itself (`readWhole?_append` and
    `of_readWhole?`, the same for the others).
  - `Word.ofChars?_eq_some_iff`: the same for all words.
  - `Word.not_endsWord`: no character of a word ends a word.
-/
import FeatureVector.Json.Lexeme

namespace FeatureVector

structure Numeral.WellFormed (n : Numeral) : Prop where
  whole : ∀ c ∈ n.whole, c.isDigit
  fraction : ∀ c ∈ n.fraction, c.isDigit
  nonempty : n.whole ≠ []
  /-- A zero in front stands alone. -/
  leading : n.whole.head? = some '0' → n.whole = ['0']

theorem Numeral.head_toDigits {n : Nat} (h : (Nat.toDigits 10 n).head? = some '0') : n = 0 := by
  induction n using Nat.strongRecOn with
  | ind n ih =>
    rw [Nat.toDigits_eq_if (by decide)] at h
    split at h
    · rename_i hn
      rw [List.head?_singleton, Option.some.injEq] at h
      have : n = 0 ∨ n = 1 ∨ n = 2 ∨ n = 3 ∨ n = 4 ∨ n = 5 ∨ n = 6 ∨ n = 7 ∨ n = 8 ∨ n = 9 := by omega
      rcases this with rfl | rfl | rfl | rfl | rfl | rfl | rfl | rfl | rfl | rfl
      · rfl
      all_goals revert h; decide
    · rename_i hn
      obtain ⟨c, cs, hc⟩ := List.exists_cons_of_ne_nil (Nat.toDigits_ne_nil (n := n / 10) (b := 10))
      rw [hc] at h
      have := ih (n / 10) (by omega) (by rw [hc]; exact h)
      omega

theorem Numeral.wellFormed_ofNat (n : Nat) : (ofNat n).WellFormed where
  whole c hc := Nat.isDigit_of_mem_toDigits (by decide) (by decide) hc
  fraction c hc := by cases hc
  nonempty := Nat.toDigits_ne_nil
  leading h := by
    rw [show n = 0 from head_toDigits h]
    rfl

namespace Json

/-! ## Texts of numerals -/

/-- Digits, one at least. -/
def IsDigits (cs : List Char) : Prop := cs ≠ [] ∧ ∀ c ∈ cs, c.isDigit

/-- The text of the digits behind the point. -/
def fractionChars (ds : List Char) : List Char := if ds.isEmpty then [] else '.' :: ds

/-- The texts of a power of ten: a mark of either case, the sign of a positive one or none,
    any number of zeros in front. -/
inductive PowerSpelledBy : Option Int → List Char → Prop
  | absent : PowerSpelledBy none []
  | unsigned {mark : Char} {ds : List Char} : mark = 'e' ∨ mark = 'E' → IsDigits ds →
      PowerSpelledBy (some (Nat.ofDigitChars 10 ds 0)) (mark :: ds)
  | positive {mark : Char} {ds : List Char} : mark = 'e' ∨ mark = 'E' → IsDigits ds →
      PowerSpelledBy (some (Nat.ofDigitChars 10 ds 0)) (mark :: '+' :: ds)
  | negative {mark : Char} {ds : List Char} : mark = 'e' ∨ mark = 'E' → IsDigits ds →
      PowerSpelledBy (some (-(Nat.ofDigitChars 10 ds 0 : Nat))) (mark :: '-' :: ds)

end Json

/-- The texts of a numeral. -/
def Numeral.SpelledBy (n : Numeral) (cs : List Char) : Prop :=
  n.WellFormed ∧ ∃ power, Json.PowerSpelledBy n.exponent power ∧
    cs = (if n.negative then ['-'] else []) ++ (n.whole ++ (Json.fractionChars n.fraction ++ power))

namespace Json

/-! ## Parts of a numeral -/

/-- What is left does not go on with a digit. -/
def NoDigitAhead (cs : List Char) : Prop := ∀ c, cs.head? = some c → c.isDigit = false

theorem spanDigits_append {ds cs : List Char} (hd : ∀ c ∈ ds, c.isDigit) (hc : NoDigitAhead cs) :
    spanDigits (ds ++ cs) = (ds, cs) := by
  unfold spanDigits
  rw [List.takeWhile_append_of_pos hd, List.dropWhile_append_of_pos hd]
  cases cs with
  | nil => simp
  | cons c cs => simp [hc c rfl]

theorem of_spanDigits {ds cs rest : List Char} (h : spanDigits cs = (ds, rest)) :
    (∀ c ∈ ds, c.isDigit) ∧ cs = ds ++ rest := by
  cases h
  exact ⟨List.all_eq_true.mp List.all_takeWhile, List.takeWhile_append_dropWhile.symm⟩

theorem readWhole?_append {n : Numeral} (h : n.WellFormed) {cs : List Char} (hc : NoDigitAhead cs) :
    readWhole? (n.whole ++ cs) = some (n.whole, cs) := by
  have hn := h.nonempty
  have hl := h.leading
  unfold readWhole?
  rw [spanDigits_append h.whole hc]
  dsimp only
  split
  · rename_i he
    exact absurd he hn
  · rename_i he
    rw [he] at hl
    exact absurd (hl rfl) (by simp)
  · rfl

theorem of_readWhole? {cs ds rest : List Char} (h : readWhole? cs = some (ds, rest)) :
    IsDigits ds ∧ (ds.head? = some '0' → ds = ['0']) ∧ cs = ds ++ rest := by
  obtain ⟨digits, tail, hspan⟩ : ∃ digits tail, spanDigits cs = (digits, tail) := ⟨_, _, rfl⟩
  obtain ⟨hdigits, hcs⟩ := of_spanDigits hspan
  unfold readWhole? at h
  rw [hspan] at h
  dsimp only at h
  split at h
  · cases h
  · cases h
  · rename_i hne hzero
    cases h
    refine ⟨⟨hne, hdigits⟩, fun hhead => ?_, hcs⟩
    cases ds with
    | nil => cases hhead
    | cons d ds =>
      cases hhead
      cases ds with
      | nil => rfl
      | cons e ds => exact (hzero e ds rfl).elim

/-- A number with a sign or without. -/
def signed (negative : Bool) (n : Nat) : Int := if negative then -n else n

theorem isDigits_iff {cs : List Char} : IsDigits cs ↔ (cs.isEmpty || !cs.all Char.isDigit) = false := by
  simp [IsDigits]

theorem readPower?_eq_some_iff {negative : Bool} {cs : List Char} {e : Int} :
    readPower? negative cs = some e ↔ IsDigits cs ∧ signed negative (Nat.ofDigitChars 10 cs 0) = e := by
  have hread : readPower? negative cs =
      if cs.isEmpty || !cs.all Char.isDigit then none else some (signed negative (Nat.ofDigitChars 10 cs 0)) := rfl
  rw [hread, isDigits_iff]
  cases cs.isEmpty || !cs.all Char.isDigit <;> simp

theorem not_sign_of_isDigits {c : Char} {ds : List Char} (h : IsDigits (c :: ds)) : c ≠ '+' ∧ c ≠ '-' := by
  have hc := h.2 c List.mem_cons_self
  constructor
  · rintro rfl
    cases hc
  · rintro rfl
    cases hc

theorem readExponent?_of_isDigits {c : Char} {ds : List Char} (hmark : c = 'e' ∨ c = 'E') (h : IsDigits ds) :
    readExponent? (c :: ds) = (readPower? false ds).map some := by
  rw [readExponent?, if_pos hmark]
  · rintro ds' rfl
    exact (not_sign_of_isDigits h).1 rfl
  · rintro ds' rfl
    exact (not_sign_of_isDigits h).2 rfl

theorem readExponent?_of_spelledBy {e : Option Int} {cs : List Char} (h : PowerSpelledBy e cs) :
    readExponent? cs = some e := by
  cases h with
  | absent => rfl
  | unsigned hmark hds =>
    rw [readExponent?_of_isDigits hmark hds, readPower?_eq_some_iff.mpr ⟨hds, rfl⟩]
    rfl
  | positive hmark hds | negative hmark hds =>
    rw [readExponent?, if_pos hmark, readPower?_eq_some_iff.mpr ⟨hds, rfl⟩]
    rfl

theorem of_readExponent? {e : Option Int} {cs : List Char} (h : readExponent? cs = some e) : PowerSpelledBy e cs := by
  unfold readExponent? at h
  split at h
  · cases h
    exact .absent
  · split at h
    · rename_i hmark
      split at h
      · obtain ⟨e, hpower, rfl⟩ := Option.map_eq_some_iff.mp h
        obtain ⟨hds, rfl⟩ := readPower?_eq_some_iff.mp hpower
        exact .positive hmark hds
      · obtain ⟨e, hpower, rfl⟩ := Option.map_eq_some_iff.mp h
        obtain ⟨hds, rfl⟩ := readPower?_eq_some_iff.mp hpower
        exact .negative hmark hds
      · obtain ⟨e, hpower, rfl⟩ := Option.map_eq_some_iff.mp h
        obtain ⟨hds, rfl⟩ := readPower?_eq_some_iff.mp hpower
        exact .unsigned hmark hds
    · cases h

/-- A power of ten begins with its mark. -/
theorem PowerSpelledBy.head {e : Option Int} {cs : List Char} (h : PowerSpelledBy e cs) :
    ∀ c, cs.head? = some c → c = 'e' ∨ c = 'E' := by
  intro c hc
  cases h with
  | absent => cases hc
  | unsigned hmark _ | positive hmark _ | negative hmark _ =>
    cases hc
    exact hmark

theorem PowerSpelledBy.noDigitAhead {e : Option Int} {cs : List Char} (h : PowerSpelledBy e cs) :
    NoDigitAhead cs := by
  intro c hc
  rcases h.head c hc with rfl | rfl
  · rfl
  · rfl

theorem readFraction?_append {ds : List Char} (hd : ∀ c ∈ ds, c.isDigit) {e : Option Int} {power : List Char}
    (hp : PowerSpelledBy e power) : readFraction? (fractionChars ds ++ power) = some (ds, power) := by
  cases ds with
  | nil =>
    have hpoint : power.head? ≠ some '.' := fun h => absurd (hp.head '.' h) (by decide)
    show readFraction? power = _
    unfold readFraction?
    split
    · exact absurd rfl hpoint
    · rfl
  | cons d ds =>
    have hpoint : fractionChars (d :: ds) ++ power = '.' :: (d :: ds ++ power) := rfl
    rw [hpoint, readFraction?, spanDigits_append hd hp.noDigitAhead]
    rfl

theorem of_readFraction? {cs ds rest : List Char} (h : readFraction? cs = some (ds, rest)) :
    (∀ c ∈ ds, c.isDigit) ∧ cs = fractionChars ds ++ rest := by
  unfold readFraction? at h
  split at h
  · rename_i cs
    obtain ⟨digits, tail, hspan⟩ : ∃ digits tail, spanDigits cs = (digits, tail) := ⟨_, _, rfl⟩
    obtain ⟨hdigits, hcs⟩ := of_spanDigits hspan
    rw [hspan] at h
    dsimp only at h
    split at h
    · cases h
    · rename_i hne
      cases h
      refine ⟨hdigits, ?_⟩
      rw [fractionChars, if_neg hne, hcs]
      rfl
  · cases h
    exact ⟨by simp, rfl⟩

theorem noDigitAhead_fractionChars (ds : List Char) {e : Option Int} {power : List Char}
    (hp : PowerSpelledBy e power) : NoDigitAhead (fractionChars ds ++ power) := by
  cases ds with
  | nil => exact hp.noDigitAhead
  | cons d ds =>
    intro c hc
    cases hc
    rfl

/-! ## Numerals -/

/-- A well-formed numeral starts, behind its sign, with a digit. -/
theorem exists_cons_whole {n : Numeral} (h : n.WellFormed) : ∃ c cs, n.whole = c :: cs ∧ c.isDigit := by
  cases hw : n.whole with
  | nil => exact absurd hw h.nonempty
  | cons c cs => exact ⟨c, cs, rfl, h.whole c (hw ▸ List.mem_cons_self)⟩

/-- The parts behind the sign, read one after the other. -/
def readParts? (negative : Bool) (cs : List Char) : Option Numeral := do
  let (whole, cs) ← readWhole? cs
  let (fraction, cs) ← readFraction? cs
  let exponent ← readExponent? cs
  return ⟨negative, whole, fraction, exponent⟩

/-- Whether a minus stands ahead, and what is behind it. -/
def signAhead : List Char → Bool × List Char
  | '-' :: r => (true, r)
  | r => (false, r)

theorem sign_append_signAhead (cs : List Char) :
    (if (signAhead cs).1 then ['-'] else []) ++ (signAhead cs).2 = cs := by
  unfold signAhead
  split
  · rfl
  · rfl

theorem signAhead_append (negative : Bool) {c : Char} (h : c ≠ '-') (cs : List Char) :
    signAhead ((if negative then ['-'] else []) ++ c :: cs) = (negative, c :: cs) := by
  cases negative with
  | true => rfl
  | false =>
    show signAhead (c :: cs) = _
    rw [signAhead]
    exact fun r hr => h (List.cons.inj hr).1

theorem numeral?_eq (cs : List Char) : numeral? cs = readParts? (signAhead cs).1 (signAhead cs).2 := rfl

theorem readParts?_eq_some_iff {negative : Bool} {cs : List Char} {n : Numeral} :
    readParts? negative cs = some n ↔ n.negative = negative ∧ n.WellFormed ∧ ∃ power,
      PowerSpelledBy n.exponent power ∧ cs = n.whole ++ (fractionChars n.fraction ++ power) := by
  constructor
  · intro h
    obtain ⟨⟨whole, rest⟩, hwhole, h⟩ := Option.bind_eq_some_iff.mp h
    obtain ⟨⟨fraction, power⟩, hfraction, h⟩ := Option.bind_eq_some_iff.mp h
    obtain ⟨exponent, hexponent, h⟩ := Option.bind_eq_some_iff.mp h
    cases h
    obtain ⟨⟨hne, hdigits⟩, hleading, rfl⟩ := of_readWhole? hwhole
    obtain ⟨hdigits', rfl⟩ := of_readFraction? hfraction
    exact ⟨rfl, ⟨hdigits, hdigits', hne, hleading⟩, power, of_readExponent? hexponent, rfl⟩
  · rintro ⟨rfl, hwf, power, hpower, rfl⟩
    unfold readParts?
    rw [readWhole?_append hwf (noDigitAhead_fractionChars n.fraction hpower)]
    show (readFraction? _ >>= _) = _
    rw [readFraction?_append hwf.fraction hpower]
    show (readExponent? _ >>= _) = _
    rw [readExponent?_of_spelledBy hpower]
    rfl

/-- The texts of a numeral are read as it, and nothing else is. -/
theorem numeral?_eq_some_iff {cs : List Char} {n : Numeral} : numeral? cs = some n ↔ n.SpelledBy cs := by
  rw [numeral?_eq]
  constructor
  · intro h
    obtain ⟨hneg, hwf, power, hpower, hcs⟩ := readParts?_eq_some_iff.mp h
    exact ⟨hwf, power, hpower, by rw [hneg, ← hcs, sign_append_signAhead]⟩
  · rintro ⟨hwf, power, hpower, rfl⟩
    -- the whole part begins with a digit, which is no sign
    obtain ⟨c, cs, hw, hc⟩ := exists_cons_whole hwf
    have hsign : c ≠ '-' := by
      rintro rfl
      cases hc
    have hahead := signAhead_append n.negative hsign (cs ++ (fractionChars n.fraction ++ power))
    rw [← List.cons_append, ← hw] at hahead
    rw [hahead]
    exact readParts?_eq_some_iff.mpr ⟨rfl, hwf, power, hpower, rfl⟩

/-! The text a writer makes is one of them. -/

theorem spelledBy_exponentText (e : Int) : PowerSpelledBy (some e) (Numeral.exponentText e) := by
  have hds : IsDigits (Nat.toDigits 10 e.natAbs) :=
    ⟨Nat.toDigits_ne_nil, fun c hc => Nat.isDigit_of_mem_toDigits (by decide) (by decide) hc⟩
  have hvalue : Nat.ofDigitChars 10 (Nat.toDigits 10 e.natAbs) 0 = e.natAbs :=
    Nat.ofDigitChars_toDigits (by decide) (by decide)
  unfold Numeral.exponentText
  by_cases h : 0 ≤ e
  · have hspelled := PowerSpelledBy.positive (.inl rfl : 'e' = 'e' ∨ 'e' = 'E') hds
    rw [hvalue, Int.natAbs_of_nonneg h] at hspelled
    rw [if_pos h]
    exact hspelled
  · have hspelled := PowerSpelledBy.negative (.inl rfl : 'e' = 'e' ∨ 'e' = 'E') hds
    rw [hvalue, show -(e.natAbs : Int) = e by omega] at hspelled
    rw [if_neg h]
    exact hspelled

theorem spelledBy_text {n : Numeral} (h : n.WellFormed) : n.SpelledBy n.text := by
  unfold Numeral.text
  cases he : n.exponent with
  | none => exact ⟨h, [], he ▸ .absent, by simp [fractionChars]⟩
  | some e => exact ⟨h, _, he ▸ spelledBy_exponentText e, by simp [fractionChars]⟩

/-! ## Words -/

/-- The texts of a word. Only a numeral has several. -/
inductive Word.SpelledBy : Word → List Char → Prop
  | null : SpelledBy .null ['n', 'u', 'l', 'l']
  | true : SpelledBy (.bool true) ['t', 'r', 'u', 'e']
  | false : SpelledBy (.bool false) ['f', 'a', 'l', 's', 'e']
  | number {n : Numeral} {cs : List Char} : n.SpelledBy cs → SpelledBy (.number n) cs

/-- A numeral begins with its sign or a digit. -/
theorem exists_cons_of_spelledBy {n : Numeral} {cs : List Char} (h : n.SpelledBy cs) :
    ∃ c rest, cs = c :: rest ∧ (c = '-' ∨ c.isDigit) := by
  obtain ⟨hwf, power, -, rfl⟩ := h
  obtain ⟨c, cs, hw, hc⟩ := exists_cons_whole hwf
  rw [hw]
  cases n.negative with
  | true => exact ⟨'-', _, rfl, .inl rfl⟩
  | false => exact ⟨c, _, rfl, .inr hc⟩

/-- The texts of a word are read as it, and nothing else is. -/
theorem Word.ofChars?_eq_some_iff {w : Word} {cs : List Char} : ofChars? cs = some w ↔ w.SpelledBy cs := by
  constructor
  · intro h
    unfold ofChars? at h
    split at h
    · rename_i hcs
      cases h
      exact hcs ▸ .null
    · split at h
      · rename_i hcs
        cases h
        exact hcs ▸ .true
      · split at h
        · rename_i hcs
          cases h
          exact hcs ▸ .false
        · obtain ⟨n, hn, rfl⟩ := Option.map_eq_some_iff.mp h
          exact .number (numeral?_eq_some_iff.mp hn)
  · intro h
    cases h with
    | null | true | false => rfl
    | number hn =>
      obtain ⟨c, rest, rfl, hc⟩ := exists_cons_of_spelledBy hn
      have hne (d : Char) (ds : List Char) (hd : d ≠ '-' ∧ d.isDigit = false) : c :: rest ≠ d :: ds := by
        intro heq
        cases heq
        rcases hc with hc | hc
        · exact hd.1 hc
        · rw [hd.2] at hc
          cases hc
      have hnull : c :: rest ≠ Word.null.text := hne 'n' _ (by decide)
      have htrue : c :: rest ≠ (Word.bool true).text := hne 't' _ (by decide)
      have hfalse : c :: rest ≠ (Word.bool false).text := hne 'f' _ (by decide)
      unfold ofChars?
      rw [if_neg hnull, if_neg htrue, if_neg hfalse, numeral?_eq_some_iff.mpr hn]
      rfl

/-! ## What ends a word -/

theorem endsWord_eq_false_of_isDigit {c : Char} (h : c.isDigit) : Scan.endsWord c = false := by
  have hne : ∀ d : Char, d.isDigit = false → (c == d) = false := by
    intro d hd
    rw [beq_eq_false_iff_ne]
    rintro rfl
    rw [h] at hd
    cases hd
  have hmark : Mark.ofChar? c = none := by
    unfold Mark.ofChar?
    split
    any_goals rfl
    all_goals exact absurd h (by decide)
  simp [Scan.endsWord, isBlank, hmark, hne ' ' (by decide), hne '\t' (by decide), hne '\n' (by decide),
    hne '\r' (by decide), hne '"' (by decide)]

theorem PowerSpelledBy.not_endsWord {e : Option Int} {cs : List Char} (h : PowerSpelledBy e cs) :
    ∀ c ∈ cs, Scan.endsWord c = false := by
  have hmark {c : Char} (hc : c = 'e' ∨ c = 'E') : Scan.endsWord c = false := by
    rcases hc with rfl | rfl <;> decide
  have hdigits {ds : List Char} (hds : IsDigits ds) : ∀ c ∈ ds, Scan.endsWord c = false :=
    fun c hc => endsWord_eq_false_of_isDigit (hds.2 c hc)
  cases h with
  | absent => simp
  | unsigned hm hds => exact List.forall_mem_cons.mpr ⟨hmark hm, hdigits hds⟩
  | positive hm hds | negative hm hds =>
    exact List.forall_mem_cons.mpr ⟨hmark hm, List.forall_mem_cons.mpr ⟨by decide, hdigits hds⟩⟩

theorem Word.not_endsWord {w : Word} {cs : List Char} (h : w.SpelledBy cs) : ∀ c ∈ cs, Scan.endsWord c = false := by
  have hall {cs : List Char} (h : cs.all (!Scan.endsWord ·) = true) : ∀ c ∈ cs, Scan.endsWord c = false := by
    simpa using h
  cases h with
  | null | true | false => exact hall (by decide)
  | number hn =>
    obtain ⟨hwf, power, hpower, rfl⟩ := hn
    intro c hc
    simp only [List.mem_append] at hc
    rcases hc with hc | hc | hc | hc
    · split at hc
      · rw [List.mem_singleton.mp hc]
        decide
      · cases hc
    · exact endsWord_eq_false_of_isDigit (hwf.whole c hc)
    · unfold fractionChars at hc
      split at hc
      · cases hc
      · rcases List.mem_cons.mp hc with rfl | hc
        · decide
        · exact endsWord_eq_false_of_isDigit (hwf.fraction c hc)
    · exact hpower.not_endsWord c hc

theorem Word.exists_cons_of_spelledBy {w : Word} {cs : List Char} (h : w.SpelledBy cs) :
    ∃ c rest, cs = c :: rest := by
  cases h with
  | null | true | false => exact ⟨_, _, rfl⟩
  | number hn =>
    obtain ⟨c, rest, hcs, -⟩ := Json.exists_cons_of_spelledBy hn
    exact ⟨c, rest, hcs⟩

end Json

end FeatureVector

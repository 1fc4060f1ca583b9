/-
  FeatureVector.Proofs.Json.Texts — the texts of quoted strings.

  A piece of a string is written as itself, by a short escape or by four hexadecimal digits
  (`Piece.SpelledBy`), and the pieces of a string one behind the other (`Text.SpelledBy`).
  Between quotes each text of a piece is scanned as that piece (`Scan.foldlM_piece`), so a
  string comes out the same however it was written (`Scan.foldlM_text`). The writer makes
  one of the texts (`Text.spelledBy_render`), and a string comes back from its pieces
  (`Text.toString?_ofString`).
-/
import FeatureVector.Json.Lexeme

namespace FeatureVector.Json

/-! ## Texts of strings -/

/-- The number hexadecimal digits of either case write. -/
def hexNumber? (ds : List Char) : Option Nat := ds.foldlM (fun n d => (hexValue? d).map (n * 16 + ·)) 0

/-- The texts of a piece: itself, unless it is a quote, a backslash or a control character, or an
    escape. -/
inductive Piece.SpelledBy : Piece → List Char → Prop
  | plain {c : Char} : c ≠ '"' → c ≠ '\\' → 0x20 ≤ c.toNat → SpelledBy (.char c) [c]
  | short {c : Char} {p : Piece} : ofShortEscape? c = some p → SpelledBy p ['\\', c]
  | unit {ds : List Char} {n : Nat} : ds.length = 4 → hexNumber? ds = some n →
      SpelledBy (ofUnit n) ('\\' :: 'u' :: ds)

/-- The texts of a string, between its quotes. -/
inductive Text.SpelledBy : Text → List Char → Prop
  | nil : SpelledBy [] []
  | cons {p : Piece} {t : Text} {cs cs' : List Char} :
      p.SpelledBy cs → SpelledBy t cs' → SpelledBy (p :: t) (cs ++ cs')

theorem Text.SpelledBy.append {t t' : Text} {cs cs' : List Char} (h : t.SpelledBy cs) (h' : t'.SpelledBy cs') :
    Text.SpelledBy (t ++ t') (cs ++ cs') := by
  induction h with
  | nil => exact h'
  | cons hp _ ih =>
    rw [List.append_assoc]
    exact .cons hp ih

theorem Text.spelledBy_singleton {p : Piece} {cs : List Char} (h : p.SpelledBy cs) : Text.SpelledBy [p] cs := by
  have hone := Text.SpelledBy.cons h .nil
  rwa [List.append_nil] at hone

/-! ## Scanning -/

namespace Scan

/-- A hexadecimal digit, the last one that is missing or not. -/
theorem step?_unit {c : Char} {d : Nat} (h : hexValue? c = some d) (read : List Piece) (missing value : Nat)
    (done : List Lexeme) :
    step? ⟨.unit read missing value, done⟩ c =
      some (if missing ≤ 1 then ⟨.string (Piece.ofUnit (value * 16 + d) :: read), done⟩
        else ⟨.unit read (missing - 1) (value * 16 + d), done⟩) := by
  simp only [step?, h, Option.map_some]

/-- The digits that are missing end the escape. -/
theorem foldlM_unit {ds : List Char} (hne : ds ≠ []) {value n : Nat}
    (h : ds.foldlM (fun n d => (hexValue? d).map (n * 16 + ·)) value = some n) (read : List Piece)
    (done : List Lexeme) :
    ds.foldlM step? ⟨.unit read ds.length value, done⟩ = some ⟨.string (Piece.ofUnit n :: read), done⟩ := by
  induction ds generalizing value with
  | nil => exact absurd rfl hne
  | cons d ds ih =>
    rw [List.foldlM_cons] at h
    obtain ⟨value', hd, h⟩ := Option.bind_eq_some_iff.mp h
    obtain ⟨x, hx, rfl⟩ := Option.map_eq_some_iff.mp hd
    rw [List.foldlM_cons, step?_unit hx, Option.bind_eq_bind, Option.bind_some]
    cases ds with
    | nil =>
      cases h
      rfl
    | cons e ds => exact ih (List.cons_ne_nil e ds) h

/-- A text of a piece is scanned as the piece. -/
theorem foldlM_piece {p : Piece} {cs : List Char} (h : p.SpelledBy cs) (read : List Piece) (done : List Lexeme) :
    cs.foldlM step? ⟨.string read, done⟩ = some ⟨.string (p :: read), done⟩ := by
  cases h with
  | plain hquote hbackslash hcontrol =>
    simp only [List.foldlM_cons, List.foldlM_nil, step?, beq_iff_eq]
    rw [if_neg hquote, if_neg hbackslash, if_neg (Nat.not_lt.mpr hcontrol)]
    rfl
  | @short c p hescape =>
    have hunit : c ≠ 'u' := by
      rintro rfl
      cases hescape
    have hopen : step? ⟨.string read, done⟩ '\\' = some ⟨.escape read, done⟩ := rfl
    rw [List.foldlM_cons, hopen]
    simp only [Option.bind_eq_bind, Option.bind_some, List.foldlM_cons, List.foldlM_nil, step?, beq_iff_eq,
      if_neg hunit, hescape, Option.map_some]
    rfl
  | @unit ds n hlength hn =>
    have hopen : step? ⟨.string read, done⟩ '\\' = some ⟨.escape read, done⟩ := rfl
    have hunit : step? ⟨.escape read, done⟩ 'u' = some ⟨.unit read ds.length 0, done⟩ := by
      rw [hlength]
      rfl
    have hne : ds ≠ [] := by
      rintro rfl
      cases hlength
    rw [List.foldlM_cons, hopen, Option.bind_eq_bind, Option.bind_some, List.foldlM_cons, hunit]
    exact foldlM_unit hne hn read done

/-- A text of a string is scanned as its pieces. -/
theorem foldlM_text {t : Text} {cs : List Char} (h : t.SpelledBy cs) (read : List Piece) (done : List Lexeme) :
    cs.foldlM step? ⟨.string read, done⟩ = some ⟨.string (t.reverse ++ read), done⟩ := by
  induction h generalizing read with
  | nil => rfl
  | cons hp _ ih =>
    rw [List.foldlM_append, foldlM_piece hp, Option.bind_eq_bind, Option.bind_some, ih, List.reverse_cons,
      List.append_assoc]
    rfl

end Scan

/-! ## The text a writer makes -/

/-- Characters only. -/
def Text.IsPlain (t : Text) : Prop := ∃ s, t = Text.ofString s

theorem Text.decode?_map_char (cs : List Char) : decode? (cs.map .char) = some cs := by
  induction cs with
  | nil => rfl
  | cons c cs ih =>
    rw [List.map_cons, decode?, ih]
    rfl

theorem Text.toString?_ofString (s : String) : toString? (ofString s) = some s := by
  rw [toString?, ofString, decode?_map_char, Option.map_some, String.ofList_toList]

theorem hexValue?_digitChar {d : Nat} (h : d < 16) : hexValue? (Nat.digitChar d) = some d := by
  revert d
  decide

theorem hexNumber?_hex4 {n : Nat} (h : n < 65536) : hexNumber? (hex4 n) = some n := by
  have hn : (((0 * 16 + n / 4096 % 16) * 16 + n / 256 % 16) * 16 + n / 16 % 16) * 16 + n % 16 = n := by omega
  have hdigit (m : Nat) : hexValue? (Nat.digitChar (m % 16)) = some (m % 16) :=
    hexValue?_digitChar (Nat.mod_lt m (by decide))
  simp only [hexNumber?, hex4, List.map_cons, List.map_nil, List.foldlM_cons, List.foldlM_nil, hdigit,
    Option.map_some, Option.bind_eq_bind, Option.bind_some]
  exact congrArg some hn

theorem Piece.ofUnit_toNat {c : Char} (h : c.toNat < 0x20) : Piece.ofUnit c.toNat = .char c := by
  unfold Piece.ofUnit
  rw [if_neg (by omega), Char.ofNat_toNat]

/-- A character, escaped or not. -/
theorem Piece.spelledBy_escape (c : Char) : Piece.SpelledBy (.char c) (Text.escape c) := by
  unfold Text.escape
  split
  any_goals exact .short rfl
  rename_i hquote hbackslash _ _ _ _ _
  split
  · rename_i hc
    rw [← Piece.ofUnit_toNat hc]
    exact .unit rfl (hexNumber?_hex4 (by omega))
  · rename_i hc
    exact .plain hquote hbackslash (Nat.not_lt.mp hc)

theorem Text.spelledBy_render {t : Text} (ht : t.IsPlain) : t.SpelledBy (t.flatMap renderPiece) := by
  obtain ⟨s, rfl⟩ := ht
  unfold ofString
  induction s.toList with
  | nil => exact .nil
  | cons c cs ih => exact .cons (Piece.spelledBy_escape c) ih

end FeatureVector.Json

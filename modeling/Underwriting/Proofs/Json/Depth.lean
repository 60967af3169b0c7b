import Underwriting.Proofs.Json.Grammar

/-! # The depth that is counted on a text

Whatever is read from a text is a part of it by the grammar, with its brackets nested as deep
as the reader found them. So the scan over the raw text, which knows nothing of the reader,
counts the nesting of every document that is read.
-/
namespace Underwriting.Json
open Syntax

theorem exists_blanks (t : List Char) : ∃ b, Blanks b ∧ t = b ++ skipBlanks t :=
  ⟨t.takeWhile isBlank, fun _ hc => List.mem_takeWhile_imp hc,
    List.takeWhile_append_dropWhile.symm⟩

theorem exists_blanks_cons {t rest : List Char} {c : Char} (h : skipBlanks t = c :: rest) :
    ∃ b, Blanks b ∧ t = b ++ c :: rest := by
  rw [← h]
  exact exists_blanks t

/-- How a phrase stands at the front of a text: items and members have the bracket that
closes them behind them. -/
def Phrase.StandsIn (depth : Nat) (t rest : List Char) : Phrase → Prop
  | .value _ => ∃ u, Derives .value depth u ∧ t = u ++ rest
  | .items _ => ∃ u b, Derives .items depth u ∧ Blanks b ∧ t = u ++ (b ++ ']' :: rest)
  | .members _ => ∃ u b, Derives .members depth u ∧ Blanks b ∧ t = u ++ (b ++ '\x7d' :: rest)

theorem exists_member {t t' t'' rest : List Char} {key : String} {v : Value} {depth : Nat}
    (hkey : readString t = some (key, t')) (hcolon : skipBlanks t' = ':' :: t'')
    (hvalue : (Phrase.value v).StandsIn depth (skipBlanks t'') rest) :
    ∃ m, Derives .members depth m ∧ '"' :: t = m ++ rest := by
  obtain ⟨u, hu, hvalue⟩ := hvalue
  obtain ⟨chars, hchars, rfl⟩ := exists_chars_of_readString hkey
  obtain ⟨a, ha, rfl⟩ := exists_blanks_cons hcolon
  obtain ⟨b, hb, ht⟩ := exists_blanks t''
  refine ⟨_, .member hchars ha hb hu, ?_⟩
  rw [ht, hvalue]
  simp

/-- Parts on both sides of a comma, with what is left of the text behind them. -/
theorem exists_sequence {p : Part} {n m : Nat} {u t t' others rest : List Char} (hp : p ≠ .value)
    (hu : Derives p n u) (hcomma : skipBlanks t = ',' :: t') (hothers : Derives p m others)
    (hrest : skipBlanks t' = others ++ rest) :
    ∃ w, Derives p (max n m) w ∧ u ++ t = w ++ rest := by
  obtain ⟨a, ha, rfl⟩ := exists_blanks_cons hcomma
  obtain ⟨b, hb, ht⟩ := exists_blanks t'
  refine ⟨_, .sequence hp hu ha hb hothers, ?_⟩
  rw [ht, hrest]
  simp

theorem Begins.standsIn {t rest : List Char} {p : Phrase} {depth : Nat}
    (h : Begins t p depth rest) : p.StandsIn depth t rest := by
  induction h with
  | null => exact ⟨_, .word (t := "null".toList) (by decide), rfl⟩
  | trueWord => exact ⟨_, .word (t := "true".toList) (by decide), rfl⟩
  | falseWord => exact ⟨_, .word (t := "false".toList) (by decide), rfl⟩
  | number hnumber _ => exact ⟨_, .number hnumber.written, rfl⟩
  | string hstring =>
    obtain ⟨chars, hchars, rfl⟩ := exists_chars_of_readString hstring
    exact ⟨_, .string hchars, by simp⟩
  | emptyList hempty =>
    obtain ⟨b, hb, rfl⟩ := exists_blanks_cons hempty
    exact ⟨_, .empty .array hb, by simp⟩
  | @list t _ _ _ _ ih =>
    obtain ⟨u, b, hu, hb, hitems⟩ := ih
    obtain ⟨a, ha, ht⟩ := exists_blanks t
    exact ⟨_, .enclosed .array ha hu hb, by rw [ht, hitems]; simp⟩
  | emptyObject hempty =>
    obtain ⟨b, hb, rfl⟩ := exists_blanks_cons hempty
    exact ⟨_, .empty .object hb, by simp⟩
  | @object t _ _ _ _ ih =>
    obtain ⟨u, b, hu, hb, hmembers⟩ := ih
    obtain ⟨a, ha, ht⟩ := exists_blanks t
    exact ⟨_, .enclosed .object ha hu hb, by rw [ht, hmembers]; simp⟩
  | lastItem _ hclose ih =>
    obtain ⟨u, hu, rfl⟩ := ih
    obtain ⟨b, hb, rfl⟩ := exists_blanks_cons hclose
    exact ⟨u, b, .item hu, hb, rfl⟩
  | item _ hcomma _ ih ihothers =>
    obtain ⟨u, hu, rfl⟩ := ih
    obtain ⟨others, b, hothers, hb, hrest⟩ := ihothers
    obtain ⟨w, hw, ht⟩ := exists_sequence (by simp) (.item hu) hcomma hothers hrest
    exact ⟨w, b, hw, hb, ht⟩
  | lastMember hkey hcolon _ hclose ih =>
    obtain ⟨m, hm, ht⟩ := exists_member hkey hcolon ih
    obtain ⟨b, hb, rfl⟩ := exists_blanks_cons hclose
    exact ⟨m, b, hm, hb, ht⟩
  | member hkey hcolon _ hcomma _ ih ihothers =>
    obtain ⟨m, hm, ht⟩ := exists_member hkey hcolon ih
    obtain ⟨others, b, hothers, hb, hrest⟩ := ihothers
    obtain ⟨w, hw, hjoined⟩ := exists_sequence (by simp) hm hcomma hothers hrest
    exact ⟨w, b, hw, hb, ht.trans hjoined⟩

theorem IsDocument.isText {t : List Char} {v : Value} {depth : Nat}
    (h : IsDocument t v depth) : IsText t depth := by
  obtain ⟨rest, hbegins, hblank⟩ := h
  obtain ⟨u, hu, hvalue⟩ := hbegins.standsIn
  obtain ⟨a, ha, ht⟩ := exists_blanks t
  obtain ⟨b, hb, hrest⟩ := exists_blanks rest
  rw [hblank, List.append_nil] at hrest
  exact ⟨a, u, b, ha, hu, hb, by rw [ht, hvalue, hrest]⟩

theorem IsDocument.nestingDepth_eq {t : List Char} {v : Value} {depth : Nat}
    (h : IsDocument t v depth) : nestingDepth t = depth :=
  h.isText.nestingDepth_eq

end Underwriting.Json

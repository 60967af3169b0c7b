import Underwriting.Json.Printer
import Underwriting.Proofs.Json.Syntax

/-! # Strings in JSON text

What stands between two quotes is a run of pieces, each of which the grammar allows there. The
pieces that are written for a text are read as that text.
-/
namespace Underwriting.Json

/-- A text that begins with these pieces and a closing quote, and what is left of it. -/
inductive Pieces : List Char → List Piece → List Char → Prop where
  | closed {rest : List Char} : Pieces ('"' :: rest) [] rest
  | char {c : Char} {t rest : List Char} {ps : List Piece} :
    c ≠ '"' → c ≠ '\\' → ¬ c < ' ' → Pieces t ps rest → Pieces (c :: t) (.char c :: ps) rest
  | escape {c e : Char} {t rest : List Char} {ps : List Piece} :
    escape? c = some e → Pieces t ps rest → Pieces ('\\' :: c :: t) (.char e :: ps) rest
  | unit {a b c d : Char} {n : Nat} {t rest : List Char} {ps : List Piece} :
    unit? a b c d = some n → Pieces t ps rest →
      Pieces ('\\' :: 'u' :: a :: b :: c :: d :: t) (.unit n :: ps) rest

theorem ne_u_of_escape? {c e : Char} (h : escape? c = some e) : c ≠ 'u' := by
  rintro rfl
  cases h

theorem readPieces_eq_some_iff {t : List Char} {ps : List Piece} {rest : List Char} :
    readPieces t = some (ps, rest) ↔ Pieces t ps rest := by
  constructor
  · intro h
    fun_induction readPieces t generalizing ps rest with
    | case1 => cases h
    | case2 rest =>
      obtain ⟨rfl, rfl⟩ := Prod.mk.inj (Option.some.inj h)
      exact .closed
    | case3 a b c d t n ps left hread hunit ih =>
      obtain ⟨rfl, rfl⟩ := Prod.mk.inj (Option.some.inj h)
      exact .unit hunit (ih hread)
    | case4 => cases h
    | case5 c t hne e ps left hread hescape ih =>
      obtain ⟨rfl, rfl⟩ := Prod.mk.inj (Option.some.inj h)
      exact .escape hescape (ih hread)
    | case6 => cases h
    | case7 => cases h
    | case8 c t hquote _ _ hplain ps left hread ih =>
      obtain ⟨rfl, rfl⟩ := Prod.mk.inj (Option.some.inj h)
      obtain ⟨hslash, hcontrol⟩ := not_or.mp hplain
      exact .char hquote hslash hcontrol (ih hread)
    | case9 => cases h
  · intro h
    induction h with
    | closed => rfl
    | @char c t rest ps hquote hslash hcontrol _ ih =>
      rw [readPieces.eq_5 c t hquote (fun _ _ _ _ _ hc _ => hslash hc)
        (fun _ _ hc _ => hslash hc), if_neg (not_or.mpr ⟨hslash, hcontrol⟩), ih]
    | @escape c e t rest ps hescape _ ih =>
      rw [readPieces.eq_4 c t (fun _ _ _ _ _ hc _ => ne_u_of_escape? hescape hc), hescape, ih]
    | unit hunit _ ih => rw [readPieces, hunit, ih]

theorem readString_eq_some_iff {t : List Char} {s : String} {rest : List Char} :
    readString t = some (s, rest) ↔
      ∃ ps chars, Pieces t ps rest ∧ joinPieces ps = some chars ∧ String.ofList chars = s := by
  rw [readString]
  constructor
  · intro h
    split at h
    · cases h
    · rename_i ps left hread
      split at h
      · cases h
      · rename_i chars hjoin
        obtain ⟨rfl, rfl⟩ := Prod.mk.inj (Option.some.inj h)
        exact ⟨ps, chars, readPieces_eq_some_iff.mp hread, hjoin, rfl⟩
  · rintro ⟨ps, chars, hread, hjoin, rfl⟩
    rw [readPieces_eq_some_iff.mpr hread]
    simp only [hjoin]

theorem Pieces.length_lt {t : List Char} {ps : List Piece} {rest : List Char}
    (h : Pieces t ps rest) : rest.length < t.length := by
  induction h with
  | closed => exact Nat.lt_succ_self _
  | char _ _ _ _ ih =>
    rw [List.length_cons]
    omega
  | escape _ _ ih =>
    simp only [List.length_cons]
    omega
  | unit _ _ ih =>
    simp only [List.length_cons]
    omega

theorem length_lt_of_readString {t : List Char} {s : String} {rest : List Char}
    (h : readString t = some (s, rest)) : rest.length < t.length := by
  obtain ⟨ps, chars, hpieces, -, -⟩ := readString_eq_some_iff.mp h
  exact hpieces.length_lt

/-! ## What strings are made of -/

theorem mem_of_escape? {c e : Char} (h : escape? c = some e) :
    c ∈ ['"', '\\', '/', 'b', 'f', 'n', 'r', 't'] := by
  unfold escape? at h
  split at h
  all_goals first
    | decide
    | cases h

theorem hexDigits_of_unit? {a b c d : Char} {n : Nat} (h : unit? a b c d = some n) :
    ∀ x ∈ [a, b, c, d], (Text.hexDigit? x).isSome = true := by
  rw [unit?] at h
  split at h
  · rename_i ha hb hc hd
    simp [ha, hb, hc, hd]
  · cases h

theorem Pieces.exists_chars {t : List Char} {ps : List Piece} {rest : List Char}
    (h : Pieces t ps rest) : ∃ chars, Syntax.Chars chars ∧ t = chars ++ '"' :: rest := by
  induction h with
  | closed => exact ⟨[], .nil, rfl⟩
  | char hquote hslash hcontrol _ ih =>
    obtain ⟨chars, hchars, rfl⟩ := ih
    exact ⟨_, .plain hcontrol hquote hslash hchars, rfl⟩
  | escape hescape _ ih =>
    obtain ⟨chars, hchars, rfl⟩ := ih
    exact ⟨_, .escape (mem_of_escape? hescape) hchars, rfl⟩
  | unit hunit _ ih =>
    obtain ⟨chars, hchars, rfl⟩ := ih
    exact ⟨_, .unit rfl (hexDigits_of_unit? hunit) hchars, rfl⟩

theorem exists_chars_of_readString {t : List Char} {s : String} {rest : List Char}
    (h : readString t = some (s, rest)) :
    ∃ chars, Syntax.Chars chars ∧ t = chars ++ '"' :: rest := by
  obtain ⟨ps, chars, hpieces, -, -⟩ := readString_eq_some_iff.mp h
  exact hpieces.exists_chars

/-! ## Writing -/

def pieceOf (c : Char) : Piece := if c < ' ' then .unit c.toNat else .char c

theorem hexDigit?_hexDigit : ∀ n < 16, Text.hexDigit? (hexDigit n) = some n := by decide

theorem unit?_control {c : Char} (h : c < ' ') :
    unit? '0' '0' (hexDigit (c.toNat / 16)) (hexDigit (c.toNat % 16)) = some c.toNat := by
  have hlt : c.toNat < 32 := h
  have hzero : Text.hexDigit? '0' = some 0 := by decide
  rw [unit?, hzero, hexDigit?_hexDigit _ (by omega), hexDigit?_hexDigit _ (by omega)]
  exact congrArg some (by omega)

theorem Pieces.escaped {t rest : List Char} {ps : List Piece} (h : Pieces t ps rest) (c : Char) :
    Pieces (Json.escaped c ++ t) (pieceOf c :: ps) rest := by
  by_cases hquote : c = '"'
  · subst hquote
    exact .escape (by decide) h
  by_cases hslash : c = '\\'
  · subst hslash
    exact .escape (by decide) h
  rw [Json.escaped, if_neg hquote, if_neg hslash, pieceOf]
  split
  · rename_i hcontrol
    exact .unit (unit?_control hcontrol) h
  · rename_i hplain
    exact .char hquote hslash hplain h

theorem pieces_escaped (chars rest : List Char) :
    Pieces (chars.flatMap escaped ++ '"' :: rest) (chars.map pieceOf) rest := by
  induction chars with
  | nil => exact .closed
  | cons c chars ih =>
    rw [List.flatMap_cons, List.append_assoc, List.map_cons]
    exact ih.escaped c

/-- A unit that is no half of a pair stands for its own character. -/
theorem joinPieces_unit {n : Nat} {ps : List Piece} (hhigh : isHighSurrogate n = false)
    (hlow : isLowSurrogate n = false) :
    joinPieces (.unit n :: ps) = (joinPieces ps).map (Char.ofNat n :: ·) := by
  rcases ps with _ | ⟨p, rest⟩
  · simp [joinPieces, hhigh, hlow]
  · cases p with
    | char c => simp [joinPieces, hhigh, hlow]
    | unit low => simp [joinPieces, hhigh, hlow]

theorem isLowSurrogate_of_control {c : Char} (h : c < ' ') : isLowSurrogate c.toNat = false := by
  have hlt : c.toNat < 32 := h
  refine Bool.and_eq_false_imp.mpr fun hle => ?_
  have hge : 0xdc00 ≤ c.toNat := of_decide_eq_true hle
  omega

theorem isHighSurrogate_of_control {c : Char} (h : c < ' ') :
    isHighSurrogate c.toNat = false := by
  have hlt : c.toNat < 32 := h
  refine Bool.and_eq_false_imp.mpr fun hle => ?_
  have hge : 0xd800 ≤ c.toNat := of_decide_eq_true hle
  omega

/-- Only control characters are written as units, and they are no halves of pairs. -/
theorem joinPieces_pieceOf (chars : List Char) : joinPieces (chars.map pieceOf) = some chars := by
  induction chars with
  | nil => rfl
  | cons c chars ih =>
    rw [List.map_cons, pieceOf]
    split
    · rename_i hcontrol
      rw [joinPieces_unit (isHighSurrogate_of_control hcontrol)
        (isLowSurrogate_of_control hcontrol), ih, Option.map_some, Char.ofNat_toNat]
    · rw [joinPieces, ih, Option.map_some]

theorem quoted_append (s : String) (rest : List Char) :
    quoted s ++ rest = '"' :: (s.toList.flatMap escaped ++ '"' :: rest) := by
  rw [quoted, List.cons_append, List.append_assoc, List.singleton_append]

theorem readString_quoted (s : String) (rest : List Char) :
    readString (s.toList.flatMap escaped ++ '"' :: rest) = some (s, rest) :=
  readString_eq_some_iff.mpr ⟨_, _, pieces_escaped s.toList rest, joinPieces_pieceOf s.toList,
    String.ofList_toList⟩

end Underwriting.Json

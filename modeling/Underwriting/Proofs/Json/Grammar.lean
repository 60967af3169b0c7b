import Underwriting.Proofs.Json.Numbers
import Underwriting.Proofs.Json.Strings

/-! # The grammar that JSON texts are read by

What a text begins with, apart from how many steps it takes to read it: a value, the items
of a list up to its closing bracket, or the members of an object up to its closing brace,
and how deep its brackets nest. The reader finds what a text begins with, and only that.
-/
namespace Underwriting.Json

/-- What a text may begin with. -/
inductive Phrase where
  | value (v : Value)
  | items (vs : List Value)
  | members (ms : List (String × Value))

/-- A text that begins with a phrase in which brackets nest so deep, and what is left. The
brackets around items and members are not counted. -/
inductive Begins : List Char → Phrase → Nat → List Char → Prop where
  | null {rest : List Char} : Begins ('n' :: 'u' :: 'l' :: 'l' :: rest) (.value .null) 0 rest
  | trueWord {rest : List Char} :
    Begins ('t' :: 'r' :: 'u' :: 'e' :: rest) (.value (.bool true)) 0 rest
  | falseWord {rest : List Char} :
    Begins ('f' :: 'a' :: 'l' :: 's' :: 'e' :: rest) (.value (.bool false)) 0 rest
  | number {digits rest : List Char} {x : Float} :
    IsNumber digits x → EndsNumber rest → Begins (digits ++ rest) (.value (.number x)) 0 rest
  | string {t rest : List Char} {s : String} :
    readString t = some (s, rest) → Begins ('"' :: t) (.value (.string s)) 0 rest
  | emptyList {t rest : List Char} :
    skipBlanks t = ']' :: rest → Begins ('[' :: t) (.value (.list [])) 1 rest
  | list {t rest : List Char} {vs : List Value} {depth : Nat} :
    Begins (skipBlanks t) (.items vs) depth rest →
      Begins ('[' :: t) (.value (.list vs)) (depth + 1) rest
  | emptyObject {t rest : List Char} :
    skipBlanks t = '\x7d' :: rest → Begins ('\x7b' :: t) (.value (.object [])) 1 rest
  | object {t rest : List Char} {ms : List (String × Value)} {depth : Nat} :
    Begins (skipBlanks t) (.members ms) depth rest →
      Begins ('\x7b' :: t) (.value (.object (Members.ofList ms))) (depth + 1) rest
  | lastItem {t t' rest : List Char} {v : Value} {depth : Nat} :
    Begins t (.value v) depth t' → skipBlanks t' = ']' :: rest →
      Begins t (.items [v]) depth rest
  | item {t t' t'' rest : List Char} {v : Value} {vs : List Value} {depth others : Nat} :
    Begins t (.value v) depth t' → skipBlanks t' = ',' :: t'' →
      Begins (skipBlanks t'') (.items vs) others rest →
      Begins t (.items (v :: vs)) (max depth others) rest
  | lastMember {t t' t'' u rest : List Char} {key : String} {v : Value} {depth : Nat} :
    readString t = some (key, t') → skipBlanks t' = ':' :: t'' →
      Begins (skipBlanks t'') (.value v) depth u → skipBlanks u = '\x7d' :: rest →
      Begins ('"' :: t) (.members [(key, v)]) depth rest
  | member {t t' t'' u u' rest : List Char} {key : String} {v : Value}
    {ms : List (String × Value)} {depth others : Nat} :
    readString t = some (key, t') → skipBlanks t' = ':' :: t'' →
      Begins (skipBlanks t'') (.value v) depth u → skipBlanks u = ',' :: u' →
      Begins (skipBlanks u') (.members ms) others rest →
      Begins ('"' :: t) (.members ((key, v) :: ms)) (max depth others) rest

/-! ## Whatever is read stands there -/

/-- What the readers give with this bound on nested readings stands in the text. -/
structure SoundUpTo (fuel : Nat) : Prop where
  value : ∀ {t v rest}, readValue fuel t = some (v, rest) →
    ∃ depth, Begins t (.value v) depth rest
  items : ∀ {t vs rest}, readItems fuel t = some (vs, rest) →
    ∃ depth, Begins t (.items vs) depth rest
  members : ∀ {t ms rest}, readMembers fuel t = some (ms, rest) →
    ∃ depth, Begins t (.members ms) depth rest

namespace SoundUpTo
variable {fuel : Nat} {t rest : List Char}

theorem readValue_succ (h : SoundUpTo fuel) {v : Value}
    (hread : readValue (fuel + 1) t = some (v, rest)) :
    ∃ depth, Begins t (.value v) depth rest := by
  unfold readValue at hread
  split at hread
  · split at hread
    · rename_i hempty
      obtain ⟨rfl, rfl⟩ := Prod.mk.inj (Option.some.inj hread)
      exact ⟨1, .emptyObject hempty⟩
    · split at hread
      · rename_i hmembers
        obtain ⟨rfl, rfl⟩ := Prod.mk.inj (Option.some.inj hread)
        obtain ⟨depth, hbegins⟩ := h.members hmembers
        exact ⟨depth + 1, .object hbegins⟩
      · cases hread
  · split at hread
    · rename_i hempty
      obtain ⟨rfl, rfl⟩ := Prod.mk.inj (Option.some.inj hread)
      exact ⟨1, .emptyList hempty⟩
    · split at hread
      · rename_i hitems
        obtain ⟨rfl, rfl⟩ := Prod.mk.inj (Option.some.inj hread)
        obtain ⟨depth, hbegins⟩ := h.items hitems
        exact ⟨depth + 1, .list hbegins⟩
      · cases hread
  · split at hread
    · rename_i hstring
      obtain ⟨rfl, rfl⟩ := Prod.mk.inj (Option.some.inj hread)
      exact ⟨0, .string hstring⟩
    · cases hread
  · obtain ⟨rfl, rfl⟩ := Prod.mk.inj (Option.some.inj hread)
    exact ⟨0, .trueWord⟩
  · obtain ⟨rfl, rfl⟩ := Prod.mk.inj (Option.some.inj hread)
    exact ⟨0, .falseWord⟩
  · obtain ⟨rfl, rfl⟩ := Prod.mk.inj (Option.some.inj hread)
    exact ⟨0, .null⟩
  · obtain ⟨digits, x, rfl, hnumber, hends, rfl⟩ := readNumber_eq_some_iff.mp hread
    exact ⟨0, .number hnumber hends⟩

theorem readItems_succ (h : SoundUpTo fuel) {vs : List Value}
    (hread : readItems (fuel + 1) t = some (vs, rest)) :
    ∃ depth, Begins t (.items vs) depth rest := by
  rw [readItems] at hread
  split at hread
  · cases hread
  · rename_i v t' hvalue
    obtain ⟨depth, hbegins⟩ := h.value hvalue
    split at hread
    · rename_i hclose
      obtain ⟨rfl, rfl⟩ := Prod.mk.inj (Option.some.inj hread)
      exact ⟨depth, .lastItem hbegins hclose⟩
    · rename_i t'' hcomma
      split at hread
      · rename_i hitems
        obtain ⟨rfl, rfl⟩ := Prod.mk.inj (Option.some.inj hread)
        obtain ⟨others, hothers⟩ := h.items hitems
        exact ⟨_, .item hbegins hcomma hothers⟩
      · cases hread
    · cases hread

theorem readMembers_succ (h : SoundUpTo fuel) {ms : List (String × Value)}
    (hread : readMembers (fuel + 1) t = some (ms, rest)) :
    ∃ depth, Begins t (.members ms) depth rest := by
  unfold readMembers at hread
  split at hread
  · split at hread
    · cases hread
    · rename_i key t' hkey
      split at hread
      · rename_i t'' hcolon
        split at hread
        · cases hread
        · rename_i v u hvalue
          obtain ⟨depth, hbegins⟩ := h.value hvalue
          split at hread
          · rename_i hclose
            obtain ⟨rfl, rfl⟩ := Prod.mk.inj (Option.some.inj hread)
            exact ⟨depth, .lastMember hkey hcolon hbegins hclose⟩
          · rename_i u' hcomma
            split at hread
            · rename_i hmembers
              obtain ⟨rfl, rfl⟩ := Prod.mk.inj (Option.some.inj hread)
              obtain ⟨others, hothers⟩ := h.members hmembers
              exact ⟨_, .member hkey hcolon hbegins hcomma hothers⟩
            · cases hread
          · cases hread
      · cases hread
  · cases hread

end SoundUpTo

theorem soundUpTo (fuel : Nat) : SoundUpTo fuel := by
  induction fuel with
  | zero =>
    constructor
    all_goals
      intro _ _ _ h
      cases h
  | succ fuel ih => exact ⟨ih.readValue_succ, ih.readItems_succ, ih.readMembers_succ⟩

/-! ## Whatever stands there is read -/

theorem skipBlanks_length_le (t : List Char) : (skipBlanks t).length ≤ t.length :=
  (List.dropWhile_sublist isBlank).length_le

theorem length_lt_of_skipBlanks {t rest : List Char} {c : Char} (h : skipBlanks t = c :: rest) :
    rest.length < t.length := by
  have hle := skipBlanks_length_le t
  rw [h, List.length_cons] at hle
  exact hle

theorem Begins.length_lt {t rest : List Char} {p : Phrase} {depth : Nat}
    (h : Begins t p depth rest) : rest.length < t.length := by
  induction h with
  | null | trueWord | falseWord =>
    simp only [List.length_cons]
    omega
  | number hnumber _ =>
    rw [List.length_append]
    have hpos := List.length_pos_iff.mpr hnumber.ne_nil
    omega
  | string hstring => exact (length_lt_of_readString hstring).trans (Nat.lt_succ_self _)
  | emptyList hempty | emptyObject hempty =>
    exact (length_lt_of_skipBlanks hempty).trans (Nat.lt_succ_self _)
  | @list t _ _ _ _ ih | @object t _ _ _ _ ih =>
    have hle := skipBlanks_length_le t
    rw [List.length_cons]
    omega
  | lastItem _ hclose ih => exact (length_lt_of_skipBlanks hclose).trans ih
  | @item _ _ t'' _ _ _ _ _ _ hcomma _ ih ihothers =>
    have hle := skipBlanks_length_le t''
    have hlt := length_lt_of_skipBlanks hcomma
    omega
  | @lastMember _ _ t'' _ _ _ _ _ hkey hcolon _ hclose ih =>
    have hle := skipBlanks_length_le t''
    have hlt := length_lt_of_skipBlanks hcolon
    have hkeyLt := length_lt_of_readString hkey
    have hcloseLt := length_lt_of_skipBlanks hclose
    rw [List.length_cons]
    omega
  | @member _ _ t'' _ u' _ _ _ _ _ _ hkey hcolon _ hcomma _ ih ihothers =>
    have hle := skipBlanks_length_le t''
    have hle' := skipBlanks_length_le u'
    have hlt := length_lt_of_skipBlanks hcolon
    have hkeyLt := length_lt_of_readString hkey
    have hcommaLt := length_lt_of_skipBlanks hcomma
    rw [List.length_cons]
    omega

/-- No phrase begins with a blank or with a closing bracket. -/
theorem Begins.head_ne {t rest : List Char} {p : Phrase} {depth : Nat}
    (h : Begins t p depth rest) : ∃ c tail, t = c :: tail ∧ isBlank c = false ∧ c ≠ ']' ∧
      c ≠ '\x7d' := by
  induction h with
  | number hnumber _ =>
    obtain ⟨c, tail, rfl⟩ := List.exists_cons_of_ne_nil hnumber.ne_nil
    have hne (mark : Char) (hmark : isNumberChar mark = false) : c ≠ mark :=
      ne_of_isNumberChar (hnumber.chars c List.mem_cons_self) hmark
    refine ⟨c, _, rfl, ?_, hne ']' (by decide), hne '\x7d' (by decide)⟩
    simp [isBlank, hne ' ' (by decide), hne '\t' (by decide), hne '\n' (by decide),
      hne '\r' (by decide)]
  | lastItem _ _ ih => exact ih
  | item _ _ _ ih _ => exact ih
  | _ => exact ⟨_, _, rfl, by decide, by decide, by decide⟩

theorem Begins.not_close {t rest tail : List Char} {p : Phrase} {depth : Nat}
    (h : Begins t p depth rest) : t ≠ ']' :: tail ∧ t ≠ '\x7d' :: tail := by
  obtain ⟨c, tail', rfl, -, hbracket, hbrace⟩ := h.head_ne
  exact ⟨fun heq => hbracket (List.cons.inj heq).1, fun heq => hbrace (List.cons.inj heq).1⟩

/-- A phrase is read, if the bound on nested readings is twice the length of the text. -/
def Phrase.ReadFrom (t rest : List Char) : Phrase → Prop
  | .value v => ∀ fuel, 2 * t.length ≤ fuel → readValue fuel t = some (v, rest)
  | .items vs => ∀ fuel, 2 * t.length + 1 ≤ fuel → readItems fuel t = some (vs, rest)
  | .members ms => ∀ fuel, 2 * t.length + 1 ≤ fuel → readMembers fuel t = some (ms, rest)

theorem readValue_number {digits rest : List Char} {x : Float} (hnumber : IsNumber digits x)
    (hends : EndsNumber rest) (fuel : Nat) :
    readValue (fuel + 1) (digits ++ rest) = some (.number x, rest) := by
  have hread : readNumber (digits ++ rest) = some (.number x, rest) :=
    readNumber_eq_some_iff.mpr ⟨digits, x, rfl, hnumber, hends, rfl⟩
  obtain ⟨c, tail, rfl⟩ := List.exists_cons_of_ne_nil hnumber.ne_nil
  have hne (mark : Char) (hmark : isNumberChar mark = false) : c ≠ mark :=
    ne_of_isNumberChar (hnumber.chars c List.mem_cons_self) hmark
  rw [List.cons_append] at hread ⊢
  unfold readValue
  split
  all_goals first
    | exact hread
    | rename_i heq
      exact absurd (List.cons.inj heq).1 (hne _ (by decide))

theorem readValue_list {t rest : List Char} {vs : List Value} {fuel : Nat}
    (hclose : ∀ tail, skipBlanks t ≠ ']' :: tail)
    (hitems : readItems fuel (skipBlanks t) = some (vs, rest)) :
    readValue (fuel + 1) ('[' :: t) = some (.list vs, rest) := by
  rw [readValue]
  split
  · rename_i tail heq
    exact absurd heq (hclose tail)
  · simp only [hitems]

theorem readValue_object {t rest : List Char} {ms : List (String × Value)} {fuel : Nat}
    (hclose : ∀ tail, skipBlanks t ≠ '\x7d' :: tail)
    (hmembers : readMembers fuel (skipBlanks t) = some (ms, rest)) :
    readValue (fuel + 1) ('\x7b' :: t) = some (.object (Members.ofList ms), rest) := by
  rw [readValue]
  split
  · rename_i tail heq
    exact absurd heq (hclose tail)
  · simp only [hmembers]

theorem Begins.readFrom {t rest : List Char} {p : Phrase} {depth : Nat}
    (h : Begins t p depth rest) : p.ReadFrom t rest := by
  -- each nested reading costs one step; two of them stand at the same character only where
  -- the first item of a list is read, so twice the length is enough
  induction h with
  | null | trueWord | falseWord =>
    rintro (_ | fuel) hfuel
    · cases hfuel
    · rfl
  | number hnumber hends =>
    rintro (_ | fuel) hfuel
    · have hpos := List.length_pos_iff.mpr hnumber.ne_nil
      rw [List.length_append] at hfuel
      omega
    · exact readValue_number hnumber hends fuel
  | string hstring =>
    rintro (_ | fuel) hfuel
    · cases hfuel
    · simp only [readValue, hstring]
  | emptyList hempty | emptyObject hempty =>
    rintro (_ | fuel) hfuel
    · cases hfuel
    · simp only [readValue, hempty]
  | @list t rest vs depth hitems ih =>
    rintro (_ | fuel) hfuel
    · cases hfuel
    · have hle := skipBlanks_length_le t
      rw [List.length_cons] at hfuel
      exact readValue_list (fun tail => hitems.not_close.1) (ih fuel (by omega))
  | @object t rest ms depth hmembers ih =>
    rintro (_ | fuel) hfuel
    · cases hfuel
    · have hle := skipBlanks_length_le t
      rw [List.length_cons] at hfuel
      exact readValue_object (fun tail => hmembers.not_close.2) (ih fuel (by omega))
  | lastItem hvalue hclose ih =>
    rintro (_ | fuel) hfuel
    · cases hfuel
    · simp only [readItems, ih fuel (by omega), hclose]
  | @item t t' t'' rest v vs depth others hvalue hcomma hothers ih ihothers =>
    rintro (_ | fuel) hfuel
    · cases hfuel
    · have hlt := hvalue.length_lt
      have hcommaLt := length_lt_of_skipBlanks hcomma
      have hle := skipBlanks_length_le t''
      simp only [readItems, ih fuel (by omega), hcomma, ihothers fuel (by omega)]
  | @lastMember t t' t'' u rest key v depth hkey hcolon hvalue hclose ih =>
    rintro (_ | fuel) hfuel
    · cases hfuel
    · have hkeyLt := length_lt_of_readString hkey
      have hcolonLt := length_lt_of_skipBlanks hcolon
      have hle := skipBlanks_length_le t''
      rw [List.length_cons] at hfuel
      simp only [readMembers, hkey, hcolon, ih fuel (by omega), hclose]
  | @member t t' t'' u u' rest key v ms depth others hkey hcolon hvalue hcomma hothers ih
      ihothers =>
    rintro (_ | fuel) hfuel
    · cases hfuel
    · have hkeyLt := length_lt_of_readString hkey
      have hcolonLt := length_lt_of_skipBlanks hcolon
      have hle := skipBlanks_length_le t''
      have hvalueLt := hvalue.length_lt
      have hcommaLt := length_lt_of_skipBlanks hcomma
      have hle' := skipBlanks_length_le u'
      rw [List.length_cons] at hfuel
      simp only [readMembers, hkey, hcolon, ih fuel (by omega), hcomma, ihothers fuel (by omega)]

/-! ## Documents -/

/-- A text that holds one value with blanks around it, its brackets nested so deep. -/
def IsDocument (t : List Char) (v : Value) (depth : Nat) : Prop :=
  ∃ rest, Begins (skipBlanks t) (.value v) depth rest ∧ skipBlanks rest = []

theorem readDocument_eq_some_iff {t : List Char} {v : Value} :
    readDocument t = some v ↔ ∃ depth, IsDocument t v depth := by
  rw [readDocument]
  constructor
  · intro h
    split at h
    · rename_i v' rest hread
      split at h
      · rename_i hempty
        obtain rfl := Option.some.inj h
        obtain ⟨depth, hbegins⟩ := (soundUpTo _).value hread
        exact ⟨depth, rest, hbegins, List.isEmpty_iff.mp hempty⟩
      · cases h
    · cases h
  · rintro ⟨depth, rest, hbegins, hempty⟩
    have hle := skipBlanks_length_le t
    have hread : readValue (2 * t.length + 2) (skipBlanks t) = some (v, rest) :=
      hbegins.readFrom _ (by omega)
    simp only [hread, hempty, List.isEmpty_nil, if_true]

end Underwriting.Json

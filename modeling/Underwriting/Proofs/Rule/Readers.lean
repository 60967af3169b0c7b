import Mathlib.Data.List.Nodup
import Underwriting.Rule.Decode
import Underwriting.Rule.Encode

/-! # What the readers of members accept

For each reader of one member, the members from which it reads a given result. Decoders are
chains of readers, so what they accept is a conjunction of these.
-/
namespace Underwriting

theorem except_bind_eq_ok {α β ε : Type} {x : Except ε α} {f : α → Except ε β} {b : β} :
    (x >>= f) = .ok b ↔ ∃ a, x = .ok a ∧ f a = .ok b := by
  cases x with
  | error e =>
    constructor
    · intro h
      cases h
    · rintro ⟨a, h, -⟩
      cases h
  | ok a =>
    constructor
    · intro h
      exact ⟨a, rfl, h⟩
    · rintro ⟨a', h, hb⟩
      cases h
      exact hb

theorem except_pure_eq_ok {α ε : Type} {a b : α} :
    (pure a : Except ε α) = .ok b ↔ a = b := by
  constructor
  · intro h
    cases h
    rfl
  · rintro rfl
    rfl

theorem except_mapError_eq_ok {α ε δ : Type} {x : Except ε α} {f : ε → δ} {a : α} :
    x.mapError f = .ok a ↔ x = .ok a := by
  cases x <;> simp [Except.mapError]

theorem not_exists_ok_of_eq_error {α ε : Type} {x : Except ε α} {e : ε} (h : x = .error e) :
    ¬ ∃ a, x = .ok a := by
  rintro ⟨a, hok⟩
  cases h.symm.trans hok

theorem Location.check_eq_ok {α : Type} {location : Location} {r : Except Fault α} {a : α} :
    location.check r = .ok a ↔ r = .ok a := by
  cases r <;> simp [Location.check]

/-! ## Words -/

/-- A vocabulary that lists all its words, each with a spelling of its own. -/
class Vocabulary.Lawful (α : Type) [Vocabulary α] : Prop where
  mem_words : ∀ w : α, w ∈ (Vocabulary.words : List α)
  nodup_spellings : ((Vocabulary.words : List α).map Vocabulary.spelling).Nodup

instance : Vocabulary.Lawful Operator where
  mem_words w := by cases w <;> decide
  nodup_spellings := by decide

instance : Vocabulary.Lawful ValueType where
  mem_words w := by cases w <;> decide
  nodup_spellings := by decide

instance : Vocabulary.Lawful Connective where
  mem_words w := by cases w <;> decide
  nodup_spellings := by decide

instance : Vocabulary.Lawful ActionKind where
  mem_words w := by cases w <;> decide
  nodup_spellings := by decide

instance : Vocabulary.Lawful Adjustment where
  mem_words w := by cases w <;> decide
  nodup_spellings := by decide

instance : Vocabulary.Lawful Severity where
  mem_words w := by cases w <;> decide
  nodup_spellings := by decide

namespace Vocabulary
variable {α : Type} [Vocabulary α] [Lawful α]

theorem spelling_injective {v w : α} (h : spelling v = spelling w) : v = w :=
  List.inj_on_of_nodup_map Lawful.nodup_spellings (Lawful.mem_words v) (Lawful.mem_words w) h

theorem read_eq_ok {text : String} {w : α} : read text = .ok w ↔ spelling w = text := by
  unfold read
  constructor
  · intro h
    split at h
    · rename_i v hv
      cases h
      simpa using List.find?_some hv
    · cases h
  · rintro rfl
    have hfound : ((words : List α).find? fun v => spelling v == spelling w).isSome = true :=
      List.find?_isSome.mpr ⟨w, Lawful.mem_words w, by simp⟩
    obtain ⟨v, hv⟩ := Option.isSome_iff_exists.mp hfound
    have hspelling : spelling v = spelling w := by simpa using List.find?_some hv
    rw [hv, spelling_injective hspelling]

end Vocabulary

theorem Value.word_injective {α : Type} [Vocabulary α] [Vocabulary.Lawful α] {v w : α}
    (h : Value.word v = Value.word w) : v = w :=
  Vocabulary.spelling_injective (Value.string.inj h)

/-! ## Members -/

namespace Members
variable {ms : Members} {key : String}

theorem expect_eq_ok {v : Value} : expect v = .ok ms ↔ v = .object ms := by
  cases v <;> simp [expect]

theorem required_eq_ok {v : Value} : ms.required key = .ok v ↔ ms.get? key = some v := by
  unfold required
  cases ms.get? key <;> simp

theorem string_eq_ok {s : String} :
    ms.string key = .ok s ↔ ms.get? key = some (.string s) := by
  unfold string
  rcases ms.get? key with _ | v
  · simp
  · cases v <;> simp

theorem optionalString_eq_ok {s : Option String} :
    ms.optionalString key = .ok s ↔
      ms.get? key = s.map .string ∨ ms.get? key = some .null ∧ s = none := by
  unfold optionalString
  rcases ms.get? key with _ | v
  · cases s <;> simp
  · cases v <;> cases s <;> simp

theorem word_eq_ok {α : Type} [Vocabulary α] [Vocabulary.Lawful α] {w : α} :
    ms.word key = .ok w ↔ ms.get? key = some (.word w) := by
  unfold word
  constructor
  · intro h
    split at h
    · cases h
    · rename_i text htext
      split at h
      · rename_i v hv
        cases h
        rw [string_eq_ok.mp htext, Value.word, Vocabulary.read_eq_ok.mp hv]
      · cases h
  · intro h
    have htext : ms.string key = .ok (Vocabulary.spelling w) := string_eq_ok.mpr h
    have hread : Vocabulary.read (Vocabulary.spelling w) = .ok w := Vocabulary.read_eq_ok.mpr rfl
    simp only [htext, hread]

theorem optionalWord_eq_ok {α : Type} [Vocabulary α] [Vocabulary.Lawful α] {w : Option α} :
    ms.optionalWord key = .ok w ↔ ms.get? key = w.map .word := by
  unfold optionalWord contains
  cases hkey : ms.get? key with
  | none => cases w <;> simp
  | some v =>
    have hword (u : α) : ms.word key = .ok u ↔ v = .word u := by
      rw [word_eq_ok, hkey, Option.some_inj]
    cases hread : (ms.word key : Except Fault α) with
    | error e =>
      have hne (u : α) : v ≠ .word u := fun hv => by
        rw [(hword u).mpr hv] at hread
        cases hread
      cases w <;> simp [Except.map, hne]
    | ok u =>
      obtain rfl := (hword u).mp hread
      cases w with
      | none => simp [Except.map]
      | some w =>
        simp only [Option.isSome_some, if_true, Except.map, Except.ok.injEq, Option.some_inj,
          Option.map_some]
        exact ⟨fun h => by rw [h], Value.word_injective⟩

theorem integer_eq_ok {default n : Int32} :
    ms.integer key default = .ok n ↔
      ms.get? key = none ∧ n = default ∨
        ∃ x, ms.get? key = some (.number x) ∧ Binary64.toInt32? x = some n := by
  unfold integer
  rcases ms.get? key with _ | v
  · simp [eq_comm]
  · cases v with
    | number x => cases hx : Binary64.toInt32? x <;> simp [hx]
    | _ => simp

theorem boolean_eq_ok {default b : Bool} :
    ms.boolean key default = .ok b ↔
      ms.get? key = none ∧ b = default ∨ ms.get? key = some (.bool b) := by
  unfold boolean
  rcases ms.get? key with _ | v
  · simp [eq_comm]
  · cases v <;> simp

theorem list_eq_ok {items : List Value} :
    ms.list key = .ok items ↔ ms.get? key = some (.list items) := by
  unfold list
  rcases ms.get? key with _ | v
  · simp
  · cases v <;> simp

end Members

/-! ## Lists -/

section Lists
variable {α ε : Type} {read : Nat → Value → Except ε α}

theorem readEach_cons_eq_ok {i : Nat} {v : Value} {vs : List Value} {as : List α} :
    readEach read i (v :: vs) = .ok as ↔
      ∃ a rest, as = a :: rest ∧ read i v = .ok a ∧ readEach read (i + 1) vs = .ok rest := by
  rw [readEach]
  cases hread : read i v with
  | error e => simp
  | ok a =>
    cases hrest : readEach read (i + 1) vs with
    | error e => simp
    | ok rest => simp [eq_comm]

theorem exists_read_of_mem {i : Nat} {vs : List Value} {as : List α}
    (h : readEach read i vs = .ok as) {a : α} (ha : a ∈ as) :
    ∃ j, ∃ v ∈ vs, read j v = .ok a := by
  induction vs generalizing i as with
  | nil =>
    cases h
    cases ha
  | cons v vs ih =>
    obtain ⟨b, rest, rfl, hread, hrest⟩ := readEach_cons_eq_ok.mp h
    rcases List.mem_cons.mp ha with rfl | ha
    · exact ⟨i, v, List.mem_cons_self, hread⟩
    · obtain ⟨j, w, hw, hothers⟩ := ih hrest ha
      exact ⟨j, w, List.mem_cons_of_mem v hw, hothers⟩

/-- A list of document forms is read as the list that it was made from, if this is so of
each of its items. -/
theorem readEach_map_eq_ok {toValue : α → Value} {P : α → Prop} {as bs : List α} {i : Nat}
    (h : ∀ a ∈ as, ∀ j b, read j (toValue a) = .ok b ↔ P a ∧ b = a) :
    readEach read i (as.map toValue) = .ok bs ↔ (∀ a ∈ as, P a) ∧ bs = as := by
  induction as generalizing i bs with
  | nil => simp [readEach, eq_comm]
  | cons a as ih =>
    rw [List.forall_mem_cons] at h
    obtain ⟨hfirst, hothers⟩ := h
    rw [List.map_cons, readEach_cons_eq_ok, List.forall_mem_cons]
    constructor
    · rintro ⟨b, rest, rfl, hread, hrest⟩
      obtain ⟨hfits, rfl⟩ := (hfirst i b).mp hread
      obtain ⟨hall, rfl⟩ := (ih hothers).mp hrest
      exact ⟨⟨hfits, hall⟩, rfl⟩
    · rintro ⟨⟨hfits, hall⟩, rfl⟩
      exact ⟨a, as, rfl, (hfirst i a).mpr ⟨hfits, rfl⟩, (ih hothers).mpr ⟨hall, rfl⟩⟩

end Lists
end Underwriting

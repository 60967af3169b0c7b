import Underwriting.Json.Strict
import Underwriting.Proofs.Json.Grammar
import Underwriting.Proofs.Value.Printable

/-! # Writing values and reading them again

Every value that has a JSON text is written, compactly or not, as a document of that very
value, and the document nests no deeper than the value may.
-/
namespace Underwriting.Json

/-! ## Blanks -/

theorem skipBlanks_append {gap : List Char} (h : ∀ c ∈ gap, isBlank c = true) (t : List Char) :
    skipBlanks (gap ++ t) = skipBlanks t := List.dropWhile_append_of_pos h

theorem Layout.isBlank_of_mem_newline {layout : Layout} {indent : Nat} {c : Char}
    (h : c ∈ layout.newline indent) : isBlank c = true := by
  cases layout with
  | compact => cases h
  | pretty =>
    rcases List.mem_cons.mp h with rfl | h
    · rfl
    · obtain rfl := List.eq_of_mem_replicate h
      rfl

theorem skipBlanks_newline (layout : Layout) (indent : Nat) (t : List Char) :
    skipBlanks (layout.newline indent ++ t) = skipBlanks t :=
  skipBlanks_append (fun _ => layout.isBlank_of_mem_newline) t

theorem Begins.skipBlanks_eq {t rest : List Char} {p : Phrase} {depth : Nat}
    (h : Begins t p depth rest) : skipBlanks t = t := by
  obtain ⟨c, tail, rfl, hblank, -⟩ := h.head_ne
  exact List.dropWhile_cons_of_neg (Bool.eq_false_iff.mp hblank)

theorem Begins.after_newline {t rest : List Char} {p : Phrase} {depth : Nat}
    (h : Begins t p depth rest) (layout : Layout) (indent : Nat) :
    Begins (skipBlanks (layout.newline indent ++ t)) p depth rest := by
  rw [skipBlanks_newline, h.skipBlanks_eq]
  exact h

theorem Begins.after_colon {t rest : List Char} {p : Phrase} {depth : Nat}
    (h : Begins t p depth rest) (layout : Layout) :
    ∃ t', skipBlanks (layout.colon ++ t) = ':' :: t' ∧ Begins (skipBlanks t') p depth rest := by
  cases layout with
  | compact =>
    refine ⟨t, rfl, ?_⟩
    rw [h.skipBlanks_eq]
    exact h
  | pretty =>
    refine ⟨' ' :: t, rfl, ?_⟩
    have hskip : skipBlanks (' ' :: t) = skipBlanks t := rfl
    rw [hskip, h.skipBlanks_eq]
    exact h

theorem endsNumber_of_isBlank {c : Char} (h : isBlank c = true) : isNumberChar c = false := by
  simp only [isBlank, Bool.or_eq_true, beq_iff_eq] at h
  obtain ((rfl | rfl) | rfl) | rfl := h
  all_goals rfl

theorem endsNumber_of_skipBlanks {t rest : List Char} {c : Char} (h : skipBlanks t = c :: rest)
    (hc : isNumberChar c = false) : EndsNumber t := by
  rintro c' tail rfl
  cases hblank : isBlank c' with
  | true => exact endsNumber_of_isBlank hblank
  | false =>
    rw [skipBlanks, List.dropWhile_cons_of_neg (Bool.eq_false_iff.mp hblank)] at h
    rw [(List.cons.inj h).1]
    exact hc

/-! ## Values -/

section Texts
variable (layout : Layout)

/-- The value is written, and with whatever does not belong to a number after it, the text
begins with this very value. -/
def Written (levels indent : Nat) (v : Value) : Prop :=
  ∃ cs depth, text? layout indent v = some cs ∧ depth ≤ levels ∧
    ∀ rest, EndsNumber rest → Begins (cs ++ rest) (.value v) depth rest

variable {layout} {levels indent : Nat}

theorem written_items {v : Value} {vs : List Value}
    (h : ∀ w ∈ v :: vs, Written layout levels indent w) :
    ∃ first others depth, text? layout indent v = some first ∧
      itemsText? layout indent vs = some others ∧ depth ≤ levels ∧
      ∀ t rest, skipBlanks t = ']' :: rest →
        Begins (first ++ (others ++ t)) (.items (v :: vs)) depth rest := by
  induction vs generalizing v with
  | nil =>
    obtain ⟨first, depth, hfirst, hdepth, hbegins⟩ := h v List.mem_cons_self
    refine ⟨first, [], depth, hfirst, rfl, hdepth, fun t rest hclose => ?_⟩
    exact .lastItem (hbegins t (endsNumber_of_skipBlanks hclose rfl)) hclose
  | cons w vs ih =>
    rw [List.forall_mem_cons] at h
    obtain ⟨⟨cs, depth, hcs, hdepth, hbegins⟩, hothers⟩ := h
    obtain ⟨first, others, inner, hfirst, hrest, hinner, hitems⟩ := ih hothers
    refine ⟨cs, ',' :: (layout.newline (indent - 1) ++ first ++ others), max depth inner, hcs, ?_,
      max_le hdepth hinner, fun t rest hclose => ?_⟩
    · rw [itemsText?, hfirst, hrest]
    · have hnext := (hitems t rest hclose).after_newline layout (indent - 1)
      have hcomma : EndsNumber
          (',' :: (layout.newline (indent - 1) ++ (first ++ (others ++ t)))) :=
        endsNumber_cons _ rfl
      simp only [List.cons_append, List.append_assoc]
      exact .item (hbegins _ hcomma) rfl hnext

theorem begins_key (key : String) {v : Value} {first t : List Char} {depth : Nat}
    (hbegins : Begins (first ++ t) (.value v) depth t) :
    ∃ t' t'', readString (key.toList.flatMap escaped ++ '"' :: (layout.colon ++ (first ++ t))) =
        some (key, t') ∧ skipBlanks t' = ':' :: t'' ∧
      Begins (skipBlanks t'') (.value v) depth t := by
  obtain ⟨t'', hcolon, hvalue⟩ := hbegins.after_colon layout
  exact ⟨_, t'', readString_quoted key _, hcolon, hvalue⟩

theorem written_members {key : String} {v : Value} {ms : List (String × Value)}
    (h : ∀ e ∈ (key, v) :: ms, Written layout levels indent e.2) :
    ∃ first others depth, text? layout indent v = some first ∧
      membersText? layout indent ms = some others ∧ depth ≤ levels ∧
      ∀ t rest, skipBlanks t = '\x7d' :: rest →
        Begins (quoted key ++ (layout.colon ++ (first ++ (others ++ t))))
          (.members ((key, v) :: ms)) depth rest := by
  induction ms generalizing key v with
  | nil =>
    obtain ⟨first, depth, hfirst, hdepth, hbegins⟩ := h (key, v) List.mem_cons_self
    refine ⟨first, [], depth, hfirst, rfl, hdepth, fun t rest hclose => ?_⟩
    obtain ⟨t', t'', hkey, hcolon, hvalue⟩ :=
      begins_key key (hbegins t (endsNumber_of_skipBlanks hclose rfl))
    rw [quoted_append]
    exact .lastMember hkey hcolon hvalue hclose
  | cons e ms ih =>
    obtain ⟨other, w⟩ := e
    rw [List.forall_mem_cons] at h
    obtain ⟨⟨cs, depth, hcs, hdepth, hbegins⟩, hothers⟩ := h
    obtain ⟨first, others, inner, hfirst, hrest, hinner, hmembers⟩ := ih hothers
    refine ⟨cs, ',' :: (layout.newline (indent - 1) ++ quoted other ++ layout.colon ++ first ++
      others), max depth inner, hcs, ?_, max_le hdepth hinner, fun t rest hclose => ?_⟩
    · rw [membersText?, hfirst, hrest]
    · have hnext := (hmembers t rest hclose).after_newline layout (indent - 1)
      have hcomma : EndsNumber (',' :: (layout.newline (indent - 1) ++
          (quoted other ++ (layout.colon ++ (first ++ (others ++ t)))))) :=
        endsNumber_cons _ rfl
      obtain ⟨t', t'', hkey, hcolon, hvalue⟩ := begins_key key (hbegins _ hcomma)
      simp only [List.cons_append, List.append_assoc] at hkey ⊢
      rw [quoted_append]
      exact .member hkey hcolon hvalue rfl hnext

theorem written_list {vs : List Value} (h : ∀ v ∈ vs, Written layout levels (indent + 1) v) :
    Written layout (levels + 1) indent (.list vs) := by
  cases vs with
  | nil => exact ⟨_, 1, rfl, Nat.le_add_left 1 levels, fun rest _ => .emptyList rfl⟩
  | cons v vs =>
    obtain ⟨first, others, depth, hfirst, hothers, hdepth, hitems⟩ := written_items h
    refine ⟨'[' :: (layout.newline indent ++ first ++ others ++ layout.newline (indent - 1) ++
      [']']), depth + 1, ?_, Nat.succ_le_succ hdepth, fun rest _ => ?_⟩
    · rw [text?, hfirst, hothers]
    · have hclose : skipBlanks (layout.newline (indent - 1) ++ ']' :: rest) = ']' :: rest := by
        rw [skipBlanks_newline]
        rfl
      have hinner := (hitems _ rest hclose).after_newline layout indent
      simp only [List.cons_append, List.append_assoc, List.nil_append]
      exact .list hinner

theorem written_object {ms : Members} (hdistinct : ms.Distinct)
    (h : ∀ e ∈ ms, Written layout levels (indent + 1) e.2) :
    Written layout (levels + 1) indent (.object ms) := by
  cases ms with
  | nil => exact ⟨_, 1, rfl, Nat.le_add_left 1 levels, fun rest _ => .emptyObject rfl⟩
  | cons e ms =>
    obtain ⟨key, v⟩ := e
    obtain ⟨first, others, depth, hfirst, hothers, hdepth, hmembers⟩ := written_members h
    refine ⟨'\x7b' :: (layout.newline indent ++ quoted key ++ layout.colon ++ first ++ others ++
      layout.newline (indent - 1) ++ ['\x7d']), depth + 1, ?_, Nat.succ_le_succ hdepth,
      fun rest _ => ?_⟩
    · rw [text?, hfirst, hothers]
    · have hclose : skipBlanks (layout.newline (indent - 1) ++ '\x7d' :: rest) =
          '\x7d' :: rest := by
        rw [skipBlanks_newline]
        rfl
      have hinner := (hmembers _ rest hclose).after_newline layout indent
      have hobject := Begins.object hinner
      rw [Members.ofList_of_distinct hdistinct] at hobject
      simpa only [List.cons_append, List.append_assoc, List.nil_append] using hobject

theorem written_of_printable {v : Value} (h : v.PrintableWithin levels) :
    Written layout levels indent v := by
  induction h generalizing indent with
  | null => exact ⟨_, 0, rfl, Nat.zero_le _, fun rest _ => .null⟩
  | @bool _ b =>
    cases b with
    | true => exact ⟨_, 0, rfl, Nat.zero_le _, fun rest _ => .trueWord⟩
    | false => exact ⟨_, 0, rfl, Nat.zero_le _, fun rest _ => .falseWord⟩
  | number hfinite =>
    obtain ⟨digits, hdigits⟩ := exists_numberText? hfinite
    exact ⟨digits, 0, hdigits, Nat.zero_le _, fun rest hends =>
      .number (isNumber_of_numberText? hdigits) hends⟩
  | @string _ s =>
    refine ⟨_, 0, rfl, Nat.zero_le _, fun rest _ => ?_⟩
    rw [quoted_append]
    exact .string (readString_quoted s rest)
  | list _ ih => exact written_list fun v hv => ih v hv
  | object hdistinct _ ih => exact written_object hdistinct fun e he => ih e he

end Texts

/-! ## Documents -/

/-- A value that has a JSON text is written as a document of that value. -/
theorem exists_write_of_printable (layout : Layout) {levels : Nat} {v : Value}
    (h : v.PrintableWithin levels) :
    ∃ text depth, strict.write layout v = .ok text ∧ IsDocument text.toList v depth ∧
      depth ≤ levels := by
  have hwritten : Written layout levels 1 v := written_of_printable h
  obtain ⟨cs, depth, hcs, hdepth, hbegins⟩ := hwritten
  have hends : EndsNumber [] := by
    rintro c tail ⟨⟩
  have hvalue := hbegins [] hends
  rw [List.append_nil] at hvalue
  have hdocument : IsDocument (String.ofList cs).toList v depth := by
    rw [String.toList_ofList]
    refine ⟨[], ?_, rfl⟩
    rw [hvalue.skipBlanks_eq]
    exact hvalue
  refine ⟨String.ofList cs, depth, ?_, hdocument, hdepth⟩
  simp only [strict, hcs]

end Underwriting.Json

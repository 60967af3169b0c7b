import Underwriting.Proofs.Config.Validity
import Underwriting.Proofs.Rule.Faults

/-! # Messages of the loader

Whatever is wrong with a configuration that could be read as YAML, the message says that it
comes from a configuration, unless the YAML library throws where nothing is caught: when the
document is a scalar, in which no key can be looked up, and when a text outside the list of
rules does not convert.
-/
namespace Underwriting

theorem Text.prefix_untilNul {lead s : String} (hlead : '\x00' ∉ lead.toList)
    (h : lead.toList <+: s.toList) : lead.toList <+: (untilNul s).toList := by
  obtain ⟨rest, hrest⟩ := h
  have hkept : ∀ c ∈ lead.toList, (c != '\x00') = true := by
    intro c hc
    rw [bne_iff_ne]
    rintro rfl
    exact hlead hc
  rw [untilNul, String.toList_ofList, ← hrest, List.takeWhile_append_of_pos hkept]
  exact List.prefix_append _ _

theorem except_throw_if_eq_error {α β ε : Type} {p : Prop} [Decidable p] {e e' : ε}
    {k : β → Except ε α} {rest : Except ε α} :
    (if p then throw e >>= k else rest) = .error e' ↔ p ∧ e = e' ∨ ¬ p ∧ rest = .error e' := by
  have hthrow : (throw e >>= k) = .error e := rfl
  split
  · rename_i hp
    simp [hthrow, hp]
  · rename_i hp
    simp [hp]

theorem except_mapError_eq_error {α ε δ : Type} {x : Except ε α} {f : ε → δ} {e : δ} :
    x.mapError f = .error e ↔ ∃ e', x = .error e' ∧ f e' = e := by
  cases x <;> simp [Except.mapError]

namespace Yaml

def Node.IsScalar (n : Node) : Prop := ∃ text tag, n = .scalar text tag

/-- What is asked of the lookups of a library: a scalar has no place for keys, and any other
node is searched without an exception. -/
structure Library.Subscripts (yaml : Library) : Prop where
  found : ∀ (key : String) {n : Node}, ¬ n.IsScalar → ∃ m, yaml.lookup key n = .ok m
  scalar : ∀ (key : String) {n : Node}, n.IsScalar → ∃ y, yaml.lookup key n = .error y

theorem Node.not_isScalar_of_isMap {n : Node} (h : n.isMap = true) : ¬ n.IsScalar := by
  rintro ⟨text, tag, rfl⟩
  cases h

theorem standard_subscripts : standard.Subscripts where
  found key n h := by
    cases n with
    | scalar text tag => exact absurd ⟨text, tag, rfl⟩ h
    | _ => exact ⟨_, rfl⟩
  scalar key n h := by
    obtain ⟨text, tag, rfl⟩ := h
    exact ⟨_, rfl⟩

end Yaml

namespace Config

def Error.Identified (e : Error) : Prop := "[CONFIG]".toList <+: e.message.toList

instance (e : Error) : Decidable e.Identified := inferInstanceAs (Decidable (_ <+: _))

/-- The errors that the loader words itself. -/
def Error.IsWorded : Error → Prop
  | .unreadable _ _ => False
  | .yaml _ => False
  | .rule _ (.uncaught _) => False
  | _ => True

theorem Error.IsWorded.identified {e : Error} (h : e.IsWorded) : e.Identified := by
  have hlead {lead rest : String} (h : "[CONFIG]".toList <+: lead.toList) :
      "[CONFIG]".toList <+: (lead ++ rest).toList := by
    rw [String.toList_append]
    exact h.trans (List.prefix_append _ _)
  have hrule (index : Nat) (detail : String) :
      "[CONFIG]".toList <+: (RuleSpec.message index detail).toList :=
    Text.prefix_untilNul (by decide) (hlead (hlead (hlead (by decide))))
  cases e with
  | unreadable _ _ | yaml _ => exact h.elim
  | notAMap s => cases s <;> decide
  | promptFile e => exact hlead (by decide)
  | rule index e =>
    cases e with
    | uncaught y => exact h.elim
    | _ => exact hrule index _
  | duplicateRule id => exact Text.prefix_untilNul (by decide) (hlead (by decide))
  | _ => decide

/-! ## Exceptions that are not caught -/

/-- The texts outside the list of rules. -/
def texts : List (Section × String) :=
  [(.provider, "name"), (.builder, "system_prompt"), (.builder, "system_prompt_file")]

/-- A text of a section that is there and does not convert. -/
def IllTypedText (yaml : Yaml.Library) (root : Yaml.Node) (s : Section) (key : String)
    (y : Yaml.Error) : Prop :=
  ∃ n m, yaml.lookup s.name root = .ok (some n) ∧ n.isMap = true ∧
    yaml.lookup key n = .ok (some m) ∧ yaml.string m = .error y

/-- The exceptions that get through: of the first lookup in a scalar, and of the conversion of
a text outside the list of rules. -/
inductive GetsThrough (yaml : Yaml.Library) (root : Yaml.Node) : Yaml.Error → Prop where
  | root {y : Yaml.Error} : root.IsScalar → yaml.lookup "provider" root = .error y →
    GetsThrough yaml root y
  | text {s : Section} {key : String} {y : Yaml.Error} : (s, key) ∈ texts →
    IllTypedText yaml root s key y → GetsThrough yaml root y

def Error.Tells (yaml : Yaml.Library) (root : Yaml.Node) (e : Error) : Prop :=
  e.IsWorded ∨ ∃ y, e = .yaml y ∧ GetsThrough yaml root y

variable {yaml : Yaml.Library} {json : Json.Library} {files : Files} {directory : String}
  {root : Yaml.Node} {e : Error}

theorem find_eq_ok {key : String} {n : Yaml.Node} {m : Option Yaml.Node} :
    find yaml key n = .ok m ↔ yaml.lookup key n = .ok m := except_mapError_eq_ok

theorem find_ne_error (hyaml : yaml.Subscripts) {key : String} {n : Yaml.Node}
    (hn : ¬ n.IsScalar) : find yaml key n ≠ .error e := by
  obtain ⟨m, hm⟩ := hyaml.found key hn
  rw [find_eq_ok.mpr hm]
  exact nofun

theorem lookup_of_find {s : Section} {n : Yaml.Node} (h : s.find yaml root = .ok (some n)) :
    yaml.lookup s.name root = .ok (some n) ∧ n.isMap = true := by
  obtain ⟨m, hfind, h⟩ := except_bind_eq_ok.mp h
  cases m with
  | none => cases h
  | some m =>
    dsimp only at h
    split at h
    · rename_i hmap
      cases h
      exact ⟨find_eq_ok.mp hfind, hmap⟩
    · cases h

theorem tells_of_text {s : Section} {key : String} (hmem : (s, key) ∈ texts) {n m : Yaml.Node}
    (hsection : s.find yaml root = .ok (some n)) (hkey : find yaml key n = .ok (some m))
    (h : text yaml m = .error e) : e.Tells yaml root := by
  obtain ⟨hlookup, hmap⟩ := lookup_of_find hsection
  rw [text] at h
  cases hstring : yaml.string m with
  | ok s =>
    rw [hstring] at h
    cases h
  | error y =>
    rw [hstring] at h
    obtain rfl := Except.error.inj h
    exact Or.inr ⟨y, rfl, .text hmem ⟨n, m, hlookup, hmap, find_eq_ok.mp hkey, hstring⟩⟩

/-! ## Sections -/

section Sections
variable (hyaml : yaml.Subscripts) (hroot : ¬ root.IsScalar)
include hyaml hroot

theorem isWorded_of_find {s : Section} (h : s.find yaml root = .error e) : e.IsWorded := by
  rcases except_bind_eq_error.mp h with hfind | ⟨n, -, h⟩
  · exact absurd hfind (find_ne_error hyaml hroot)
  · split at h
    · exact absurd h except_pure_ne_error
    · split at h
      · exact absurd h except_pure_ne_error
      · obtain rfl := Except.error.inj h
        trivial

omit hroot in
/-- Nothing gets through the lookups in a section. -/
theorem find_ne_error_of_section {s : Section} {n : Yaml.Node}
    (hsection : s.find yaml root = .ok (some n)) {key : String} : find yaml key n ≠ .error e :=
  find_ne_error hyaml (Yaml.Node.not_isScalar_of_isMap (lookup_of_find hsection).2)

theorem tells_of_readProviderName (h : readProviderName yaml root = .error e) :
    e.Tells yaml root := by
  rcases except_bind_eq_error.mp h with hsection | ⟨n, hsection, h⟩
  · exact Or.inl (isWorded_of_find hyaml hroot hsection)
  · split at h
    · exact absurd h except_pure_ne_error
    · rcases except_bind_eq_error.mp h with hfind | ⟨m, hfind, h⟩
      · exact absurd hfind (find_ne_error_of_section hyaml hsection)
      · split at h
        · exact absurd h except_pure_ne_error
        · rcases except_bind_eq_error.mp h with htext | ⟨_, -, h⟩
          · exact tells_of_text (s := .provider) (by decide) hsection hfind htext
          · exact absurd h except_pure_ne_error

theorem isWorded_of_readWorkers (h : readWorkers yaml root = .error e) : e.IsWorded := by
  rcases except_bind_eq_error.mp h with hsection | ⟨n, hsection, h⟩
  · exact isWorded_of_find hyaml hroot hsection
  · split at h
    · exact absurd h except_pure_ne_error
    · rcases except_bind_eq_error.mp h with hfind | ⟨m, -, h⟩
      · exact absurd hfind (find_ne_error_of_section hyaml hsection)
      · split at h
        · exact absurd h except_pure_ne_error
        · split at h
          · obtain rfl := Except.error.inj h
            trivial
          · split at h
            · exact absurd h except_pure_ne_error
            · obtain rfl := Except.error.inj h
              trivial

theorem tells_of_readSystemPrompt (h : readSystemPrompt yaml files directory root = .error e) :
    e.Tells yaml root := by
  rcases except_bind_eq_error.mp h with hsection | ⟨n, hsection, h⟩
  · exact Or.inl (isWorded_of_find hyaml hroot hsection)
  · split at h
    · exact absurd h except_pure_ne_error
    · rcases except_bind_eq_error.mp h with hfind | ⟨prompt, hprompt, h⟩
      · exact absurd hfind (find_ne_error_of_section hyaml hsection)
      · split at h
        · rcases except_bind_eq_error.mp h with hfind | ⟨file, -, h⟩
          · exact absurd hfind (find_ne_error_of_section hyaml hsection)
          · rcases except_throw_if_eq_error.mp h with ⟨-, rfl⟩ | ⟨-, htext⟩
            · exact Or.inl trivial
            · exact tells_of_text (by decide) hsection hprompt htext
        · rcases except_bind_eq_error.mp h with hfind | ⟨file, hfile, h⟩
          · exact absurd hfind (find_ne_error_of_section hyaml hsection)
          · split at h
            · exact absurd h except_pure_ne_error
            · rcases except_bind_eq_error.mp h with htext | ⟨path, -, h⟩
              · exact tells_of_text (by decide) hsection hfile htext
              · dsimp only at h
                split at h
                · obtain rfl := Except.error.inj h
                  exact Or.inl trivial
                · exact absurd h except_pure_ne_error

end Sections

/-! ## The list of rules -/

theorem isWorded_of_ruleNodes (hyaml : yaml.Subscripts) (hroot : ¬ root.IsScalar)
    (h : ruleNodes yaml root = .error e) : e.IsWorded := by
  rcases except_bind_eq_error.mp h with hfind | ⟨n, -, h⟩
  · exact absurd hfind (find_ne_error hyaml hroot)
  · split at h
    · obtain rfl := Except.error.inj h
      trivial
    · exact absurd h except_pure_ne_error
    · obtain rfl := Except.error.inj h
      trivial

section Entries
variable (hyaml : yaml.Subscripts) {n : Yaml.Node}
include hyaml

theorem lookup_ne_error_of_isMap (hmap : n.isMap = true) {key : String} {y : Yaml.Error} :
    yaml.lookup key n ≠ .error y := by
  obtain ⟨m, hm⟩ := hyaml.found key (Yaml.Node.not_isScalar_of_isMap hmap)
  rw [hm]
  exact nofun

theorem findSource_ne_uncaught (hmap : n.isMap = true) {y : Yaml.Error} :
    RuleSpec.findSource yaml n ≠ .error (.uncaught y) := by
  intro h
  simp only [RuleSpec.findSource, except_bind_eq_error, except_mapError_eq_error] at h
  rcases h with ⟨y', hlookup, -⟩ | ⟨file, -, ⟨y', hlookup, -⟩ | ⟨inline, -, h⟩⟩
  · exact lookup_ne_error_of_isMap hyaml hmap hlookup
  · exact lookup_ne_error_of_isMap hyaml hmap hlookup
  · split at h <;> cases h

/-- The lookups in an entry come after the check that it is a map. -/
theorem ofNode_ne_uncaught {y : Yaml.Error} :
    RuleSpec.ofNode yaml json files directory n ≠ .error (.uncaught y) := by
  intro h
  simp only [RuleSpec.ofNode, except_throw_if_eq_error, except_bind_eq_error,
    except_mapError_eq_error, except_pure_ne_error, reduceCtorEq, and_false, exists_false,
    or_false, false_or] at h
  obtain ⟨hmap, ⟨_, hlookup, -⟩ | ⟨_, -, -, hsource⟩⟩ := h
  · exact lookup_ne_error_of_isMap hyaml (by simpa using hmap) hlookup
  · exact findSource_ne_uncaught hyaml (by simpa using hmap) hsource

end Entries

theorem isWorded_of_readRules (hyaml : yaml.Subscripts) {nodes : List Yaml.Node}
    {done : List RuleSpec} {i : Nat}
    (h : readRules yaml json files directory done i nodes = .error e) : e.IsWorded := by
  induction nodes generalizing done i with
  | nil => cases h
  | cons n nodes ih =>
    rw [readRules] at h
    split at h
    · rename_i refusal hrefused
      obtain rfl := Except.error.inj h
      cases refusal with
      | uncaught y => exact absurd hrefused (ofNode_ne_uncaught hyaml)
      | _ => trivial
    · split at h
      · obtain rfl := Except.error.inj h
        trivial
      · exact ih h

/-! ## Loading -/

variable {path : String}

theorem load_of_readProviderName (hdocument : files.document path = .ok root)
    (h : readProviderName yaml root = .error e) : load yaml json files path = .error e := by
  simp only [load, hdocument, except_bind_eq_error]
  exact Or.inr ⟨root, rfl, Or.inl h⟩

theorem readProviderName_of_scalar {y : Yaml.Error} (h : yaml.lookup "provider" root = .error y) :
    readProviderName yaml root = .error (.yaml y) := by
  have hfind : Section.provider.find yaml root = .error (.yaml y) :=
    except_bind_eq_error.mpr (Or.inl (except_mapError_eq_error.mpr ⟨y, h, rfl⟩))
  exact except_bind_eq_error.mpr (Or.inl hfind)

theorem readProviderName_of_illTyped {y : Yaml.Error}
    (h : IllTypedText yaml root .provider "name" y) :
    readProviderName yaml root = .error (.yaml y) := by
  obtain ⟨n, m, hsection, hmap, hname, hstring⟩ := h
  have hfind : Section.provider.find yaml root = .ok (some n) := by
    refine except_bind_eq_ok.mpr ⟨some n, find_eq_ok.mpr hsection, ?_⟩
    exact if_pos hmap
  have htext : text yaml m = .error (.yaml y) := except_mapError_eq_error.mpr ⟨y, hstring, rfl⟩
  refine except_bind_eq_error.mpr (Or.inr ⟨some n, hfind, ?_⟩)
  refine except_bind_eq_error.mpr (Or.inr ⟨some m, find_eq_ok.mpr hname, ?_⟩)
  exact except_bind_eq_error.mpr (Or.inl htext)

theorem tells_of_load (hyaml : yaml.Subscripts) (hdocument : files.document path = .ok root)
    (h : load yaml json files path = .error e) : e.Tells yaml root := by
  by_cases hroot : root.IsScalar
  · obtain ⟨y, hlookup⟩ := hyaml.scalar "provider" hroot
    have hload : load yaml json files path = .error (.yaml y) :=
      load_of_readProviderName hdocument (readProviderName_of_scalar hlookup)
    obtain rfl := Except.error.inj (hload.symm.trans h)
    exact Or.inr ⟨y, rfl, .root hroot hlookup⟩
  · rw [load, hdocument] at h
    rcases except_bind_eq_error.mp h with hnever | ⟨_, ⟨⟩, h⟩
    · cases hnever
    · simp only [except_bind_eq_error, except_pure_ne_error, and_false, exists_false,
        or_false] at h
      rcases h with hname | ⟨_, -, hworkers | ⟨_, -, hprompt | ⟨_, -, hnodes | ⟨_, -, hrules⟩⟩⟩⟩
      · exact tells_of_readProviderName hyaml hroot hname
      · exact Or.inl (isWorded_of_readWorkers hyaml hroot hworkers)
      · exact tells_of_readSystemPrompt hyaml hroot hprompt
      · exact Or.inl (isWorded_of_ruleNodes hyaml hroot hnodes)
      · exact Or.inl (isWorded_of_readRules hyaml hrules)

/-- A configuration that is refused is refused with a message that says where it comes from,
whatever is wrong with its sections, its rules and the files that it refers to, unless an
exception of the YAML library gets through. The message of that exception is all that is said
then. It is thrown by the first lookup in a document that is a scalar, or by a text outside the
list of rules that does not convert; every document that is a scalar is answered like that, and
so is every name of the provider that does not convert. -/
theorem load_error_message (hyaml : yaml.Subscripts) (hdocument : files.document path = .ok root)
    (h : load yaml json files path = .error e) :
    ((∀ y, e ≠ .yaml y) → "[CONFIG]".toList <+: e.message.toList) ∧
      (∀ y, e = .yaml y → e.message = y.message ∧ GetsThrough yaml root y) ∧
      (∀ text tag, root = .scalar text tag →
        ∃ y, yaml.lookup "provider" root = .error y ∧ e = .yaml y) ∧
      ∀ y, IllTypedText yaml root .provider "name" y → e = .yaml y := by
  have htells := tells_of_load hyaml hdocument h
  have hread {e' : Error} (hname : readProviderName yaml root = .error e') : e = e' :=
    Except.error.inj (h.symm.trans (load_of_readProviderName hdocument hname))
  refine ⟨fun hworded => ?_, ?_, ?_, ?_⟩
  · rcases htells with hworded | ⟨y, rfl, -⟩
    · exact hworded.identified
    · exact absurd rfl (hworded y)
  · rintro y rfl
    rcases htells with hworded | ⟨_, ⟨⟩, hthrough⟩
    · exact hworded.elim
    · exact ⟨rfl, hthrough⟩
  · intro text tag hscalar
    obtain ⟨y, hlookup⟩ := hyaml.scalar "provider" ⟨text, tag, hscalar⟩
    exact ⟨y, hlookup, hread (readProviderName_of_scalar hlookup)⟩
  · intro y hillTyped
    exact hread (readProviderName_of_illTyped hillTyped)

/-- A configuration that calls its provider by a list. -/
def listedName : Yaml.Node :=
  .map
    [(.plain "provider", .map [(.plain "name", .sequence [.plain "a"])]),
     (.plain "rules", .sequence [])]

def holding (root : Yaml.Node) : Files :=
  ⟨"/srv", fun _ => none,
    fun path => if path = "c.yaml" then .ok root else .error ⟨"bad file"⟩⟩

theorem load_listedName :
    load Yaml.standard Json.strict (holding listedName) "c.yaml" =
        .error (.yaml Yaml.badConversion) ∧
      ¬ "[CONFIG]".toList <+: (Error.yaml Yaml.badConversion).message.toList ∧
      GetsThrough Yaml.standard listedName Yaml.badConversion := by
  have hload : load Yaml.standard Json.strict (holding listedName) "c.yaml" =
      .error (.yaml Yaml.badConversion) := rfl
  obtain ⟨-, hthrough, -⟩ := load_error_message Yaml.standard_subscripts rfl hload
  exact ⟨hload, by decide, (hthrough _ rfl).2⟩

theorem load_listedName_not_identified :
    ¬ ∀ (files : Files) (path : String) (root : Yaml.Node) (e : Error),
      files.document path = .ok root → load Yaml.standard Json.strict files path = .error e →
        "[CONFIG]".toList <+: e.message.toList := by
  intro h
  exact absurd (h (holding listedName) "c.yaml" listedName (.yaml Yaml.badConversion) rfl rfl)
    (by decide)

end Config
end Underwriting

import PegScript.Proofs.Language.NameValues
import PegScript.Proofs.Language.Numbers

/-!
# Names and keywords

`names` is a regular expression for the names of the language.  The rule for names reads the words
of it, and the rule for variables those that are no keywords.

A keyword is refused inside of a longer name, and a name is read to its end.  So the rule that tries
one keyword after the other agrees with a look into the list of keywords, although some keywords
start other keywords or other names.
-/

namespace PegScript

namespace Language

open RegularExpression
open scoped Computability

variable {text : String} {settings : Settings} {value : Value Piece}

/-! ## A regular expression for names -/

/-- The characters that a name can start with. -/
def nameStarts : String :=
  "abcdefghijklmnopqrstuvwxyzABCDEFGHIJKLMNOPQRSTUVWXYZ_$"

/-- The names of the language, keywords included. -/
def names : RegularExpression Char :=
  anyOf nameStarts * star (anyOf (nameStarts ++ "0123456789"))

/-- Characters of names are ASCII characters, so that all of them can be looked at. -/
theorem mem_iff_of_ascii {chars : List Char} {p : Char → Bool}
    (hp : ∀ a, p a = true → a.toNat < 128) (hchars : ∀ a ∈ chars, p a = true)
    (hascii : ∀ i : Fin 128, p (Char.ofNat i) = true → Char.ofNat i ∈ chars) (a : Char) :
    a ∈ chars ↔ p a = true := by
  constructor
  · exact hchars a
  · intro ha
    have hmem := hascii ⟨a.toNat, hp a ha⟩
    rw [Char.ofNat_toNat] at hmem
    exact hmem ha

theorem mem_nameStarts_iff (a : Char) : a ∈ nameStarts.toList ↔ isNameStart a = true :=
  mem_iff_of_ascii (fun _ ha => toNat_lt_of_isNamePart (isNamePart_of_isNameStart ha)) (by decide)
    (by decide) a

theorem mem_nameParts_iff (a : Char) :
    a ∈ (nameStarts ++ "0123456789").toList ↔ isNamePart a = true := by
  have hdigit : a ∈ "0123456789".toList ↔ a.isDigit = true := by
    refine mem_iff_of_ascii (fun b hb => toNat_lt_of_isNamePart ?_) (by decide) (by decide) a
    simp [isNamePart, Char.isAlphanum, hb]
  have hpart : isNamePart a = (isNameStart a || a.isDigit) := by
    simp only [isNamePart, isNameStart, Char.isAlphanum]
    ac_rfl
  rw [String.toList_append, List.mem_append, mem_nameStarts_iff, hdigit, hpart, Bool.or_eq_true]

theorem mem_names_iff : text.toList ∈ names.matches' ↔ isName text = true := by
  simp only [names, matches'_mul, Language.mem_mul, mem_anyOf_iff, mem_star_anyOf_iff,
    mem_nameStarts_iff, mem_nameParts_iff]
  constructor
  · rintro ⟨_, ⟨a, ha, rfl⟩, as, has, htext⟩
    rw [isName, ← htext]
    simpa [ha] using has
  · intro hname
    obtain ⟨a, as, htext, ha, has⟩ := exists_of_isName hname
    exact ⟨[a], ⟨a, ha, rfl⟩, as, List.all_eq_true.mp has, htext.symm⟩

/-! ## The rules for names and keywords -/

theorem isName_of_parseFrom
    (h : (grammar.parseFrom settings .identifierName text).outcome = .ok value) :
    isName text = true ∧ value = .text text := by
  obtain ⟨m, hread, hend, rfl⟩ := Grammar.exists_derives_of_ok h
  obtain ⟨name, k, hname, hk, hsplit, -⟩ := exists_name_of_derives hread
  obtain ⟨htext, hvalue⟩ := (hk.reads_name hname).eq_of_end hsplit hread hend
  obtain rfl := String.toList_inj.mp htext
  exact ⟨hname, hvalue⟩

theorem isVariable_of_parseFrom
    (h : (grammar.parseFrom settings .identifier text).outcome = .ok value) :
    isName text = true ∧ isKeyword text = false ∧ value = .text text := by
  obtain ⟨m, hread, hend, rfl⟩ := Grammar.exists_derives_of_ok h
  obtain ⟨name, k, hname, hk, hsplit, -⟩ := exists_variable_of_derives hread
  rw [isVariable, Bool.and_eq_true, Bool.not_eq_true'] at hname
  have hrule := Derives.rule (g := grammar) (r := .identifier) hread
  obtain ⟨htext, hvalue⟩ := (hk.reads_identifier hname.1 hname.2).eq_of_end hsplit hrule hend
  obtain rfl := String.toList_inj.mp htext
  exact ⟨hname.1, hname.2, hvalue⟩

/-- A keyword that was read is in the list. -/
theorem isKeyword_of_parseFrom
    (h : (grammar.parseFrom settings .keyword text).outcome = .ok value) :
    isKeyword text = true := by
  have hspans : Spans grammar (.rule .keyword) {w | ∃ word ∈ keywords, w = word.toList} := by
    refine (spans_choice fun t ht => ?_).rule
    obtain ⟨w, hw, rfl⟩ := List.mem_map.mp ht
    refine ((spans_lit w).seq_cons (spans_not _).seq_last).mono ?_
    rw [mul_one]
    rintro _ rfl
    exact ⟨w, hw, rfl⟩
  obtain ⟨w, hw, htext⟩ := Grammar.mem_of_parseFrom_eq_ok hspans h
  rw [String.toList_inj.mp htext, isKeyword, List.contains_iff_mem]
  exact hw

theorem ends_nil : Ends [] := by
  simp [Ends]

/-- Under a nesting limit of three rules: a text is parsed as a name exactly if it is one by the
regular expression, and as a keyword exactly if it is in the list of keywords.  It is parsed as a
variable exactly if it is parsed as a name and is not in that list.  The value of a name is its
text. -/
theorem parseFrom_names (settings : Settings) (hlimit : 3 ≤ settings.maxDepth) (text : String) :
    (∀ value, (grammar.parseFrom settings .identifierName text).outcome = .ok value ↔
        text.toList ∈ names.matches' ∧ value = .text text) ∧
      ((∃ value, (grammar.parseFrom settings .keyword text).outcome = .ok value) ↔
        isKeyword text = true) ∧
      ∀ value, (grammar.parseFrom settings .identifier text).outcome = .ok value ↔
        (∃ name, (grammar.parseFrom settings .identifierName text).outcome = .ok name) ∧
          isKeyword text = false ∧ value = .text text := by
  have hname : ∀ value, (grammar.parseFrom settings .identifierName text).outcome = .ok value ↔
      isName text = true ∧ value = .text text := by
    intro value
    refine ⟨isName_of_parseFrom, ?_⟩
    rintro ⟨hname, rfl⟩
    exact Grammar.parseFrom_eq_ok_of_reads (ends_nil.reads_identifierName hname)
      (Grammar.overflow_eq_none_of_fits (n := 2) (by decide) (by omega))
  refine ⟨fun value => by rw [hname, mem_names_iff], ⟨?_, ?_⟩, fun value => ⟨fun hok => ?_, ?_⟩⟩
  · rintro ⟨value, hok⟩
    exact isKeyword_of_parseFrom hok
  · intro hword
    have hmem : text ∈ keywords := by
      rwa [isKeyword, List.contains_iff_mem] at hword
    have hread : Reads grammar (.rule .keyword) text.toList [] _ [] :=
      (ends_nil.reads_words hmem (List.Subset.refl _)).rule
    exact ⟨_, Grammar.parseFrom_eq_ok_of_reads hread
      (Grammar.overflow_eq_none_of_fits (n := 2) (by decide) (by omega))⟩
  · obtain ⟨hproper, hword, hvalue⟩ := isVariable_of_parseFrom hok
    exact ⟨⟨_, (hname _).mpr ⟨hproper, rfl⟩⟩, hword, hvalue⟩
  · rintro ⟨⟨name, hok⟩, hword, rfl⟩
    have hproper := ((hname name).mp hok).1
    exact Grammar.parseFrom_eq_ok_of_reads (ends_nil.reads_identifier hproper hword)
      (Grammar.overflow_eq_none_of_fits (n := 3) (by decide) hlimit)

/-- A name can start with a keyword, and a keyword with another one. -/
theorem parseFrom_names_prefixes :
    (grammar.parseFrom { maxDepth := 3 } .identifier "note").outcome = .ok (.text "note") ∧
      (∃ value, (grammar.parseFrom { maxDepth := 3 } .keyword "instanceof").outcome = .ok value) ∧
      ¬ ∃ value, (grammar.parseFrom { maxDepth := 3 } .identifier "instanceof").outcome =
        .ok value := by
  obtain ⟨hname, -, hvariable⟩ := parseFrom_names { maxDepth := 3 } (by decide) "note"
  obtain ⟨-, hkeyword, hvariable'⟩ := parseFrom_names { maxDepth := 3 } (by decide) "instanceof"
  have hnote := (hname _).mpr ⟨mem_names_iff.mpr (by decide), rfl⟩
  refine ⟨(hvariable _).mpr ⟨⟨_, hnote⟩, by decide, rfl⟩, hkeyword.mpr (by decide), ?_⟩
  rintro ⟨value, hok⟩
  exact absurd ((hvariable' value).mp hok).2.1 (by decide)

end Language

end PegScript

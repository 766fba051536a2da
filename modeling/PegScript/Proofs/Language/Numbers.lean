import PegScript.Proofs.Language.Tokens
import PegScript.Proofs.Semantics.Depth
import PegScript.Proofs.Semantics.Spans

/-!
# The language of numbers

`numbers` is a regular expression for the numbers of the language: digits of a base with single
separators between them, behind the mark of the base, or decimal digits with a fraction and an
exponent.

The rule for numbers is not written that way.  It reads digits and separators in any order behind a
first digit, and its action then looks at the neighbours of each separator.  So there are two steps:
the rule reads the words of `numbersOf looseDigits` (`spans_numberForm`, `reads_numberForm`), and of
these the action accepts the words of `numbers` (`mem_numbers_iff`).
-/

namespace PegScript

namespace Language

open RegularExpression
open scoped Computability

variable {k w : List Char} {digits : String}

/-! ## Regular expressions for numbers -/

/-- One of the characters. -/
def anyOf (chars : String) : RegularExpression Char :=
  (chars.toList.map char).foldr (· + ·) 0

/-- Digits with at most one separator between two of them. -/
def groupedDigits (digits : String) : RegularExpression Char :=
  anyOf digits * star ((1 + char '_') * anyOf digits)

/-- A digit, and then digits and separators in any order. -/
def looseDigits (digits : String) : RegularExpression Char :=
  anyOf digits * star (anyOf (digits ++ "_"))

section

variable (group : String → RegularExpression Char)

/-- Digits behind the mark of their base. -/
def markedOf (mark digits : String) : RegularExpression Char :=
  char '0' * anyOf mark * group digits

/-- Decimal digits behind something that leads them, or nothing. -/
def ledOf (lead : RegularExpression Char) : RegularExpression Char :=
  1 + lead * group "0123456789"

/-- Decimal digits with a fraction and an exponent. -/
def decimalOf : RegularExpression Char :=
  group "0123456789" * ledOf group (char '.') * ledOf group (anyOf "eE" * (1 + anyOf "+-"))

/-- Numbers whose digits are grouped in some way. -/
def numbersOf : RegularExpression Char :=
  markedOf group "xX" "0123456789abcdefABCDEF" + markedOf group "bB" "01" +
    markedOf group "oO" "01234567" + decimalOf group

end

/-- The numbers of the language. -/
def numbers : RegularExpression Char :=
  numbersOf groupedDigits

theorem mem_char_iff {a : Char} : w ∈ (char a).matches' ↔ w = [a] :=
  Iff.rfl

theorem mem_anyOf_iff {chars : String} :
    w ∈ (anyOf chars).matches' ↔ ∃ a ∈ chars.toList, w = [a] := by
  rw [anyOf]
  induction chars.toList with
  | nil => simp
  | cons b chars ih =>
      rw [List.map_cons, List.foldr_cons, matches'_add, Language.mem_add, ih, mem_char_iff]
      simp

/-- The first character of a word of a repetition belongs to the first of the words repeated. -/
theorem cons_mem_star_iff {r : RegularExpression Char} {a : Char} :
    a :: w ∈ (star r).matches' ↔
      ∃ u v, w = u ++ v ∧ a :: u ∈ r.matches' ∧ v ∈ (star r).matches' := by
  simp only [← rmatch_iff_matches']
  rw [rmatch, RegularExpression.deriv, mul_rmatch_iff]
  rfl

theorem mem_star_anyOf_iff {chars : String} :
    w ∈ (star (anyOf chars)).matches' ↔ ∀ a ∈ w, a ∈ chars.toList := by
  induction w with
  | nil => simp [Language.nil_mem_kstar]
  | cons a w ih =>
      rw [cons_mem_star_iff, List.forall_mem_cons, ← ih]
      constructor
      · rintro ⟨u, v, rfl, hu, hv⟩
        obtain ⟨b, hb, heq⟩ := mem_anyOf_iff.mp hu
        obtain ⟨rfl, rfl⟩ := List.cons.inj heq
        exact ⟨hb, hv⟩
      · rintro ⟨ha, hw⟩
        exact ⟨[], w, rfl, mem_anyOf_iff.mpr ⟨a, ha, rfl⟩, hw⟩

theorem mem_looseDigits_iff :
    w ∈ (looseDigits digits).matches' ↔
      ∃ a run, w = a :: run ∧ a ∈ digits.toList ∧ ∀ b ∈ run, b ∈ digits.toList ∨ b = '_' := by
  simp only [looseDigits, matches'_mul, Language.mem_mul, mem_anyOf_iff, mem_star_anyOf_iff]
  constructor
  · rintro ⟨_, ⟨a, ha, rfl⟩, run, hrun, rfl⟩
    exact ⟨a, run, rfl, ha, by simpa using hrun⟩
  · rintro ⟨a, run, rfl, ha, hrun⟩
    exact ⟨[a], ⟨a, ha, rfl⟩, run, by simpa using hrun, rfl⟩

theorem mem_markedOf_iff {group : String → RegularExpression Char} {mark : String} :
    w ∈ (markedOf group mark digits).matches' ↔
      ∃ m ∈ mark.toList, ∃ g ∈ (group digits).matches', w = '0' :: m :: g := by
  simp only [markedOf, matches'_mul, matches'_char, Language.mem_mul, mem_anyOf_iff]
  constructor
  · rintro ⟨_, ⟨_, rfl, _, ⟨m, hm, rfl⟩, rfl⟩, g, hg, rfl⟩
    exact ⟨m, hm, g, hg, rfl⟩
  · rintro ⟨m, hm, g, hg, rfl⟩
    exact ⟨['0', m], ⟨['0'], rfl, [m], ⟨m, hm, rfl⟩, rfl⟩, g, hg, rfl⟩

theorem mem_ledOf_iff {group : String → RegularExpression Char} {lead : RegularExpression Char} :
    w ∈ (ledOf group lead).matches' ↔
      w = [] ∨ ∃ u ∈ lead.matches', ∃ g ∈ (group "0123456789").matches', w = u ++ g := by
  simp only [ledOf, matches'_add, matches'_mul, matches'_epsilon, Language.mem_add,
    Language.mem_one, Language.mem_mul, eq_comm]

/-- The characters that a regular expression is made of. -/
def letters : RegularExpression Char → List Char
  | .zero | .epsilon => []
  | .char a => [a]
  | .plus r s | .comp r s => letters r ++ letters s
  | .star r => letters r

theorem mem_letters_of_mem {r : RegularExpression Char} (hw : w ∈ r.matches') {a : Char}
    (ha : a ∈ w) : a ∈ letters r := by
  induction r generalizing w with
  | zero => cases hw
  | epsilon =>
      obtain rfl := hw
      cases ha
  | char b =>
      obtain rfl := hw
      exact ha
  | plus r s ihr ihs =>
      rcases hw with hw | hw
      · exact List.mem_append_left _ (ihr hw ha)
      · exact List.mem_append_right _ (ihs hw ha)
  | comp r s ihr ihs =>
      obtain ⟨u, hu, v, hv, rfl⟩ := Language.mem_mul.mp hw
      rcases List.mem_append.mp ha with ha | ha
      · exact List.mem_append_left _ (ihr hu ha)
      · exact List.mem_append_right _ (ihs hv ha)
  | star r ih =>
      obtain ⟨words, rfl, hwords⟩ := Language.mem_kstar.mp hw
      obtain ⟨u, hu, ha⟩ := List.mem_flatten.mp ha
      exact ih (hwords u hu) ha

/-! ## Separators -/

section Separators

open Lexical

variable {isDigit : Char → Bool} {before : Option Char}

/-- A word that does not go on with digits or separators can be looked at by itself. -/
theorem separatesDigits_append (hw : ∀ a ∈ w.head?, isDigit a = false ∧ a ≠ '_') (u : List Char) :
    separatesDigits isDigit before (u ++ w) =
      (separatesDigits isDigit before u && separatesDigits isDigit none w) := by
  induction u generalizing before with
  | nil =>
      cases w with
      | nil => rfl
      | cons a w =>
          have hne : (a != '_') = true := bne_iff_ne.mpr (hw a rfl).2
          simp [separatesDigits, hne]
  | cons a u ih =>
      rw [List.cons_append, separatesDigits, separatesDigits, ih, Bool.and_assoc]
      cases u with
      | nil =>
          cases w with
          | nil => rfl
          | cons b w =>
              obtain ⟨hb, -⟩ := hw b rfl
              simp [hb]
      | cons b u => rfl

theorem separatesDigits_cons {a : Char} (ha : isDigit a = false) (hne : a ≠ '_') :
    separatesDigits isDigit before (a :: w) = separatesDigits isDigit none w := by
  cases w with
  | nil => simp [separatesDigits, hne]
  | cons b w => simp [separatesDigits, hne, ha]

theorem cons_mem_star_grouped_iff {a : Char} :
    a :: w ∈ (star ((1 + char '_') * anyOf digits)).matches' ↔
      a ∈ digits.toList ∧ w ∈ (star ((1 + char '_') * anyOf digits)).matches' ∨
        a = '_' ∧ ∃ b ∈ digits.toList, ∃ v ∈ (star ((1 + char '_') * anyOf digits)).matches',
          w = b :: v := by
  have hgroup {u : List Char} : a :: u ∈ ((1 + char '_') * anyOf digits).matches' ↔
      a ∈ digits.toList ∧ u = [] ∨ a = '_' ∧ ∃ b ∈ digits.toList, u = [b] := by
    simp only [matches'_mul, matches'_add, matches'_epsilon, Language.mem_mul, Language.mem_add,
      Language.mem_one, mem_char_iff, mem_anyOf_iff]
    constructor
    · rintro ⟨_, rfl | rfl, _, ⟨b, hb, rfl⟩, heq⟩
      · obtain ⟨rfl, rfl⟩ := List.cons.inj heq
        exact Or.inl ⟨hb, rfl⟩
      · obtain ⟨rfl, rfl⟩ := List.cons.inj heq
        exact Or.inr ⟨rfl, b, hb, rfl⟩
    · rintro (⟨ha, rfl⟩ | ⟨rfl, b, hb, rfl⟩)
      · exact ⟨[], Or.inl rfl, [a], ⟨a, ha, rfl⟩, rfl⟩
      · exact ⟨['_'], Or.inr rfl, [b], ⟨b, hb, rfl⟩, rfl⟩
  rw [cons_mem_star_iff]
  constructor
  · rintro ⟨u, v, rfl, hu, hv⟩
    rcases hgroup.mp hu with ⟨ha, rfl⟩ | ⟨ha, b, hb, rfl⟩
    · exact Or.inl ⟨ha, hv⟩
    · exact Or.inr ⟨ha, b, hb, v, hv, rfl⟩
  · rintro (⟨ha, hw⟩ | ⟨ha, b, hb, v, hv, rfl⟩)
    · exact ⟨[], w, rfl, hgroup.mpr (Or.inl ⟨ha, rfl⟩), hw⟩
    · exact ⟨[b], v, rfl, hgroup.mpr (Or.inr ⟨ha, b, hb, rfl⟩), hv⟩

/-- Behind a digit, single separators between digits are separators that each stand between two
digits.  The induction is on the length since a separator is taken with the digit behind it. -/
theorem mem_star_grouped_iff (hdigits : ∀ a ∈ digits.toList, isDigit a = true)
    (hmark : isDigit '_' = false) {a : Char} (ha : isDigit a = true) :
    w ∈ (star ((1 + char '_') * anyOf digits)).matches' ↔
      (∀ b ∈ w, b ∈ digits.toList ∨ b = '_') ∧ separatesDigits isDigit (some a) w = true := by
  have hne {b : Char} (hb : b ∈ digits.toList) : b ≠ '_' := by
    rintro rfl
    rw [hdigits _ hb] at hmark
    cases hmark
  have hdigit {b : Char} (hb : b ∈ digits.toList ∨ b = '_') (hb' : isDigit b = true) :
      b ∈ digits.toList := by
    refine hb.resolve_right ?_
    rintro rfl
    rw [hb'] at hmark
    cases hmark
  induction hlength : w.length using Nat.strong_induction_on generalizing w a with
  | h n ih =>
    cases w with
    | nil => simp [Language.nil_mem_kstar, separatesDigits]
    | cons b w =>
      rw [cons_mem_star_grouped_iff, separatesDigits]
      constructor
      · rintro (⟨hb, hw⟩ | ⟨rfl, c, hc, v, hv, rfl⟩)
        · obtain ⟨hall, hsep⟩ := (ih _ (by grind) (hdigits b hb) rfl).mp hw
          have hbne := hne hb
          exact ⟨List.forall_mem_cons.mpr ⟨Or.inl hb, hall⟩, by simp [hbne, hsep]⟩
        · obtain ⟨hall, hsep⟩ := (ih _ (by grind) (hdigits c hc) rfl).mp hv
          have hcne := hne hc
          refine ⟨?_, by simp [separatesDigits, ha, hdigits c hc, hcne, hsep]⟩
          exact List.forall_mem_cons.mpr ⟨Or.inr rfl, List.forall_mem_cons.mpr ⟨Or.inl hc, hall⟩⟩
      · rintro ⟨hall, hsep⟩
        obtain ⟨hb, hrest⟩ := List.forall_mem_cons.mp hall
        rw [Bool.and_eq_true] at hsep
        rcases hb with hb | rfl
        · exact Or.inl ⟨hb, (ih _ (by grind) (hdigits b hb) rfl).mpr ⟨hrest, hsep.2⟩⟩
        · refine Or.inr ⟨rfl, ?_⟩
          cases w with
          | nil => simp at hsep
          | cons c w =>
              obtain ⟨hc, hlater⟩ := List.forall_mem_cons.mp hrest
              simp only [bne_self_eq_false, Bool.false_or, List.head?_cons, Option.any_some,
                Bool.and_eq_true, separatesDigits] at hsep
              obtain ⟨⟨-, hc'⟩, -, hsep⟩ := hsep
              exact ⟨c, hdigit hc hc', w,
                (ih _ (by grind) hc' rfl).mpr ⟨hlater, hsep⟩, rfl⟩

theorem mem_groupedDigits_iff (hdigits : ∀ a ∈ digits.toList, isDigit a = true)
    (hmark : isDigit '_' = false) :
    w ∈ (groupedDigits digits).matches' ↔
      w ∈ (looseDigits digits).matches' ∧ separatesDigits isDigit none w = true := by
  rw [mem_looseDigits_iff, groupedDigits, matches'_mul, Language.mem_mul]
  have hstart {a : Char} (ha : a ∈ digits.toList) {run : List Char} :
      separatesDigits isDigit none (a :: run) = separatesDigits isDigit (some a) run := by
    have hne : (a != '_') = true := by
      rw [bne_iff_ne]
      rintro rfl
      rw [hdigits _ ha] at hmark
      cases hmark
    simp [separatesDigits, hne]
  constructor
  · rintro ⟨u, hu, run, hrun, rfl⟩
    obtain ⟨a, ha, rfl⟩ := mem_anyOf_iff.mp hu
    obtain ⟨hall, hsep⟩ := (mem_star_grouped_iff hdigits hmark (hdigits a ha)).mp hrun
    exact ⟨⟨a, run, rfl, ha, hall⟩, (hstart ha).trans hsep⟩
  · rintro ⟨⟨a, run, rfl, ha, hall⟩, hsep⟩
    rw [hstart ha] at hsep
    exact ⟨[a], mem_anyOf_iff.mpr ⟨a, ha, rfl⟩, run,
      (mem_star_grouped_iff hdigits hmark (hdigits a ha)).mpr ⟨hall, hsep⟩, rfl⟩

/-- Where separators stand well in the digits of a number, they do in the number. -/
theorem mem_markedOf_grouped_iff {mark : String}
    (hmark : ∀ m ∈ mark.toList, ['x', 'b', 'o'].contains m.toLower = true)
    (hdigits : ∀ a ∈ digits.toList, isHexDigit a = true) {text : String} :
    text.toList ∈ (markedOf groupedDigits mark digits).matches' ↔
      text.toList ∈ (markedOf looseDigits mark digits).matches' ∧
        hasGoodSeparators text = true := by
  have hgood {m : Char} {g : List Char} (hm : m ∈ mark.toList)
      (htext : text.toList = '0' :: m :: g) :
      hasGoodSeparators text = separatesDigits isHexDigit none g := by
    rw [hasGoodSeparators, htext]
    exact if_pos (hmark m hm)
  rw [mem_markedOf_iff, mem_markedOf_iff]
  constructor
  · rintro ⟨m, hm, g, hg, htext⟩
    obtain ⟨hloose, hsep⟩ := (mem_groupedDigits_iff hdigits (by decide)).mp hg
    exact ⟨⟨m, hm, g, hloose, htext⟩, (hgood hm htext).trans hsep⟩
  · rintro ⟨⟨m, hm, g, hloose, htext⟩, hsep⟩
    rw [hgood hm htext] at hsep
    exact ⟨m, hm, g, (mem_groupedDigits_iff hdigits (by decide)).mpr ⟨hloose, hsep⟩, htext⟩

theorem isDigit_of_mem_decimals : ∀ a ∈ "0123456789".toList, a.isDigit = true := by
  decide

theorem separatesDigits_lead {u : List Char} (hu : ∀ a ∈ u, isDigit a = false ∧ a ≠ '_') :
    separatesDigits isDigit none (u ++ w) = separatesDigits isDigit none w := by
  induction u with
  | nil => rfl
  | cons a u ih =>
      obtain ⟨ha, hu⟩ := List.forall_mem_cons.mp hu
      rw [List.cons_append, separatesDigits_cons ha.1 ha.2, ih hu]

theorem mem_ledOf_grouped_iff {lead : RegularExpression Char}
    (hlead : ∀ a ∈ letters lead, a.isDigit = false ∧ a ≠ '_') :
    w ∈ (ledOf groupedDigits lead).matches' ↔
      w ∈ (ledOf looseDigits lead).matches' ∧ separatesDigits Char.isDigit none w = true := by
  have hsep {u g : List Char} (hu : u ∈ lead.matches') :
      separatesDigits Char.isDigit none (u ++ g) = separatesDigits Char.isDigit none g :=
    separatesDigits_lead fun a ha => hlead a (mem_letters_of_mem hu ha)
  rw [mem_ledOf_iff, mem_ledOf_iff]
  constructor
  · rintro (rfl | ⟨u, hu, g, hg, rfl⟩)
    · exact ⟨Or.inl rfl, rfl⟩
    · obtain ⟨hloose, hgood⟩ := (mem_groupedDigits_iff isDigit_of_mem_decimals (by decide)).mp hg
      exact ⟨Or.inr ⟨u, hu, g, hloose, rfl⟩, (hsep hu).trans hgood⟩
  · rintro ⟨rfl | ⟨u, hu, g, hloose, rfl⟩, hgood⟩
    · exact Or.inl rfl
    · rw [hsep hu] at hgood
      have hg := (mem_groupedDigits_iff isDigit_of_mem_decimals (by decide)).mpr ⟨hloose, hgood⟩
      exact Or.inr ⟨u, hu, g, hg, rfl⟩

theorem head_mem_letters {group : String → RegularExpression Char}
    {lead : RegularExpression Char} (hne : [] ∉ lead.matches')
    (hw : w ∈ (ledOf group lead).matches') : ∀ a ∈ w.head?, a ∈ letters lead := by
  rcases mem_ledOf_iff.mp hw with rfl | ⟨u, hu, g, hg, rfl⟩
  · exact nofun
  · cases u with
    | nil => exact absurd hu hne
    | cons b u =>
        rintro a ⟨⟩
        exact mem_letters_of_mem hu List.mem_cons_self

theorem point_isLead : ∀ a ∈ letters (char '.'), a.isDigit = false ∧ a ≠ '_' := by
  decide

theorem exponent_isLead :
    ∀ a ∈ letters (anyOf "eE" * (1 + anyOf "+-")), a.isDigit = false ∧ a ≠ '_' := by
  decide

/-- The digits before a fraction end where it starts. -/
theorem not_digit_of_fraction {group : String → RegularExpression Char}
    (hw : w ∈ (ledOf group (char '.')).matches') :
    ∀ a ∈ w.head?, a.isDigit = false ∧ a ≠ '_' :=
  fun a ha => point_isLead a (head_mem_letters (by decide) hw a ha)

/-- The digits before an exponent end where it starts. -/
theorem not_digit_of_exponent {group : String → RegularExpression Char}
    (hw : w ∈ (ledOf group (anyOf "eE" * (1 + anyOf "+-"))).matches') :
    ∀ a ∈ w.head?, a.isDigit = false ∧ a ≠ '_' :=
  fun a ha => exponent_isLead a (head_mem_letters (by decide) hw a ha)

theorem mem_decimalOf_grouped_iff :
    w ∈ (decimalOf groupedDigits).matches' ↔
      w ∈ (decimalOf looseDigits).matches' ∧ separatesDigits Char.isDigit none w = true := by
  simp only [decimalOf, matches'_mul, Language.mem_mul]
  have hsep {group : String → RegularExpression Char} {g f e : List Char}
      (hf : f ∈ (ledOf group (char '.')).matches')
      (he : e ∈ (ledOf group (anyOf "eE" * (1 + anyOf "+-"))).matches') :
      separatesDigits Char.isDigit none (g ++ f ++ e) = true ↔
        separatesDigits Char.isDigit none g = true ∧ separatesDigits Char.isDigit none f = true ∧
          separatesDigits Char.isDigit none e = true := by
    rw [separatesDigits_append (not_digit_of_exponent he),
      separatesDigits_append (not_digit_of_fraction hf), Bool.and_eq_true, Bool.and_eq_true,
      and_assoc]
  constructor
  · rintro ⟨_, ⟨g, hg, f, hf, rfl⟩, e, he, rfl⟩
    obtain ⟨hg, hgood⟩ := (mem_groupedDigits_iff isDigit_of_mem_decimals (by decide)).mp hg
    obtain ⟨hf, hfgood⟩ := (mem_ledOf_grouped_iff point_isLead).mp hf
    obtain ⟨he, hegood⟩ := (mem_ledOf_grouped_iff exponent_isLead).mp he
    exact ⟨⟨_, ⟨g, hg, f, hf, rfl⟩, e, he, rfl⟩, (hsep hf he).mpr ⟨hgood, hfgood, hegood⟩⟩
  · rintro ⟨⟨_, ⟨g, hg, f, hf, rfl⟩, e, he, rfl⟩, hall⟩
    obtain ⟨hgood, hfgood, hegood⟩ := (hsep hf he).mp hall
    exact ⟨_,
      ⟨g, (mem_groupedDigits_iff isDigit_of_mem_decimals (by decide)).mpr ⟨hg, hgood⟩,
        f, (mem_ledOf_grouped_iff point_isLead).mpr ⟨hf, hfgood⟩, rfl⟩,
      e, (mem_ledOf_grouped_iff exponent_isLead).mpr ⟨he, hegood⟩, rfl⟩

/-- No decimal number has the mark of another base. -/
theorem toLower_of_mem_decimalOf {a : Char} (hw : w ∈ (decimalOf looseDigits).matches')
    (ha : a ∈ w) : ['x', 'b', 'o'].contains a.toLower = false := by
  have hletters : ∀ a ∈ letters (decimalOf looseDigits),
      ['x', 'b', 'o'].contains a.toLower = false := by
    decide
  exact hletters a (mem_letters_of_mem hw ha)

theorem hasGoodSeparators_of_mem_decimalOf {text : String}
    (h : text.toList ∈ (decimalOf looseDigits).matches') :
    hasGoodSeparators text = separatesDigits Char.isDigit none text.toList := by
  unfold hasGoodSeparators
  split
  case h_1 mark digits htext =>
    have hmark := toLower_of_mem_decimalOf h (a := mark) (by simp [htext])
    rw [htext, hmark]
    rfl
  case h_2 => rfl

/-- Of the numbers with separators anywhere behind a digit, those with good separators are the
numbers of the language. -/
theorem mem_numbers_iff {text : String} :
    text.toList ∈ numbers.matches' ↔
      text.toList ∈ (numbersOf looseDigits).matches' ∧ hasGoodSeparators text = true := by
  simp only [numbers, numbersOf, matches'_add, Language.mem_add, or_and_right]
  have hdecimal : text.toList ∈ (decimalOf groupedDigits).matches' ↔
      text.toList ∈ (decimalOf looseDigits).matches' ∧ hasGoodSeparators text = true := by
    rw [mem_decimalOf_grouped_iff]
    refine and_congr_right fun h => ?_
    rw [hasGoodSeparators_of_mem_decimalOf h]
  rw [mem_markedOf_grouped_iff (by decide) (by decide),
    mem_markedOf_grouped_iff (by decide) (by decide),
    mem_markedOf_grouped_iff (by decide) (by decide), hdecimal]

end Separators

/-! ## What the rule for numbers reads -/

/-- The classes of characters in numbers, with their members. -/
def numberClasses : List (List (Char × Char) × String) := [
  ([('0', '9'), ('a', 'f'), ('A', 'F')], "0123456789abcdefABCDEF"),
  ([('0', '9'), ('a', 'f'), ('A', 'F'), ('_', '_')], "0123456789abcdefABCDEF_"),
  ([('0', '1')], "01"),
  ([('0', '1'), ('_', '_')], "01_"),
  ([('0', '7')], "01234567"),
  ([('0', '7'), ('_', '_')], "01234567_"),
  ([('0', '9')], "0123456789"),
  ([('0', '9'), ('_', '_')], "0123456789_"),
  ([('e', 'e'), ('E', 'E')], "eE"),
  ([('+', '+'), ('-', '-')], "+-")]

theorem contains_numberClass {ranges : List (Char × Char)} (chars : String)
    (h : (ranges, chars) ∈ numberClasses) (a : Char) :
    (CharClass.ofRanges ranges false).contains a = chars.toList.contains a := by
  have hall : ∀ c ∈ numberClasses,
      c.1.all (fun r => decide ((orderedRange r).2.toNat < 128)) = true ∧
      (∀ i : Fin 128, coversCode c.1 i = true → Char.ofNat i ∈ c.2.toList) ∧
      ∀ a ∈ c.2.toList, a.toNat < 128 ∧ coversCode c.1 a.toNat = true := by
    decide +kernel
  obtain ⟨hranges, hmem, hcovers⟩ := hall _ h
  refine CharClass.contains_eq_of_ascii hranges ?_ ?_ a
  · intro i
    rw [Bool.eq_iff_iff, List.contains_iff_mem]
    refine ⟨hmem i, fun hi => ?_⟩
    have hcode : ∀ i : Fin 128, (Char.ofNat i).toNat = i := by decide
    have hcover := (hcovers _ hi).2
    rw [hcode] at hcover
    exact hcover
  · intro b hb
    exact (hcovers b (List.contains_iff_mem.mp hb)).1

theorem spans_numberClass {ranges : List (Char × Char)} {chars : String}
    (h : (ranges, chars) ∈ numberClasses) :
    Spans grammar (.oneOf ranges) (anyOf chars).matches' := by
  refine (spans_charIn _).mono ?_
  rintro w ⟨a, ha, rfl⟩
  rw [contains_numberClass _ h, List.contains_iff_mem] at ha
  exact mem_anyOf_iff.mpr ⟨a, ha, rfl⟩

/-- Digits of a class, and digits and separators behind them. -/
structure IsDigitClass (ranges : List (Char × Char)) (digits : String) : Prop where
  digit : (ranges, digits) ∈ numberClasses
  more : (ranges ++ [('_', '_')], digits ++ "_") ∈ numberClasses

theorem IsDigitClass.spans {ranges : List (Char × Char)} (h : IsDigitClass ranges digits) :
    Spans grammar (.seq [.oneOf ranges, .star (.oneOf (ranges ++ [('_', '_')]))])
      (looseDigits digits).matches' :=
  (spans_numberClass h.digit).seq_cons (spans_numberClass h.more).star.seq_last

theorem toNat_lt_of_toLower {b : Char} (h : b.toLower.toNat < 128) : b.toNat < 128 := by
  delta Char.toLower at h
  split at h
  case isTrue hupper => exact lt_of_le_of_lt (UInt32.le_iff_toNat_le.mp hupper.2) (by decide)
  case isFalse => exact h

/-- The characters that have a given lower case. -/
theorem toLower_eq_iff {a b : Char} {chars : List Char} (ha : a.toNat < 128)
    (hchars : ∀ c ∈ chars, c.toLower = a)
    (hascii : ∀ i : Fin 128, (Char.ofNat i).toLower = a → Char.ofNat i ∈ chars) :
    b.toLower = a ↔ b ∈ chars := by
  refine ⟨fun h => ?_, hchars b⟩
  have hsmall : b.toNat < 128 := toNat_lt_of_toLower (h ▸ ha)
  have hb := hascii ⟨b.toNat, hsmall⟩
  rw [Char.ofNat_toNat] at hb
  exact hb h

/-- A zero and one of the characters that mark a base, which have the same lower case. -/
structure IsBaseMark (mark marks : String) (a : Char) : Prop where
  text : mark.toList.map Char.toLower = ['0', a]
  small : a.toNat < 128
  toLower : ∀ c ∈ marks.toList, c.toLower = a
  ascii : ∀ i : Fin 128, (Char.ofNat i).toLower = a → Char.ofNat i ∈ marks.toList

theorem isBaseMark_hex : IsBaseMark "0x" "xX" 'x' :=
  ⟨by decide, by decide, by decide, by decide⟩

theorem isBaseMark_binary : IsBaseMark "0b" "bB" 'b' :=
  ⟨by decide, by decide, by decide, by decide⟩

theorem isBaseMark_octal : IsBaseMark "0o" "oO" 'o' :=
  ⟨by decide, by decide, by decide, by decide⟩

theorem IsBaseMark.mem_words_iff {mark marks : String} {a : Char} (h : IsBaseMark mark marks a) :
    w ∈ wordsAnyCase mark ↔ ∃ m ∈ marks.toList, w = ['0', m] := by
  have hzero {b : Char} : b.toLower = '0' ↔ b ∈ ['0'] :=
    toLower_eq_iff (by decide) (by decide) (by decide)
  have hsecond {b : Char} : b.toLower = a ↔ b ∈ marks.toList :=
    toLower_eq_iff h.small h.toLower h.ascii
  change w.map Char.toLower = mark.toList.map Char.toLower ↔ _
  rw [h.text]
  constructor
  · intro hw
    obtain ⟨b, c, rfl⟩ : ∃ b c, w = [b, c] := by
      have hlength := congrArg List.length hw
      rw [List.length_map] at hlength
      exact List.length_eq_two.mp hlength
    simp only [List.map_cons, List.map_nil, List.cons.injEq, and_true] at hw
    rw [hzero, List.mem_singleton, hsecond] at hw
    exact ⟨c, hw.2, by rw [hw.1]⟩
  · rintro ⟨m, hm, rfl⟩
    simp only [List.map_cons, List.map_nil, List.cons.injEq, and_true]
    exact ⟨by decide, hsecond.mpr hm⟩

section Rule

variable {ranges : List (Char × Char)} {mark marks : String} {a : Char}

theorem IsDigitClass.spans_markedNumber (h : IsDigitClass ranges digits)
    (hmark : IsBaseMark mark marks a) :
    Spans grammar (Lexical.markedNumber mark ranges)
      (markedOf looseDigits marks digits).matches' := by
  refine ((spans_litAnyCase mark).seq_cons h.spans).mono ?_
  rintro w ⟨u, hu, g, hg, rfl⟩
  obtain ⟨m, hm, rfl⟩ := hmark.mem_words_iff.mp hu
  exact mem_markedOf_iff.mpr ⟨m, hm, g, hg, rfl⟩

theorem isDigitClass_hex :
    IsDigitClass [('0', '9'), ('a', 'f'), ('A', 'F')] "0123456789abcdefABCDEF" :=
  ⟨by decide, by decide⟩

theorem isDigitClass_binary : IsDigitClass [('0', '1')] "01" :=
  ⟨by decide, by decide⟩

theorem isDigitClass_octal : IsDigitClass [('0', '7')] "01234567" :=
  ⟨by decide, by decide⟩

theorem isDigitClass_decimal : IsDigitClass [('0', '9')] "0123456789" :=
  ⟨by decide, by decide⟩

theorem spans_decimalNumber :
    Spans grammar Lexical.decimalNumber (decimalOf looseDigits).matches' := by
  have hdigit := spans_numberClass isDigitClass_decimal.digit
  have hmore := (spans_numberClass isDigitClass_decimal.more).star
  have hfraction := ((spans_lit ".").seq_cons isDigitClass_decimal.spans).opt
  have hsign : Spans grammar (.opt (.oneOf [('+', '+'), ('-', '-')])) (1 + anyOf "+-").matches' :=
    (spans_numberClass (by decide)).opt
  have hmark : Spans grammar (.oneOf [('e', 'e'), ('E', 'E')]) (anyOf "eE").matches' :=
    spans_numberClass (by decide)
  have hexponent := (hmark.seq_cons (hsign.seq_cons isDigitClass_decimal.spans)).opt
  refine (hdigit.seq_cons (hmore.seq_cons (hfraction.seq_cons hexponent.seq_last))).mono ?_
  simp only [decimalOf, ledOf, looseDigits, matches'_add, matches'_mul, matches'_epsilon,
    matches'_star, mul_assoc]
  exact fun w hw => hw

theorem spans_numberForm : Spans grammar numberForm (numbersOf looseDigits).matches' := by
  have hhex : Spans grammar (.rule .hexNumber)
      (markedOf looseDigits "xX" "0123456789abcdefABCDEF").matches' :=
    (isDigitClass_hex.spans_markedNumber isBaseMark_hex).rule
  have hbinary : Spans grammar (.rule .binaryNumber) (markedOf looseDigits "bB" "01").matches' :=
    (isDigitClass_binary.spans_markedNumber isBaseMark_binary).rule
  have hoctal : Spans grammar (.rule .octalNumber)
      (markedOf looseDigits "oO" "01234567").matches' :=
    (isDigitClass_octal.spans_markedNumber isBaseMark_octal).rule
  have hdecimal : Spans grammar (.rule .decimalNumber) (decimalOf looseDigits).matches' :=
    spans_decimalNumber.rule
  have hchoice := hhex.choice_cons (hbinary.choice_cons (hoctal.choice_cons hdecimal.choice_last))
  refine (hchoice.seq_cons (spans_not (.rule .identStart)).seq_last).mono ?_
  simp only [numbersOf, matches'_add, add_assoc, mul_one]
  exact fun w hw => hw

/-! ## Which numbers are read -/

/-- Digits are read up to where they end. -/
theorem IsDigitClass.reads_seq (h : IsDigitClass ranges digits) {g : List Char} {ts : List Body}
    {vs : List (Value Piece)} (hg : g ∈ (looseDigits digits).matches')
    (hend : ∀ a ∈ (w ++ k).head?, a ∉ digits.toList ∧ a ≠ '_')
    (hrest : Reads grammar (.seq ts) w k (.list vs) []) :
    ∃ vs, Reads grammar
      (.seq (.oneOf ranges :: .star (.oneOf (ranges ++ [('_', '_')])) :: ts)) (g ++ w) k
      (.list vs) [] := by
  obtain ⟨a, run, rfl, ha, hrun⟩ := mem_looseDigits_iff.mp hg
  have hfirst : Reads grammar (.oneOf ranges) [a] ((run ++ w) ++ k)
      (.text (String.singleton a)) [] := by
    refine reads_charIn ?_
    rw [contains_numberClass _ h.digit, List.contains_iff_mem]
    exact ha
  have hmore : Reads grammar (.star (.oneOf (ranges ++ [('_', '_')]))) run (w ++ k)
      (.list (run.map fun a => .text (String.singleton a))) [] := by
    refine reads_star_charIn ?_ ?_
    · intro b hb
      rw [contains_numberClass _ h.more, List.contains_iff_mem]
      simpa using hrun b hb
    · intro b hb
      rw [contains_numberClass _ h.more]
      simpa using hend b hb
  exact ⟨_, hfirst.seq_cons (hmore.seq_cons hrest)⟩

theorem IsDigitClass.reads_markedNumber (h : IsDigitClass ranges digits)
    (hmark : IsBaseMark mark marks a)
    (hw : w ∈ (markedOf looseDigits marks digits).matches') :
    ∃ v, Reads grammar (Lexical.markedNumber mark ranges) w [] v [] := by
  obtain ⟨m, hm, g, hg, rfl⟩ := mem_markedOf_iff.mp hw
  obtain ⟨vs, hdigits⟩ := h.reads_seq hg (w := []) (k := []) nofun reads_seq_nil
  have hlead : Reads grammar (.litAnyCase mark) ['0', m] ((g ++ []) ++ []) _ [] :=
    reads_litAnyCase (hmark.mem_words_iff.mpr ⟨m, hm, rfl⟩)
  have hread := hlead.seq_cons hdigits
  rw [List.append_nil] at hread
  exact ⟨_, hread⟩

theorem IsDigitClass.refuses_markedNumber (h : IsDigitClass ranges digits)
    (hmark : IsBaseMark mark marks a) (hw : ∀ m ∈ w.tail.head?, m ∉ marks.toList) :
    Refuses grammar (Lexical.markedNumber mark ranges) w := by
  refine refuses_of_not_reads fun o m hread => ?_
  obtain ⟨u, hu, hrest⟩ := h.spans_markedNumber hmark _ _ hread
  obtain ⟨a, ha, g, -, rfl⟩ := mem_markedOf_iff.mp hu
  dsimp only at hrest
  exact hw a (by rw [hrest]; rfl) ha

theorem reads_decimalDigits {g : List Char} {ts : List Body} {vs : List (Value Piece)}
    (hg : g ∈ (looseDigits "0123456789").matches')
    (hend : ∀ a ∈ (w ++ k).head?, a.isDigit = false ∧ a ≠ '_')
    (hrest : Reads grammar (.seq ts) w k (.list vs) []) :
    ∃ vs, Reads grammar (.seq (Lexical.digit :: Lexical.moreDigits :: ts)) (g ++ w) k
      (.list vs) [] := by
  refine isDigitClass_decimal.reads_seq hg ?_ hrest
  intro a ha
  obtain ⟨hdigit, hne⟩ := hend a ha
  refine ⟨fun hmem => ?_, hne⟩
  rw [isDigit_of_mem_decimals a hmem] at hdigit
  cases hdigit

theorem reads_fraction {f : List Char} (hf : f ∈ (ledOf looseDigits (char '.')).matches')
    (hend : ∀ a ∈ k.head?, a.isDigit = false ∧ a ≠ '_') (hpoint : k.head? ≠ some '.') :
    ∃ v, Reads grammar (.opt (.seq [.lit ".", Lexical.digit, Lexical.moreDigits])) f k v [] := by
  rcases mem_ledOf_iff.mp hf with rfl | ⟨_, rfl, g, hg, rfl⟩
  · refine ⟨_, (refuses_lit ?_).seq_head.opt⟩
    rintro ⟨rest, rfl⟩
    exact hpoint rfl
  · obtain ⟨vs, hdigits⟩ := reads_decimalDigits hg (w := []) hend reads_seq_nil
    have hread := ((reads_lit ".").seq_cons hdigits).opt
    rw [List.append_nil] at hread
    exact ⟨_, hread⟩

theorem reads_exponent {e : List Char}
    (he : e ∈ (ledOf looseDigits (anyOf "eE" * (1 + anyOf "+-"))).matches') :
    ∃ v, Reads grammar (.opt (.seq [
      .oneOf [('e', 'e'), ('E', 'E')], .opt (.oneOf [('+', '+'), ('-', '-')]),
      Lexical.digit, Lexical.moreDigits])) e [] v [] := by
  rcases mem_ledOf_iff.mp he with rfl | ⟨_, ⟨u, hu, sign, hsign, rfl⟩, g, hg, rfl⟩
  · exact ⟨_, (refuses_charIn (by simp)).seq_head.opt⟩
  · obtain ⟨m, hm, rfl⟩ := mem_anyOf_iff.mp hu
    obtain ⟨vs, hdigits⟩ := reads_decimalDigits hg (w := []) (k := []) (by simp) reads_seq_nil
    have hmark : Reads grammar (.oneOf [('e', 'e'), ('E', 'E')]) [m] ((sign ++ (g ++ [])) ++ [])
        (.text (String.singleton m)) [] := by
      refine reads_charIn ?_
      rw [contains_numberClass "eE" (by decide), List.contains_iff_mem]
      exact hm
    have hsigned : ∃ v, Reads grammar (.opt (.oneOf [('+', '+'), ('-', '-')])) sign
        ((g ++ []) ++ []) v [] := by
      rcases hsign with rfl | hsign
      · obtain ⟨a, run, rfl, ha, -⟩ := mem_looseDigits_iff.mp hg
        have hdisjoint : ∀ a ∈ "0123456789".toList, "+-".toList.contains a = false := by decide
        refine ⟨_, (refuses_charIn ?_).opt⟩
        rintro b ⟨⟩
        rw [contains_numberClass "+-" (by decide)]
        exact hdisjoint a ha
      · obtain ⟨a, ha, rfl⟩ := mem_anyOf_iff.mp hsign
        refine ⟨_, (reads_charIn ?_).opt⟩
        rw [contains_numberClass "+-" (by decide), List.contains_iff_mem]
        exact ha
    obtain ⟨v, hsigned⟩ := hsigned
    have hread := (hmark.seq_cons (hsigned.seq_cons hdigits)).opt
    rw [List.append_nil] at hread
    exact ⟨_, hread⟩

theorem reads_decimalNumber (hw : w ∈ (decimalOf looseDigits).matches') :
    ∃ v, Reads grammar Lexical.decimalNumber w [] v [] := by
  obtain ⟨_, ⟨g, hg, f, hf, rfl⟩, e, he, rfl⟩ := hw
  obtain ⟨v', hexponent⟩ := reads_exponent he
  have hpoint : e.head? ≠ some '.' := by
    intro hhead
    have hmem := head_mem_letters (by decide) he '.' hhead
    revert hmem
    decide
  obtain ⟨v, hfraction⟩ := reads_fraction hf (not_digit_of_exponent he) hpoint
  rw [← List.append_nil e] at hfraction
  have hrest := hfraction.seq_cons hexponent.seq_last
  have hend : ∀ a ∈ ((f ++ e) ++ []).head?, a.isDigit = false ∧ a ≠ '_' := by
    rw [List.append_nil]
    cases f with
    | nil => exact not_digit_of_exponent he
    | cons a f =>
        have hhead := not_digit_of_fraction hf
        exact hhead
  obtain ⟨vs, hread⟩ := reads_decimalDigits hg hend hrest
  rw [← List.append_assoc] at hread
  exact ⟨_, hread⟩

/-- What has the form of a number is read as one.  The character behind the zero tells the earlier
alternatives that they are not meant. -/
theorem reads_numberForm (hw : w ∈ (numbersOf looseDigits).matches') :
    ∃ v, Reads grammar numberForm w [] v [] := by
  have hhex (hsecond : ∀ m ∈ (w ++ []).tail.head?, m ∉ "xX".toList) :
      Refuses grammar (.rule .hexNumber) (w ++ []) :=
    (isDigitClass_hex.refuses_markedNumber isBaseMark_hex hsecond).rule
  have hbinary (hsecond : ∀ m ∈ (w ++ []).tail.head?, m ∉ "bB".toList) :
      Refuses grammar (.rule .binaryNumber) (w ++ []) :=
    (isDigitClass_binary.refuses_markedNumber isBaseMark_binary hsecond).rule
  have hoctal (hsecond : ∀ m ∈ (w ++ []).tail.head?, m ∉ "oO".toList) :
      Refuses grammar (.rule .octalNumber) (w ++ []) :=
    (isDigitClass_octal.refuses_markedNumber isBaseMark_octal hsecond).rule
  have hsecond {marks other digits : String}
      (hmarked : w ∈ (markedOf looseDigits marks digits).matches')
      (hother : ∀ m ∈ marks.toList, m ∉ other.toList) :
      ∀ m ∈ (w ++ []).tail.head?, m ∉ other.toList := by
    obtain ⟨m, hm, g, -, rfl⟩ := mem_markedOf_iff.mp hmarked
    rintro _ ⟨⟩
    exact hother m hm
  have hchoice : ∃ v, Reads grammar (.choice [.rule .hexNumber, .rule .binaryNumber,
      .rule .octalNumber, .rule .decimalNumber]) w [] v [] := by
    rcases hw with ((hw | hw) | hw) | hw
    · obtain ⟨v, hread⟩ := isDigitClass_hex.reads_markedNumber isBaseMark_hex hw
      exact ⟨v, Reads.choice_here (Reads.rule hread)⟩
    · obtain ⟨v, hread⟩ := isDigitClass_binary.reads_markedNumber isBaseMark_binary hw
      exact ⟨v, Reads.choice_later (hhex (hsecond hw (by decide)))
        (Reads.choice_here (Reads.rule hread))⟩
    · obtain ⟨v, hread⟩ := isDigitClass_octal.reads_markedNumber isBaseMark_octal hw
      exact ⟨v, Reads.choice_later (hhex (hsecond hw (by decide)))
        (Reads.choice_later (hbinary (hsecond hw (by decide)))
          (Reads.choice_here (Reads.rule hread)))⟩
    · have hother {other : String}
          (hother : ∀ m ∈ other.toList, ['x', 'b', 'o'].contains m.toLower = true) :
          ∀ m ∈ (w ++ []).tail.head?, m ∉ other.toList := by
        intro m hm hmem
        rw [List.append_nil] at hm
        have hlower := toLower_of_mem_decimalOf hw
          (List.mem_of_mem_tail (List.mem_of_mem_head? hm))
        rw [hother m hmem] at hlower
        cases hlower
      obtain ⟨v, hread⟩ := reads_decimalNumber hw
      exact ⟨v, Reads.choice_later (hhex (hother (by decide)))
        (Reads.choice_later (hbinary (hother (by decide)))
          (Reads.choice_later (hoctal (hother (by decide)))
            (Reads.choice_here (Reads.rule hread))))⟩
  obtain ⟨v, hread⟩ := hchoice
  have hend : Reads grammar (.not (.rule .identStart)) [] [] .empty [] :=
    (refuses_charIn (by simp)).rule.not
  have hform := hread.seq_cons hend.seq_last
  rw [List.append_nil] at hform
  exact ⟨_, hform⟩

end Rule

theorem mem_numbers_of_isNumber {text : String} (h : IsNumber text) :
    text.toList ∈ numbers.matches' := by
  obtain ⟨hgood, m, hform, hstop⟩ := h.derives
  obtain ⟨w, hw, hrest⟩ := spans_numberForm _ _ hform
  have hall : text.toList = w := by
    rw [hstop, List.append_nil] at hrest
    exact hrest
  exact mem_numbers_iff.mpr ⟨hall ▸ hw, hgood⟩

theorem reads_number_of_mem_numbers {text : String} (h : text.toList ∈ numbers.matches') :
    Reads grammar (.rule .number) text.toList [] (.ofNode (Expr.number text)) [] := by
  obtain ⟨hloose, hgood⟩ := mem_numbers_iff.mp h
  obtain ⟨v, hform⟩ := reads_numberForm hloose
  refine (hform.action ?_).rule
  intro c d hmatched
  rw [String.ofList_toList] at hmatched
  rw [buildNumber_apply]
  simp [hmatched, hgood]

/-! ## The rule for numbers -/

/-- The rule for numbers refers to other rules, whatever the text. -/
theorem two_le_maxDepth {settings : Settings} {text : String}
    (h : (grammar.parseFrom settings .number text).session.overflow = none) :
    2 ≤ settings.maxDepth := by
  rw [Grammar.overflow_eq_none_iff] at h
  by_contra hlow
  obtain hzero | hone : settings.maxDepth = 0 ∨ settings.maxDepth = 1 := by omega
  · exact h _ .refl ⟨hzero, .number, rfl⟩
  · have hnew : ({} : Session Symbol Piece).memoized? settings.memoize .number 0 = none := by
      simp [Session.memoized?]
    have hreached : ∃ s, grammar.Reached settings text
        (Grammar.startEvaluation settings .number text)
        ⟨0, .rule .hexNumber, Cursor.start text, s⟩ := by
      rw [Grammar.startEvaluation, hone]
      exact ⟨_, .head (.rule rfl hnew) (.head .action (.head .seqHead (.single .choiceHead)))⟩
    obtain ⟨s, hreached⟩ := hreached
    exact h _ hreached ⟨rfl, .hexNumber, rfl⟩

/-- A text is parsed as a number exactly if it is a number of the language and the nesting limit
allows two rules, and then it is the number with that text. -/
theorem parseFrom_number_eq_ok_iff (settings : Settings) (text : String) (value : Value Piece) :
    (grammar.parseFrom settings .number text).outcome = .ok value ↔
      2 ≤ settings.maxDepth ∧ text.toList ∈ numbers.matches' ∧
        value = .ofNode (Expr.number text) := by
  constructor
  · intro hok
    have hdone := Grammar.overflow_eq_none_of_ok hok
    have hmem := mem_numbers_of_isNumber ⟨settings, value, hok⟩
    refine ⟨two_le_maxDepth hdone, hmem, ?_⟩
    rw [Grammar.parseFrom_eq_ok_of_reads (reads_number_of_mem_numbers hmem) hdone] at hok
    cases hok
    rfl
  · rintro ⟨hlimit, hmem, rfl⟩
    have hdone : (grammar.parseFrom settings .number text).session.overflow = none :=
      Grammar.overflow_eq_none_of_fits (by decide) hlimit
    exact Grammar.parseFrom_eq_ok_of_reads (reads_number_of_mem_numbers hmem) hdone

example : "0xF_f".toList ∈ numbers.matches' ∧ "1_0.5e-2".toList ∈ numbers.matches' ∧
    "1__0".toList ∉ numbers.matches' := by
  decide

end Language

end PegScript

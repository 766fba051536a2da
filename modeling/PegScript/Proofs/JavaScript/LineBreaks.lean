import PegScript.Proofs.JavaScript.Emitter
import PegScript.Proofs.JavaScript.Scanner
import PegScript.Proofs.JavaScript.StringValues
import PegScript.Proofs.Language.WellFormed

/-!
# Line breaks in strings

A text with line breaks is written between double quotes where it is a key or the source of an
import, and as a template where it is an expression.  The main result is when the two literals have
the same value.  They have, unless the text has a carriage return that only the first of them keeps:
a template reads it as a line feed, and takes a line feed behind it as part of the same line break.

The proof lets two readers run side by side.  `Alike` is how they can stand at the same character of
the text, one lemma for each kind of character says what a step does to both, and `Compare` is what
is known of the strings they find in the end.
-/

namespace PegScript

namespace JavaScript

open PegScript.Language

/-- Backslashes, each with a character behind it, and other characters that are no quotes. -/
inductive IsEscapedText : List Char → Prop where
  | nil : IsEscapedText []
  | escape (c : Char) {rest : List Char} (h : IsEscapedText rest) :
      IsEscapedText ('\\' :: c :: rest)
  | plain {c : Char} {rest : List Char} (hquote : c ≠ '"') (hslash : c ≠ '\\')
      (h : IsEscapedText rest) : IsEscapedText (c :: rest)

/-- Whether the text has a carriage return that is not escaped, or an escaped one that a line feed
follows. -/
def hasLooseReturn : List Char → Bool
  | [] => false
  | '\\' :: c :: rest => decide (c = '\r' ∧ rest.head? = some '\n') || hasLooseReturn rest
  | c :: rest => decide (c = '\r') || hasLooseReturn rest

theorem hasLooseReturn_cons {c : Char} (hslash : c ≠ '\\') (rest : List Char) :
    hasLooseReturn (c :: rest) = (decide (c = '\r') || hasLooseReturn rest) := by
  rw [hasLooseReturn]
  rintro _ _ rfl
  exact absurd rfl hslash

/-- The template literal for a text. -/
def templateOf (text : String) : String :=
  "\x60" ++ templateText text ++ "\x60"

/-! ## Where readers go -/

section Places

variable {q : Quoting} {p : Place} {c : Char} {r : List UInt16 × Place} {cs : List Char}

theorem Place.of_escapedStep (h : escapedStep c = some r) :
    r.2 ≠ .escape ∧ (r.2 = .lineBreak ↔ c = '\r') := by
  unfold escapedStep at h
  split at h
  case h_14 _ _ _ _ _ _ _ _ _ hreturn _ _ _ =>
    split at h
    · cases h
    · cases h
      simpa using hreturn
  all_goals
    cases h
    decide

theorem Place.of_plainStep (hslash : c ≠ '\\') (hreturn : c ≠ '\r')
    (h : plainStep q c = some r) : r.2 ≠ .escape ∧ r.2 ≠ .lineBreak := by
  unfold plainStep at h
  rw [if_neg hslash] at h
  split at h
  case h_1 =>
    split at h
    · cases h
    · cases h
      simp
  case h_2 =>
    rw [if_neg hreturn] at h
    cases h
    dsimp only
    split <;> decide

/-- Only a backslash starts an escape, and only a carriage return a line break. -/
theorem Place.of_step (hescape : p ≠ .escape) (hslash : c ≠ '\\') (hreturn : c ≠ '\r')
    (h : p.step q c = some r) : r.2 ≠ .escape ∧ r.2 ≠ .lineBreak := by
  have hhex {more value : Nat} (h : hexStep more value c = some r) :
      r.2 ≠ .escape ∧ r.2 ≠ .lineBreak := by
    obtain ⟨d, -, rfl⟩ := Option.map_eq_some_iff.mp h
    cases more <;> simp
  cases p with
  | text => exact of_plainStep hslash hreturn h
  | dollar | zero =>
      rw [step] at h
      split at h
      · cases h
      · exact of_plainStep hslash hreturn h
  | lineBreak =>
      rw [step] at h
      split at h
      · cases h
        decide
      · exact of_plainStep hslash hreturn h
  | escape => exact absurd rfl hescape
  | unicode =>
      rw [step] at h
      split at h
      · cases h
        decide
      · exact hhex h
  | hex => exact hhex h
  | codePoint value =>
      rw [step] at h
      split at h
      · obtain ⟨v, -, rfl⟩ := Option.map_eq_some_iff.mp h
        simp
      · obtain ⟨d, -, hd⟩ := Option.bind_eq_some_iff.mp h
        dsimp only at hd
        split at hd
        · cases hd
          simp
        · cases hd

/-- In a template a line feed stands for itself, unless it belongs to a carriage return. -/
theorem readFrom_lineFeed (hescape : p ≠ .escape) :
    readFrom .template p ('\n' :: cs) =
      if p.mayEnd then
        prepend (if p = .lineBreak then [] else [10]) (readFrom .template .text cs)
      else none := by
  rw [readFrom_cons (by decide)]
  by_cases hp : p.mayEnd = true
  · cases p with
    | text | dollar | lineBreak | zero => rfl
    | escape | unicode | hex | codePoint => cases hp
  · rw [Place.step_eq_none (by simpa using hp) hescape (by decide) (by decide) (by decide),
      if_neg hp]
    rfl

end Places

/-! ## Comparing what is read -/

/-- Longer strings weigh more, and carriage returns count twice.  So a string weighs less if it has
lost a line feed, or has one for a carriage return. -/
def weight (units : List UInt16) : Nat :=
  units.length + units.count 13

@[simp]
theorem weight_append (u v : List UInt16) : weight (u ++ v) = weight u + weight v := by
  simp only [weight, List.length_append, List.count_append]
  omega

/-- Neither reader finds a string, or both do, with the same characters behind it.  The strings are
the same, or, if something was loose, the second is lighter. -/
def Compare (loose : Bool) (a b : Option (List UInt16 × List Char)) : Prop :=
  a = none ∧ b = none ∨
    ∃ u v k, a = some (u, k) ∧ b = some (v, k) ∧ weight v + loose.toNat ≤ weight u ∧
      (loose = false → u = v)

namespace Compare

variable {loose : Bool} {a b : Option (List UInt16 × List Char)} {u v : List UInt16}

theorem none_none : Compare loose none none :=
  .inl ⟨rfl, rfl⟩

/-- The same code units before both strings. -/
theorem prepend (h : Compare loose a b) (u : List UInt16) :
    Compare loose (prepend u a) (JavaScript.prepend u b) := by
  rcases h with ⟨rfl, rfl⟩ | ⟨v, w, k, rfl, rfl, hweight, heq⟩
  · exact none_none
  · refine .inr ⟨u ++ v, u ++ w, k, rfl, rfl, ?_, fun h => by rw [heq h]⟩
    simp only [weight_append]
    omega

/-- Lighter code units before the second string. -/
theorem prepend_lighter (h : Compare loose a b) (hlighter : weight v < weight u) :
    Compare true (JavaScript.prepend u a) (JavaScript.prepend v b) := by
  rcases h with ⟨rfl, rfl⟩ | ⟨u', v', k, rfl, rfl, hweight, -⟩
  · exact none_none
  · refine .inr ⟨u ++ u', v ++ v', k, rfl, rfl, ?_, fun h => by cases h⟩
    simp only [weight_append, Bool.toNat_true]
    omega

theorem eq_iff (h : Compare loose a b) : a = b ↔ a = none ∨ loose = false := by
  rcases h with ⟨rfl, rfl⟩ | ⟨u, v, k, rfl, rfl, hweight, heq⟩
  · simp
  · constructor
    · intro hab
      cases hab
      cases loose with
      | false => exact .inr rfl
      | true => exact absurd hweight (Nat.not_succ_le_self _)
    · rintro (hnone | hloose)
      · cases hnone
      · rw [heq hloose]

/-- The same step of both readers, if it is one. -/
theorem bind {step : Option (List UInt16 × Place)}
    {f g : List UInt16 × Place → Option (List UInt16 × List Char)}
    (h : ∀ r, step = some r → Compare loose (f r) (g r)) :
    Compare loose (step.bind fun r => JavaScript.prepend r.1 (f r))
      (step.bind fun r => JavaScript.prepend r.1 (g r)) := by
  cases hstep : step with
  | none => exact none_none
  | some r => exact (h r hstep).prepend r.1

/-- Both readers go on, or neither does. -/
theorem ite {p : Prop} [Decidable p] (h : Compare loose a b) :
    Compare loose (if p then a else none) (if p then b else none) := by
  split
  · exact h
  · exact none_none

end Compare

/-! ## Steps of both readers -/

/-- Two readers, one in a string and one in a template, that have the same characters of a text
before them. -/
inductive Alike (cs : List Char) : Place → Place → Prop where
  | same {p : Place} (hescape : p ≠ .escape) : Alike cs p p
  | dollar (hopen : cs.head? ≠ some '\x7b') : Alike cs .text .dollar
  | lineBreak : Alike cs .text .lineBreak

/-- Whether something is loose in the text, or its first line feed belongs to the line break before
it. -/
def looseAt (p : Place) (cs : List Char) : Bool :=
  hasLooseReturn cs || decide (p = .lineBreak ∧ cs.head? = some '\n')

theorem looseAt_of_ne {p : Place} {cs : List Char} (h : p ≠ .lineBreak) :
    looseAt p cs = hasLooseReturn cs := by
  simp [looseAt, h]

theorem looseAt_cons_of_ne {p : Place} {c : Char} {rest : List Char} (hfeed : c ≠ '\n') :
    looseAt p (c :: rest) = hasLooseReturn (c :: rest) := by
  simp [looseAt, hfeed]

namespace Alike

variable {c : Char} {cs rest xs ys : List Char} {p p' : Place} {loose : Bool}

theorem text : Alike cs .text .text :=
  .same Place.noConfusion

theorem ne_escape (h : Alike cs p p') : p ≠ .escape ∧ p' ≠ .escape := by
  cases h with
  | same hescape => exact ⟨hescape, hescape⟩
  | dollar | lineBreak => exact ⟨Place.noConfusion, Place.noConfusion⟩

theorem of_head (h : Alike cs p p') (other : List Char) (hopen : other.head? ≠ some '\x7b') :
    Alike other p p' := by
  cases h with
  | same hescape => exact .same hescape
  | dollar => exact .dollar hopen
  | lineBreak => exact .lineBreak

theorem mayEnd_eq (h : Alike cs p p') : p'.mayEnd = p.mayEnd := by
  cases h <;> rfl

/-- The same escape in both literals. -/
theorem compare_backslash (h : Alike cs p p')
    (hrest : ∀ r, Place.escapedStep c = some r →
      Compare loose (readFrom .string r.2 xs) (readFrom .template r.2 ys)) :
    Compare loose (readFrom .string p ('\\' :: c :: xs))
      (readFrom .template p' ('\\' :: c :: ys)) := by
  rw [readFrom_backslash h.ne_escape.1, readFrom_backslash h.ne_escape.2, h.mayEnd_eq]
  exact (Compare.bind hrest).ite

/-- A character that means the same in both literals. -/
theorem compare_cons (h : Alike (c :: rest) p p') (hmark : c ≠ '"' ∧ c ≠ '\x60')
    (hslash : c ≠ '\\') (hfeed : c ≠ '\n') (hreturn : c ≠ '\r') (hdollar : c ≠ '$')
    (hrest : ∀ p, p ≠ .escape → p ≠ .lineBreak →
      Compare loose (readFrom .string p xs) (readFrom .template p ys)) :
    Compare loose (readFrom .string p (c :: xs)) (readFrom .template p' (c :: ys)) := by
  have hplain : Place.plainStep .string c = Place.plainStep .template c := by
    simp [Place.plainStep, hslash, hfeed, hreturn, hdollar]
  have hsame : p.step .string c = p'.step .template c := by
    cases h with
    | same hescape => cases p <;> simp [Place.step, hplain]
    | dollar hopen =>
        have hopen : c ≠ '\x7b' := by simpa using hopen
        simp [Place.step, hplain, hopen]
    | lineBreak => simp [Place.step, hplain, hfeed]
  rw [readFrom_cons hmark.1, readFrom_cons hmark.2, hsame]
  refine Compare.bind fun r hstep => ?_
  obtain ⟨hescape, hbreak⟩ := Place.of_step h.ne_escape.2 hslash hreturn hstep
  exact hrest r.2 hescape hbreak

/-- A character that has a backslash before it in a template only. -/
theorem compare_escaped (h : Alike cs p p') (hmark : c ≠ '"') (hdigit : hexDigit? c = none)
    (hopen : c ≠ '\x7b') (hclose : c ≠ '\x7d') (hfeed : c ≠ '\n')
    (hplain : Place.plainStep .string c = some (codeUnits c.toNat, .text))
    (hescaped : Place.escapedStep c = some (codeUnits c.toNat, .text))
    (hrest : Compare loose (readFrom .string .text xs) (readFrom .template .text ys)) :
    Compare loose (readFrom .string p (c :: xs)) (readFrom .template p' ('\\' :: c :: ys)) := by
  rw [readFrom_plain h.ne_escape.1 hmark hdigit hopen hclose hfeed,
    readFrom_backslash h.ne_escape.2, h.mayEnd_eq, hplain, hescaped]
  exact (hrest.prepend _).ite

/-- A line feed, which has a backslash before it in a string only. -/
theorem compare_lineFeed (h : Alike cs p p')
    (hrest : Compare loose (readFrom .string .text xs) (readFrom .template .text ys)) :
    Compare (loose || decide (p' = .lineBreak)) (readFrom .string p ('\\' :: 'n' :: xs))
      (readFrom .template p' ('\n' :: ys)) := by
  rw [readFrom_backslash h.ne_escape.1, readFrom_lineFeed h.ne_escape.2, h.mayEnd_eq]
  refine Compare.ite ?_
  by_cases hbreak : p' = .lineBreak
  · rw [if_pos hbreak, decide_eq_true hbreak, Bool.or_true]
    exact hrest.prepend_lighter (by decide)
  · rw [if_neg hbreak, decide_eq_false hbreak, Bool.or_false]
    exact hrest.prepend [10]

/-- A carriage return, which a template reads as a line feed. -/
theorem compare_return (h : Alike cs p p')
    (hrest : Compare loose (readFrom .string .text xs) (readFrom .template .lineBreak ys)) :
    Compare true (readFrom .string p ('\\' :: 'r' :: xs)) (readFrom .template p' ('\r' :: ys)) := by
  rw [readFrom_backslash h.ne_escape.1, readFrom_plain h.ne_escape.2 (by decide) (by decide)
    (by decide) (by decide) (by decide), h.mayEnd_eq]
  refine Compare.ite ?_
  exact hrest.prepend_lighter (by decide)

/-- A dollar sign that opens no substitution. -/
theorem compare_dollar (h : Alike cs p p')
    (hrest : Compare loose (readFrom .string .text xs) (readFrom .template .dollar ys)) :
    Compare loose (readFrom .string p ('$' :: xs)) (readFrom .template p' ('$' :: ys)) := by
  rw [readFrom_plain h.ne_escape.1 (by decide) (by decide) (by decide) (by decide) (by decide),
    readFrom_plain h.ne_escape.2 (by decide) (by decide) (by decide) (by decide) (by decide),
    h.mayEnd_eq]
  exact (hrest.prepend [36]).ite

/-- A backslash of the text with the character behind it. -/
theorem compare_escape (h : Alike ('\\' :: c :: rest) p p')
    (hrest : ∀ {p p'}, Alike rest p p' →
      Compare (looseAt p' rest) (readFrom .string p xs) (readFrom .template p' ys)) :
    Compare (looseAt p' ('\\' :: c :: rest))
      (readFrom .string p ((if c = '#' then ['#'] else ['\\', c]) ++ xs))
      (readFrom .template p' ((if c = '#' then ['#'] else ['\\', c]) ++ ys)) := by
  rw [looseAt_cons_of_ne (by decide), hasLooseReturn]
  by_cases hc : c = '#'
  · subst hc
    rw [if_pos rfl]
    refine (h.of_head ('#' :: rest) (by simp)).compare_cons (by decide) (by decide)
      (by decide) (by decide) (by decide) fun p hescape hbreak => ?_
    simpa [looseAt_of_ne hbreak] using hrest (.same hescape)
  · rw [if_neg hc]
    refine h.compare_backslash fun r hr => ?_
    obtain ⟨hescape, hbreak⟩ := Place.of_escapedStep hr
    have hnext := hrest (.same hescape)
    simp only [looseAt, hbreak, Bool.or_comm (hasLooseReturn rest)] at hnext
    exact hnext

/-- Any other character of the text. -/
theorem compare_plain (h : Alike (c :: rest) p p') (hquote : c ≠ '"') (hslash : c ≠ '\\')
    (hrest : ∀ {p p'}, Alike rest p p' →
      Compare (looseAt p' rest) (readFrom .string p xs) (readFrom .template p' ys)) :
    Compare (looseAt p' (c :: rest)) (readFrom .string p (plainChar c rest ++ xs))
      (readFrom .template p' (templateChar c rest ++ ys)) := by
  have htext := hrest .text
  rw [looseAt_of_ne Place.noConfusion] at htext
  -- Four characters are not copied by both: the line breaks, the mark of templates and the dollar.
  by_cases hfeed : c = '\n'
  · subst hfeed
    rw [looseAt, hasLooseReturn_cons hslash]
    simpa [plainChar, templateChar] using h.compare_lineFeed htext
  rw [looseAt_cons_of_ne hfeed, hasLooseReturn_cons hslash]
  by_cases hreturn : c = '\r'
  · subst hreturn
    exact h.compare_return (hrest .lineBreak)
  have hplain : plainChar c rest = [c] := by
    unfold plainChar
    split <;> simp_all
  rw [decide_eq_false hreturn, Bool.false_or, hplain]
  by_cases hmark : c = '\x60'
  · subst hmark
    exact h.compare_escaped hquote (by decide) (by decide) (by decide) hfeed rfl rfl htext
  by_cases hdollar : c = '$'
  · subst hdollar
    by_cases hopen : rest.head? = some '\x7b'
    · have hescaped : templateChar '$' rest = ['\\', '$'] := by simp [templateChar, hopen]
      rw [hescaped]
      exact h.compare_escaped hquote (by decide) (by decide) (by decide) hfeed rfl rfl htext
    · have hbare : templateChar '$' rest = ['$'] := by simp [templateChar, hopen]
      have hnext := hrest (.dollar hopen)
      rw [looseAt_of_ne Place.noConfusion] at hnext
      rw [hbare]
      exact h.compare_dollar hnext
  · have hbare : templateChar c rest = [c] := by simp [templateChar, hmark, hdollar]
    rw [hbare]
    refine h.compare_cons ⟨hquote, hmark⟩ hslash hfeed hreturn hdollar fun p hescape hbreak => ?_
    rw [← looseAt_of_ne hbreak]
    exact hrest (.same hescape)

end Alike

/-! ## Two literals for one text -/

/-- Readers that stand alike find strings that can be compared, whatever comes in the text. -/
theorem compare_readFrom {cs : List Char} (h : IsEscapedText cs) (k : List Char) {p p' : Place}
    (hp : Alike cs p p') :
    Compare (looseAt p' cs) (readFrom .string p (copyEscapes plainChar cs ++ '"' :: k))
      (readFrom .template p' (copyEscapes templateChar cs ++ '\x60' :: k)) := by
  induction h generalizing p p' with
  | nil =>
      have hstring := readFrom_mark (q := .string) (k := k) hp.ne_escape.1
      have htemplate := readFrom_mark (q := .template) (k := k) hp.ne_escape.2
      rw [hp.mayEnd_eq] at htemplate
      change Compare _ (readFrom .string p (Quoting.string.mark :: k))
        (readFrom .template p' (Quoting.template.mark :: k))
      rw [hstring, htemplate]
      refine Compare.ite (.inr ⟨[], [], k, rfl, rfl, ?_, fun _ => rfl⟩)
      simp [looseAt, hasLooseReturn]
  -- Behind an escape or a character the readers stand alike again, so both cases hand the
  -- hypothesis of the induction on as it is.
  | escape c _ ih =>
      rw [copyEscapes_escape, copyEscapes_escape, List.append_assoc, List.append_assoc]
      exact hp.compare_escape ih
  | plain hquote hslash _ ih =>
      rw [copyEscapes_other _ hslash, copyEscapes_other _ hslash, List.append_assoc,
        List.append_assoc]
      exact hp.compare_plain hquote hslash ih

theorem isEscapedText_of_isStringText {cs : List Char} (h : IsStringText cs) :
    IsEscapedText cs := by
  induction h with
  | nil => exact .nil
  | escape c _ ih => exact .escape c ih
  | plain hquote hslash _ _ ih => exact .plain hquote hslash ih

theorem isEscapedText_of_derives {c : Cursor} {m : Reading Piece} {parts : List StrPart}
    (h : Derives grammar (.rule .string) c (some m)) (hvalue : m.value = .ofNode (Expr.str parts))
    {text : String} (htext : .text text ∈ parts) : IsEscapedText text.toList := by
  have hparts : StringParts parts := (sound_of_derives_string h hvalue).head.1
  exact isEscapedText_of_isStringText (hparts.texts text htext).2

theorem exprText_templateOf {text : String} (h : singleLine? [.text text] = none) (s : Emitter) :
    exprText (.str [.text text]) s = .ok (templateOf text, s) := by
  have hparts : partTexts [.text text] s = .ok ([templateText text], s) := rfl
  rw [exprText, h]
  dsimp only
  rw [Lower.bind_apply, hparts]
  simp only [Except.bind, String.join_cons, String.join_nil, String.append_empty]
  rfl

/-- A key is written between double quotes, and an expression with a line break as a template.  For
every text that the rule for strings can give, the two literals have the same value or neither has
one, exactly if they have none or the text has no loose carriage return. -/
theorem literalValue_plain_eq_iff (text : String) :
    (∀ c m parts, Derives grammar (.rule .string) c (some m) →
      m.value = .ofNode (Expr.str parts) → StrPart.text text ∈ parts →
      IsEscapedText text.toList) ∧
    (∀ s, keyText (.str text) s = .ok (plain text, s)) ∧
    (∀ s, singleLine? [.text text] = none →
      exprText (.str [.text text]) s = .ok (templateOf text, s)) ∧
    (IsEscapedText text.toList →
      (literalValue (plain text).toList = literalValue (templateOf text).toList ↔
        literalValue (plain text).toList = none ∨ hasLooseReturn text.toList = false)) := by
  refine ⟨fun c m parts hread hvalue => isEscapedText_of_derives hread hvalue, fun s => rfl,
    fun s h => exprText_templateOf h s, fun htext => ?_⟩
  have hplain : literalValue (plain text).toList =
      readFrom .string .text (copyEscapes plainChar text.toList ++ ['"']) := by
    simp [plain, literalValue]
  have htemplate : literalValue (templateOf text).toList =
      readFrom .template .text (copyEscapes templateChar text.toList ++ ['\x60']) := by
    simp [templateOf, templateText, literalValue]
  have hcompare := compare_readFrom htext [] .text
  rw [looseAt_of_ne Place.noConfusion] at hcompare
  rw [hplain, htemplate]
  exact hcompare.eq_iff

/-- A carriage return is kept in a key, and read as a line feed in an expression. -/
theorem literalValue_return :
    IsEscapedText "a\rb".toList ∧
      literalValue (plain "a\rb").toList = some ([97, 13, 98], []) ∧
      literalValue (templateOf "a\rb").toList = some ([97, 10, 98], []) := by
  refine ⟨?_, by decide, by decide⟩
  exact .plain (by decide) (by decide) (.plain (by decide) (by decide)
    (.plain (by decide) (by decide) .nil))

end JavaScript

end PegScript

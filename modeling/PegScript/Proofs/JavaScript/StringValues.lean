import PegScript.JavaScript.Lower
import PegScript.Proofs.Language.Tokens
import PegScript.Proofs.Semantics.Depth
import PegScript.Proofs.Semantics.Spans

/-!
# The values of string literals

A string of JavaScript is a list of 16-bit code units.  `literalValue` reads it from a literal,
between double quotes or as a template without substitutions, by the rules of strict mode.  The two
kinds of literals have the same escapes, but a line break can only stand in a template, and there
every line break is read as a line feed.

The main result is about strings without escapes: what is written between single quotes is the value
of the literal that is generated for it.
-/

namespace PegScript

namespace JavaScript

open PegScript.Language

/-! ## Reading literals -/

/-- The code units of a code point. -/
def codeUnits (n : Nat) : List UInt16 :=
  if n < 0x10000 then [n.toUInt16]
  else [(0xD800 + (n - 0x10000) / 0x400).toUInt16, (0xDC00 + (n - 0x10000) % 0x400).toUInt16]

/-- A text as a string of JavaScript. -/
def utf16 (cs : List Char) : List UInt16 :=
  cs.flatMap fun c => codeUnits c.toNat

/-- The kinds of literals that strings have. -/
inductive Quoting where
  | string
  | template
deriving DecidableEq, Repr

/-- What the literal stands between. -/
def Quoting.mark : Quoting → Char
  | string => '"'
  | template => '\x60'

/-- Where a reader stands in a literal. -/
inductive Place where
  | text
  /-- Behind a dollar sign of a template, where a brace would open a substitution. -/
  | dollar
  /-- Behind a carriage return that was read as a line break.  A line feed belongs to it. -/
  | lineBreak
  | escape
  /-- Behind an escaped zero, where no digit may follow. -/
  | zero
  /-- Behind the letter of an escape for a code unit or a code point. -/
  | unicode
  /-- Before a hexadecimal digit with this number of digits behind it. -/
  | hex (more value : Nat)
  /-- Between the braces of a code point. -/
  | codePoint (value : Option Nat)
deriving DecidableEq, Repr

def hexDigit? (c : Char) : Option Nat :=
  if c.isDigit then some (c.toNat - '0'.toNat)
  else if 'a' ≤ c ∧ c ≤ 'f' then some (c.toNat - 'a'.toNat + 10)
  else if 'A' ≤ c ∧ c ≤ 'F' then some (c.toNat - 'A'.toNat + 10)
  else none

namespace Place

/-- No escape is unfinished, so the literal may end. -/
def mayEnd : Place → Bool
  | text | dollar | lineBreak | zero => true
  | escape | unicode | hex .. | codePoint _ => false

/-- A character that is not part of an escape: its code units, and where the reader is then. -/
def plainStep (q : Quoting) (c : Char) : Option (List UInt16 × Place) :=
  if c = '\\' then some ([], escape)
  else match q with
    | .string => if c = '\n' ∨ c = '\r' then none else some (codeUnits c.toNat, text)
    | .template =>
      if c = '\r' then some ([10], lineBreak)
      else some (codeUnits c.toNat, if c = '$' then dollar else text)

/-- The character behind a backslash.  A line break there stands for nothing. -/
def escapedStep : Char → Option (List UInt16 × Place)
  | 'b' => some ([8], text)
  | 't' => some ([9], text)
  | 'n' => some ([10], text)
  | 'v' => some ([11], text)
  | 'f' => some ([12], text)
  | 'r' => some ([13], text)
  | '0' => some ([0], zero)
  | 'x' => some ([], hex 1 0)
  | 'u' => some ([], unicode)
  | '\r' => some ([], lineBreak)
  | '\n' | '\u2028' | '\u2029' => some ([], text)
  | c => if c.isDigit then none else some (codeUnits c.toNat, text)

def hexStep (more value : Nat) (c : Char) : Option (List UInt16 × Place) :=
  (hexDigit? c).map fun d =>
    match more with
    | 0 => (codeUnits (16 * value + d), text)
    | more + 1 => ([], hex more (16 * value + d))

/-- One more character of the literal, unless it must not stand there. -/
def step (q : Quoting) : Place → Char → Option (List UInt16 × Place)
  | text, c => plainStep q c
  | dollar, c => if c = '\x7b' then none else plainStep q c
  | lineBreak, c => if c = '\n' then some ([], text) else plainStep q c
  | zero, c => if c.isDigit then none else plainStep q c
  | escape, c => escapedStep c
  | unicode, c => if c = '\x7b' then some ([], codePoint none) else hexStep 3 0 c
  | hex more value, c => hexStep more value c
  | codePoint value, c =>
    if c = '\x7d' then value.map fun v => (codeUnits v, text)
    else (hexDigit? c).bind fun d =>
      let v := 16 * value.getD 0 + d
      if v ≤ 0x10FFFF then some ([], codePoint (some v)) else none

end Place

/-- The string that a reader finds, with these code units before it. -/
def prepend (units : List UInt16) :
    Option (List UInt16 × List Char) → Option (List UInt16 × List Char) :=
  Option.map fun r => (units ++ r.1, r.2)

/-- Reads a literal up to its end: the code units to come, and the characters behind the
literal. -/
def readFrom (q : Quoting) (p : Place) : List Char → Option (List UInt16 × List Char)
  | [] => none
  | c :: cs =>
    if p.mayEnd ∧ c = q.mark then some ([], cs)
    else (p.step q c).bind fun r => prepend r.1 (readFrom q r.2 cs)

/-- The string that the literal at the start of the text stands for, and what follows. -/
def literalValue : List Char → Option (List UInt16 × List Char)
  | '"' :: cs => readFrom .string .text cs
  | '\x60' :: cs => readFrom .template .text cs
  | _ => none

@[simp]
theorem prepend_nil (r : Option (List UInt16 × List Char)) : prepend [] r = r := by
  cases r <;> rfl

section Reading

variable {q : Quoting} {p : Place} {c : Char} {cs k : List Char}

theorem readFrom_cons (hc : c ≠ q.mark) :
    readFrom q p (c :: cs) = (p.step q c).bind fun r => prepend r.1 (readFrom q r.2 cs) := by
  simp [readFrom, hc]

theorem isDigit_of_hexDigit? (h : hexDigit? c = none) : c.isDigit = false := by
  unfold hexDigit? at h
  split at h
  case isTrue => cases h
  case isFalse hdigit => simpa using hdigit

theorem Place.hexStep_eq_none {more value : Nat} (hc : hexDigit? c = none) :
    hexStep more value c = none := by
  simp [hexStep, hc]

/-- An unfinished escape goes on with a digit or a brace only. -/
theorem Place.step_eq_none (hp : p.mayEnd = false) (hescape : p ≠ .escape)
    (hdigit : hexDigit? c = none) (hopen : c ≠ '\x7b') (hclose : c ≠ '\x7d') :
    p.step q c = none := by
  cases p with
  | text | dollar | lineBreak | zero => cases hp
  | escape => exact absurd rfl hescape
  | unicode | hex => simp [step, hexStep_eq_none hdigit, hopen]
  | codePoint => simp [step, hdigit, hclose]

/-- Where a literal may end, a character that is no digit, brace or line feed is read as anywhere in
the text. -/
theorem Place.step_eq_plainStep (hp : p.mayEnd = true) (hdigit : c.isDigit = false)
    (hopen : c ≠ '\x7b') (hfeed : c ≠ '\n') : p.step q c = plainStep q c := by
  cases p with
  | text | dollar | lineBreak | zero => simp [step, hdigit, hopen, hfeed]
  | escape | unicode | hex | codePoint => cases hp

theorem readFrom_mark (hescape : p ≠ .escape) :
    readFrom q p (q.mark :: k) = if p.mayEnd then some ([], k) else none := by
  by_cases hp : p.mayEnd = true
  · simp [readFrom, hp]
  · have hstep : p.step q q.mark = none := by
      cases q <;> exact Place.step_eq_none (by simpa using hp) hescape (by decide) (by decide)
        (by decide)
    simp [readFrom, hp, hstep]

/-- A character that no escape goes on with. -/
theorem readFrom_plain (hescape : p ≠ .escape) (hmark : c ≠ q.mark) (hdigit : hexDigit? c = none)
    (hopen : c ≠ '\x7b') (hclose : c ≠ '\x7d') (hfeed : c ≠ '\n') :
    readFrom q p (c :: cs) =
      if p.mayEnd then (Place.plainStep q c).bind fun r => prepend r.1 (readFrom q r.2 cs)
      else none := by
  rw [readFrom_cons hmark]
  by_cases hp : p.mayEnd = true
  · rw [Place.step_eq_plainStep hp (isDigit_of_hexDigit? hdigit) hopen hfeed, if_pos hp]
  · rw [Place.step_eq_none (by simpa using hp) hescape hdigit hopen hclose, if_neg hp]
    rfl

theorem readFrom_backslash (hescape : p ≠ .escape) :
    readFrom q p ('\\' :: c :: cs) =
      if p.mayEnd then (Place.escapedStep c).bind fun r => prepend r.1 (readFrom q r.2 cs)
      else none := by
  have hmark : '\\' ≠ q.mark := by cases q <;> decide
  have hbehind : readFrom q .escape (c :: cs) =
      (Place.escapedStep c).bind fun r => prepend r.1 (readFrom q r.2 cs) := by
    simp [readFrom, Place.mayEnd, Place.step]
  rw [readFrom_plain hescape hmark (by decide) (by decide) (by decide) (by decide)]
  simp [Place.plainStep, hbehind]

theorem Place.plainStep_string (hslash : c ≠ '\\') (hfeed : c ≠ '\n') (hreturn : c ≠ '\r') :
    plainStep .string c = some (codeUnits c.toNat, text) := by
  simp [plainStep, hslash, hfeed, hreturn]

end Reading

/-! ## Strings without escapes -/

theorem readFrom_rawChar (c : Char) (cs : List Char) :
    readFrom .string .text (rawChar c ++ cs) =
      prepend (codeUnits c.toNat) (readFrom .string .text cs) := by
  have hescape (d : Char) : readFrom .string .text ('\\' :: d :: cs) = _ :=
    readFrom_backslash Place.noConfusion
  unfold rawChar
  split
  case h_5 hslash hquote hfeed hreturn =>
    have hstep : Place.text.step .string c = _ := Place.plainStep_string hslash hfeed hreturn
    rw [List.singleton_append, readFrom_cons hquote, hstep]
    rfl
  all_goals exact hescape _

/-- The literal ends where it should, and stands for the text. -/
theorem literalValue_raw (text : String) (k : List Char) :
    literalValue ((raw text).toList ++ k) = some (utf16 text.toList, k) := by
  have hread : readFrom .string .text (text.toList.flatMap rawChar ++ '"' :: k) =
      some (utf16 text.toList, k) := by
    induction text.toList with
    | nil => rfl
    | cons c cs ih =>
        rw [List.flatMap_cons, List.append_assoc, readFrom_rawChar, ih]
        rfl
  simpa [raw, literalValue] using hread

/-- No line break stands in the literal, whatever the text. -/
theorem notMem_raw {c : Char} (hc : c = '\n' ∨ c = '\r') (text : String) :
    c ∉ (raw text).toList := by
  have hchar (d : Char) : c ∉ rawChar d := by
    unfold rawChar
    split
    case h_5 hslash hquote hfeed hreturn =>
      rintro (_ | ⟨_, ⟨⟩⟩)
      exact hc.elim hfeed hreturn
    all_goals rcases hc with rfl | rfl <;> decide
  have hquote : c ≠ '"' := by rcases hc with rfl | rfl <;> decide
  simp [raw, hquote, hchar]

theorem contains_noQuote (c : Char) :
    (CharClass.ofRanges [('\'', '\'')] true).contains c = decide (c ≠ '\'') := by
  have hnegated : (CharClass.ofRanges [('\'', '\'')] true).negated = true := rfl
  have hcovers : coversCode [('\'', '\'')] c.toNat = decide (c = '\'') := by
    rw [Bool.eq_iff_iff, coversCode_toNat_iff, decide_eq_true_iff]
    simp only [List.mem_singleton, exists_eq_left, min_self, max_self]
    exact ⟨fun h => le_antisymm h.2 h.1, fun h => ⟨h.ge, h.le⟩⟩
  rw [CharSet.contains, hnegated, CharClass.covers_ofRanges, hcovers]
  simp

theorem buildRawString_apply (input : ActionInput Piece) :
    Lexical.buildRawString input =
      some (.ofNode (Expr.rawStr (Lexical.inner (input.start.textTo input.stop))), input) := rfl

theorem reads_rawString {text : String} (h : '\'' ∉ text.toList) :
    Reads grammar (.rule .rawString) ("'" ++ text ++ "'").toList []
      (.ofNode (Expr.rawStr text)) [] := by
  have htext : Reads grammar (.text (.star (.noneOf [('\'', '\'')]))) text.toList (['\''] ++ [])
      (.text (String.ofList text.toList)) [] := by
    refine (reads_star_charIn ?_ ?_).text
    · intro a ha
      rw [contains_noQuote, decide_eq_true_eq]
      rintro rfl
      exact h ha
    · rintro a ⟨⟩
      rw [contains_noQuote]
      rfl
  have hform := (reads_lit "'").seq_cons (htext.seq_cons (reads_lit "'" (k := [])).seq_last)
  have hquoted : ("'" ++ text ++ "'").toList = "'".toList ++ (text.toList ++ "'".toList) := by
    simp
  rw [hquoted]
  refine (hform.action ?_).rule
  intro c d hmatched
  have hinner : Lexical.inner (c.textTo d) = text := by
    rw [hmatched]
    simp [Lexical.inner]
  rw [buildRawString_apply, hinner]
  exact ⟨_, rfl⟩

theorem spans_rawString :
    Spans grammar (.rule .rawString) {w | ∃ u, '\'' ∉ u ∧ w = ['\''] ++ (u ++ ['\''])} := by
  have htext := (spans_charIn (g := grammar) (.ofRanges [('\'', '\'')] true)).star.text
  have hform := (spans_lit "'").seq_cons (htext.seq_cons (spans_lit "'").seq_last)
  refine (hform.action.rule (r := Symbol.rawString)).mono ?_
  rintro w ⟨_, rfl, _, ⟨u, hu, _, rfl, rfl⟩, rfl⟩
  refine ⟨u, fun hmem => ?_, rfl⟩
  obtain ⟨words, rfl, hwords⟩ := Language.mem_kstar.mp hu
  obtain ⟨v, hv, hmem⟩ := List.mem_flatten.mp hmem
  obtain ⟨a, ha, rfl⟩ := hwords v hv
  rw [contains_noQuote, decide_eq_true_eq] at ha
  exact ha (List.mem_singleton.mp hmem).symm

/-- The text in single quotes is read as a string without escapes, if it has no single quote and the
nesting limit allows a rule at all.  The literal for the text has no line break, ends where it
should, and stands for the text. -/
theorem rawString_roundTrip (settings : Settings) (text : String) :
    ((grammar.parseFrom settings .rawString ("'" ++ text ++ "'")).outcome =
        .ok (.ofNode (Expr.rawStr text)) ↔
      0 < settings.maxDepth ∧ '\'' ∉ text.toList) ∧
    ∀ s, exprText (.rawStr text) s = .ok (raw text, s) ∧
      '\n' ∉ (raw text).toList ∧ '\r' ∉ (raw text).toList ∧
      ∀ k, literalValue ((raw text).toList ++ k) = some (utf16 text.toList, k) := by
  refine ⟨⟨fun hok => ⟨?_, ?_⟩, fun ⟨hlimit, hquote⟩ => ?_⟩, fun s =>
    ⟨rfl, notMem_raw (.inl rfl) text, notMem_raw (.inr rfl) text, literalValue_raw text⟩⟩
  · have hdone := Grammar.overflow_eq_none_iff.mp (Grammar.overflow_eq_none_of_ok hok)
    by_contra hzero
    exact hdone _ .refl ⟨Nat.eq_zero_of_not_pos hzero, .rawString, rfl⟩
  · obtain ⟨u, hu, heq⟩ := Grammar.mem_of_parseFrom_eq_ok spans_rawString hok
    have htext : text.toList = u := by simpa using heq
    rw [htext]
    exact hu
  · have hdone : (grammar.parseFrom settings .rawString ("'" ++ text ++ "'")).session.overflow =
        none := Grammar.overflow_eq_none_of_fits (by decide) hlimit
    exact Grammar.parseFrom_eq_ok_of_reads (reads_rawString hquote) hdone

end JavaScript

end PegScript

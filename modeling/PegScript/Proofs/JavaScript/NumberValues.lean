import Mathlib.Algebra.Field.Rat
import Mathlib.Data.Nat.Digits.Defs
import PegScript.Proofs.JavaScript.StringValues
import PegScript.Proofs.Language.Numbers

/-!
# The values of numbers

A number of the language and a number of JavaScript have the same form, but for two things: only the
former may have separators between its digits, and only the latter, by the rules of strict mode,
must not have zeros before the first digit that counts.  So one reader with two settings finds the
exact value of both.

The main result is that a number keeps its value when its separators are left out, and is a number
of JavaScript then unless it starts with a zero that does not count.
-/

namespace PegScript

namespace JavaScript

open PegScript.Language RegularExpression

/-! ## Reading numbers -/

/-- The digit that a character is in a base. -/
def digit? (base : Nat) (c : Char) : Option Nat :=
  (hexDigit? c).filter (· < base)

/-- The base that a character marks, behind a zero. -/
def markedBase? : Char → Option Nat
  | 'x' | 'X' => some 16
  | 'b' | 'B' => some 2
  | 'o' | 'O' => some 8
  | _ => none

/-- What is left of a part of a number without its separators. -/
def unseparated (cs : List Char) : List Char :=
  cs.filter (· != '_')

/-- How numbers are read. -/
structure NumberReader where
  /-- The digits that a part of a number consists of. -/
  digits (base : Nat) (cs : List Char) : Option (List Nat)
  /-- Whether the digits may stand before the point. -/
  whole (ds : List Nat) : Bool

namespace NumberReader

/-- The number that is written with at least one digit. -/
def natural (r : NumberReader) (base : Nat) (cs : List Char) : Option Nat :=
  ((r.digits base cs).filter (· ≠ [])).map fun ds => Nat.ofDigits base ds.reverse

/-- The number that is written with a sign before its digits, or without one. -/
def signed (r : NumberReader) : List Char → Option Int
  | '-' :: cs => (r.natural 10 cs).map fun n => -(n : Int)
  | '+' :: cs => (r.natural 10 cs).map fun n => (n : Int)
  | cs => (r.natural 10 cs).map fun n => (n : Int)

/-- The exponent, with the letter before it. -/
def exponent (r : NumberReader) : List Char → Option Int
  | [] => some 0
  | _ :: cs => r.signed cs

/-- The value of digits before and behind a point, of which there must be some, with an exponent. -/
def decimalValue (r : NumberReader) (whole fraction exponent : List Char) : Option ℚ := do
  let ws ← r.digits 10 whole
  let fs ← r.digits 10 fraction
  let x ← r.exponent exponent
  if r.whole ws ∧ ws ++ fs ≠ [] then
    some (Nat.ofDigits 10 (ws ++ fs).reverse * 10 ^ (x - fs.length))
  else none

/-- The value of a decimal number, which goes up to the exponent, and up to the point before. -/
def decimal (r : NumberReader) (cs : List Char) : Option ℚ :=
  let mantissa := cs.takeWhile fun c => c != 'e' && c != 'E'
  r.decimalValue (mantissa.takeWhile (· != '.')) (mantissa.dropWhile (· != '.')).tail
    (cs.dropWhile fun c => c != 'e' && c != 'E')

/-- The exact value of a number. -/
def value (r : NumberReader) : List Char → Option ℚ
  | '0' :: mark :: cs =>
    match markedBase? mark with
    | some base => (r.natural base cs).map fun n => (n : ℚ)
    | none => r.decimal ('0' :: mark :: cs)
  | cs => r.decimal cs

/-- Numbers of JavaScript in strict mode.  The digits before a point are a single zero or do not
start with one. -/
def strict : NumberReader where
  digits base cs := cs.mapM (digit? base)
  whole ds := decide (ds.length ≤ 1) || ds.head? != some 0

/-- Numbers of the language.  Separators are left out of the digits. -/
def separated : NumberReader where
  digits base cs := (unseparated cs).mapM (digit? base)
  whole _ := true

end NumberReader

/-- Another digit follows a zero at the start. -/
def hasLeadingZero : List Char → Bool
  | '0' :: c :: _ => c.isDigit
  | _ => false

/-! ## Separators -/

@[simp]
theorem unseparated_append (cs cs' : List Char) :
    unseparated (cs ++ cs') = unseparated cs ++ unseparated cs' :=
  List.filter_append ..

theorem unseparated_cons {c : Char} (hc : c ≠ '_') (cs : List Char) :
    unseparated (c :: cs) = c :: unseparated cs := by
  simp [unseparated, hc]

theorem unseparated_eq_self {cs : List Char} (h : '_' ∉ cs) : unseparated cs = cs := by
  refine List.filter_eq_self.mpr fun a ha => ?_
  rw [bne_iff_ne]
  rintro rfl
  exact h ha

theorem notMem_unseparated (cs : List Char) : '_' ∉ unseparated cs := by
  simp [unseparated]

/-- Without its separators, a number of the language is one of JavaScript with the same value,
unless it has a zero at its start that does not count. -/
def KeepsValue (w : List Char) : Prop :=
  ∃ q, NumberReader.separated.value w = some q ∧
    NumberReader.strict.value (unseparated w) =
      if hasLeadingZero (unseparated w) then none else some q

section Separators

variable {base : Nat} {digits : String} {g : List Char}

/-- Digits stay digits without the separators among them. -/
theorem unseparated_mem_looseDigits (hdigits : '_' ∉ digits.toList)
    (hg : g ∈ (looseDigits digits).matches') :
    unseparated g ∈ (looseDigits digits).matches' := by
  obtain ⟨a, run, rfl, ha, hrun⟩ := mem_looseDigits_iff.mp hg
  have hne : a ≠ '_' := by
    rintro rfl
    exact hdigits ha
  refine mem_looseDigits_iff.mpr ⟨a, unseparated run, unseparated_cons hne run, ha, ?_⟩
  exact fun b hb => hrun b (List.mem_of_mem_filter hb)

theorem unseparated_mem_ledOf {lead : RegularExpression Char} (hlead : '_' ∉ letters lead)
    (hg : g ∈ (ledOf looseDigits lead).matches') :
    unseparated g ∈ (ledOf looseDigits lead).matches' := by
  rcases mem_ledOf_iff.mp hg with rfl | ⟨u, hu, ds, hds, rfl⟩
  · exact mem_ledOf_iff.mpr (Or.inl rfl)
  · have hkept : unseparated u = u :=
      unseparated_eq_self fun hmem => hlead (mem_letters_of_mem hu hmem)
    refine mem_ledOf_iff.mpr (Or.inr ⟨u, hu, _, unseparated_mem_looseDigits (by decide) hds, ?_⟩)
    rw [unseparated_append, hkept]

theorem exists_mapM_digit? {cs : List Char} (h : ∀ c ∈ cs, (digit? base c).isSome = true) :
    ∃ ds, cs.mapM (digit? base) = some ds ∧ ds.length = cs.length := by
  induction cs with
  | nil => exact ⟨[], rfl, rfl⟩
  | cons c cs ih =>
      obtain ⟨hc, hcs⟩ := List.forall_mem_cons.mp h
      obtain ⟨d, hd⟩ := Option.isSome_iff_exists.mp hc
      obtain ⟨ds, hds, hlength⟩ := ih hcs
      exact ⟨d :: ds, by simp [hd, hds], by simp [hlength]⟩

/-- Digits are read one by one when their separators are left out. -/
theorem exists_digits (hdigits : ∀ a ∈ digits.toList, (digit? base a).isSome = true)
    (hg : g ∈ (looseDigits digits).matches') :
    ∃ a run d ds, unseparated g = a :: run ∧ (∀ b ∈ a :: run, b ∈ digits.toList) ∧
      digit? base a = some d ∧ ds.length = run.length ∧
      NumberReader.strict.digits base (unseparated g) = some (d :: ds) := by
  have hmark : '_' ∉ digits.toList := by
    intro hmem
    have hdigit : digit? base '_' = none := rfl
    simpa [hdigit] using hdigits '_' hmem
  obtain ⟨a, run, hchars, ha, hrun⟩ :=
    mem_looseDigits_iff.mp (unseparated_mem_looseDigits hmark hg)
  have hseparator : '_' ∉ run := by
    have hnone := notMem_unseparated g
    rw [hchars] at hnone
    exact fun hmem => hnone (List.mem_cons_of_mem a hmem)
  have hall : ∀ b ∈ run, b ∈ digits.toList := by
    intro b hb
    refine (hrun b hb).resolve_right ?_
    rintro rfl
    exact hseparator hb
  obtain ⟨d, hd⟩ := Option.isSome_iff_exists.mp (hdigits a ha)
  obtain ⟨ds, hds, hlength⟩ := exists_mapM_digit? fun b hb => hdigits b (hall b hb)
  refine ⟨a, run, d, ds, hchars, List.forall_mem_cons.mpr ⟨ha, hall⟩, hd, hlength, ?_⟩
  rw [hchars]
  simp [NumberReader.strict, hd, hds]

theorem exists_natural (hdigits : ∀ a ∈ digits.toList, (digit? base a).isSome = true)
    (hg : g ∈ (looseDigits digits).matches') :
    ∃ n, NumberReader.separated.natural base g = some n ∧
      NumberReader.strict.natural base (unseparated g) = some n := by
  obtain ⟨a, run, d, ds, -, -, -, -, hread⟩ := exists_digits hdigits hg
  have hnatural : NumberReader.strict.natural base (unseparated g) =
      some (Nat.ofDigits base (d :: ds).reverse) := by
    rw [NumberReader.natural, hread]
    simp
  exact ⟨_, hnatural, hnatural⟩

theorem isSome_digit?_decimal : ∀ a ∈ "0123456789".toList, (digit? 10 a).isSome = true := by
  decide

end Separators

/-! ## Numbers behind a mark -/

theorem keepsValue_marked (base : Nat) {mark digits : String}
    (hmark : ∀ m ∈ mark.toList, markedBase? m = some base ∧ m ≠ '_' ∧ m.isDigit = false)
    (hdigits : ∀ a ∈ digits.toList, (digit? base a).isSome = true) {w : List Char}
    (hw : w ∈ (markedOf looseDigits mark digits).matches') : KeepsValue w := by
  obtain ⟨m, hm, g, hg, rfl⟩ := mem_markedOf_iff.mp hw
  obtain ⟨hbase, hne, hdigit⟩ := hmark m hm
  obtain ⟨n, hn, hn'⟩ := exists_natural hdigits hg
  refine ⟨n, by simp [NumberReader.value, hbase, hn], ?_⟩
  rw [unseparated_cons (by decide), unseparated_cons hne]
  simp [NumberReader.value, hbase, hn', hasLeadingZero, hdigit]

/-! ## Decimal numbers -/

/-- What a decimal number consists of, up to separators. -/
structure DecimalParts (g f e : List Char) : Prop where
  whole : g ∈ (looseDigits "0123456789").matches'
  fraction : f ∈ (ledOf looseDigits (char '.')).matches'
  exponent : e ∈ (ledOf looseDigits (anyOf "eE" * (1 + anyOf "+-"))).matches'

theorem mem_decimalOf_iff {w : List Char} :
    w ∈ (decimalOf looseDigits).matches' ↔ ∃ g f e, DecimalParts g f e ∧ w = g ++ f ++ e := by
  constructor
  · rintro ⟨_, ⟨g, hg, f, hf, rfl⟩, e, he, rfl⟩
    exact ⟨g, f, e, ⟨hg, hf, he⟩, rfl⟩
  · rintro ⟨g, f, e, h, rfl⟩
    exact ⟨_, ⟨g, h.whole, f, h.fraction, rfl⟩, e, h.exponent, rfl⟩

theorem takeWhile_dropWhile_append {p : Char → Bool} {u v : List Char} (hu : ∀ c ∈ u, p c = true)
    (hv : ∀ c ∈ v.head?, p c = false) :
    (u ++ v).takeWhile p = u ∧ (u ++ v).dropWhile p = v := by
  rw [List.takeWhile_append_of_pos hu, List.dropWhile_append_of_pos hu]
  cases v with
  | nil => simp
  | cons c v => simp [hv c rfl]

theorem signed_eq_natural {r : NumberReader} {ds : List Char}
    (h : ds ∈ (looseDigits "0123456789").matches') :
    r.signed ds = (r.natural 10 ds).map fun n => (n : Int) := by
  obtain ⟨a, run, rfl, ha, -⟩ := mem_looseDigits_iff.mp h
  have hall : ∀ a ∈ "0123456789".toList, a ≠ '-' ∧ a ≠ '+' := by decide
  simp [NumberReader.signed, hall a ha]

/-- The digits before the point go up to what is not a digit. -/
theorem hasLeadingZero_append {a : Char} {run rest : List Char}
    (hrun : ∀ b ∈ run, b.isDigit = true) (hrest : ∀ b ∈ rest.head?, b.isDigit = false) :
    hasLeadingZero (a :: run ++ rest) = true ↔ a = '0' ∧ run ≠ [] := by
  by_cases ha : a = '0'
  · subst ha
    cases run with
    | nil =>
        cases rest with
        | nil => simp [hasLeadingZero]
        | cons b rest => simp [hasLeadingZero, hrest b rfl]
    | cons b run => simp [hasLeadingZero, hrun b List.mem_cons_self]
  · simp [hasLeadingZero, ha]

theorem decimalValue_eq {r : NumberReader} {whole fraction exponent : List Char} {d : Nat}
    {ds fs : List Nat} {x : Int} (hwhole : r.digits 10 whole = some (d :: ds))
    (hfraction : r.digits 10 fraction = some fs) (hexponent : r.exponent exponent = some x) :
    r.decimalValue whole fraction exponent =
      if r.whole (d :: ds) then
        some (Nat.ofDigits 10 (d :: ds ++ fs).reverse * 10 ^ (x - fs.length))
      else none := by
  simp [NumberReader.decimalValue, hwhole, hfraction, hexponent]

namespace DecimalParts

variable {g f e : List Char} {r : NumberReader}

theorem stripped (h : DecimalParts g f e) :
    DecimalParts (unseparated g) (unseparated f) (unseparated e) :=
  ⟨unseparated_mem_looseDigits (by decide) h.whole, unseparated_mem_ledOf (by decide) h.fraction,
    unseparated_mem_ledOf (by decide) h.exponent⟩

/-- The digits before the point end there. -/
theorem head_not_digit (h : DecimalParts g f e) : ∀ b ∈ (f ++ e).head?, b.isDigit = false := by
  cases f with
  | nil => exact fun b hb => (not_digit_of_exponent h.exponent b hb).1
  | cons c f =>
      rintro b ⟨⟩
      exact (not_digit_of_fraction h.fraction c rfl).1

/-- An exponent is a letter, a sign or none, and digits. -/
theorem exponent_cases (h : DecimalParts g f e) :
    e = [] ∨ ∃ m ∈ "eE".toList, ∃ sign ∈ [[], ['+'], ['-']],
      ∃ ds ∈ (looseDigits "0123456789").matches', e = m :: (sign ++ ds) := by
  rcases mem_ledOf_iff.mp h.exponent with rfl | ⟨_, ⟨u, hu, sign, hsign, rfl⟩, ds, hds, rfl⟩
  · exact Or.inl rfl
  · obtain ⟨m, hm, rfl⟩ := mem_anyOf_iff.mp hu
    refine Or.inr ⟨m, hm, sign, ?_, ds, hds, by simp⟩
    rcases hsign with rfl | hsign
    · exact List.mem_cons_self
    · obtain ⟨b, hb, rfl⟩ := mem_anyOf_iff.mp hsign
      have hall : ∀ b ∈ "+-".toList, [b] ∈ [[], ['+'], ['-']] := by decide
      exact hall b hb

/-- The parts are found where they are. -/
theorem decimal_eq (h : DecimalParts g f e) :
    r.decimal (g ++ f ++ e) = r.decimalValue g f.tail e := by
  have hmantissa : ∀ c ∈ g ++ f, (c != 'e' && c != 'E') = true := by
    have hwhole : ∀ c ∈ letters (looseDigits "0123456789"), (c != 'e' && c != 'E') = true := by
      decide
    have hfraction : ∀ c ∈ letters (ledOf looseDigits (char '.')),
        (c != 'e' && c != 'E') = true := by
      decide
    intro c hc
    rcases List.mem_append.mp hc with hc | hc
    · exact hwhole c (mem_letters_of_mem h.whole hc)
    · exact hfraction c (mem_letters_of_mem h.fraction hc)
  have hexponent : ∀ c ∈ e.head?, (c != 'e' && c != 'E') = false := by
    rcases h.exponent_cases with rfl | ⟨m, hm, sign, -, ds, -, rfl⟩
    · simp
    · have hall : ∀ m ∈ "eE".toList, (m != 'e' && m != 'E') = false := by decide
      rintro _ ⟨⟩
      exact hall m hm
  have hwhole : ∀ c ∈ g, (c != '.') = true := by
    have hall : ∀ c ∈ letters (looseDigits "0123456789"), (c != '.') = true := by decide
    exact fun c hc => hall c (mem_letters_of_mem h.whole hc)
  have hpoint : ∀ c ∈ f.head?, (c != '.') = false := by
    have hall : ∀ c ∈ letters (char '.'), (c != '.') = false := by decide
    exact fun c hc => hall c (head_mem_letters (by decide) h.fraction c hc)
  obtain ⟨hbefore, hafter⟩ := takeWhile_dropWhile_append hmantissa hexponent
  obtain ⟨hdigits, hrest⟩ := takeWhile_dropWhile_append hwhole hpoint
  simp only [NumberReader.decimal, hbefore, hafter, hdigits, hrest]

/-- There is no mark of another base. -/
theorem value_eq (h : DecimalParts g f e) : r.value (g ++ f ++ e) = r.decimalValue g f.tail e := by
  rw [← h.decimal_eq]
  have hmem := mem_decimalOf_iff.mpr ⟨g, f, e, h, rfl⟩
  generalize g ++ f ++ e = w at hmem
  unfold NumberReader.value
  split
  case h_1 mark cs =>
    have hmark := toLower_of_mem_decimalOf hmem (a := mark) (by simp)
    have hbase : markedBase? mark = none := by
      unfold markedBase?
      split
      case h_7 => rfl
      all_goals exact absurd hmark (by decide)
    rw [hbase]
  case h_2 => rfl

/-- The digits before the point are accepted if the number does not start with a zero that does not
count. -/
theorem exists_whole (h : DecimalParts g f e) :
    ∃ d ds, NumberReader.separated.digits 10 g = some (d :: ds) ∧
      NumberReader.strict.digits 10 (unseparated g) = some (d :: ds) ∧
      NumberReader.strict.whole (d :: ds) = !hasLeadingZero (unseparated (g ++ f ++ e)) := by
  obtain ⟨a, run, d, ds, hchars, hrun, hd, hlength, hread⟩ :=
    exists_digits isSome_digit?_decimal h.whole
  refine ⟨d, ds, hread, hread, ?_⟩
  have hzero : d = 0 ↔ a = '0' := by
    have hall : ∀ a ∈ "0123456789".toList, digit? 10 a = some 0 ↔ a = '0' := by decide
    rw [← hall a (hrun a List.mem_cons_self), hd, Option.some.injEq]
  have hmore : ds ≠ [] ↔ run ≠ [] := by
    rw [← List.length_pos_iff, ← List.length_pos_iff, hlength]
  have hwhole : NumberReader.strict.whole (d :: ds) = false ↔ d = 0 ∧ ds ≠ [] := by
    cases ds <;> simp [NumberReader.strict]
  have hleading := hasLeadingZero_append (a := a)
    (fun b hb => isDigit_of_mem_decimals b (hrun b (List.mem_cons_of_mem a hb)))
    h.stripped.head_not_digit
  rw [hzero, hmore, ← hleading] at hwhole
  rw [List.append_assoc, unseparated_append, unseparated_append, hchars,
    ← Bool.not_eq_eq_eq_not, Bool.eq_iff_iff, Bool.not_eq_true', hwhole]

theorem exists_fraction (h : DecimalParts g f e) :
    ∃ fs, NumberReader.separated.digits 10 f.tail = some fs ∧
      NumberReader.strict.digits 10 (unseparated f).tail = some fs := by
  rcases mem_ledOf_iff.mp h.fraction with rfl | ⟨_, rfl, ds, hds, rfl⟩
  · exact ⟨[], rfl, rfl⟩
  · obtain ⟨a, run, d, fs, -, -, -, -, hread⟩ := exists_digits isSome_digit?_decimal hds
    exact ⟨d :: fs, hread, hread⟩

theorem exists_exponent (h : DecimalParts g f e) :
    ∃ x, NumberReader.separated.exponent e = some x ∧
      NumberReader.strict.exponent (unseparated e) = some x := by
  rcases h.exponent_cases with rfl | ⟨m, hm, sign, hsign, ds, hds, rfl⟩
  · exact ⟨0, rfl, rfl⟩
  · have hletter : ∀ m ∈ "eE".toList, m ≠ '_' := by decide
    have hsigns : ∀ sign ∈ [[], ['+'], ['-']], '_' ∉ sign := by decide
    obtain ⟨n, hn, hn'⟩ := exists_natural isSome_digit?_decimal hds
    rw [unseparated_cons (hletter m hm), unseparated_append,
      unseparated_eq_self (hsigns sign hsign)]
    simp only [List.mem_cons, List.not_mem_nil, or_false] at hsign
    rcases hsign with rfl | rfl | rfl
    · have hplain := unseparated_mem_looseDigits (by decide) hds
      exact ⟨n, by simp [NumberReader.exponent, signed_eq_natural hds, hn],
        by simp [NumberReader.exponent, signed_eq_natural hplain, hn']⟩
    · exact ⟨n, by simp [NumberReader.exponent, NumberReader.signed, hn],
        by simp [NumberReader.exponent, NumberReader.signed, hn']⟩
    · exact ⟨-n, by simp [NumberReader.exponent, NumberReader.signed, hn],
        by simp [NumberReader.exponent, NumberReader.signed, hn']⟩

theorem keepsValue (h : DecimalParts g f e) : KeepsValue (g ++ f ++ e) := by
  obtain ⟨d, ds, hds, hds', hwhole⟩ := h.exists_whole
  obtain ⟨fs, hfs, hfs'⟩ := h.exists_fraction
  obtain ⟨x, hx, hx'⟩ := h.exists_exponent
  refine ⟨Nat.ofDigits 10 (d :: ds ++ fs).reverse * 10 ^ (x - fs.length), ?_, ?_⟩
  · rw [h.value_eq, decimalValue_eq hds hfs hx]
    rfl
  · have hvalue := h.stripped.value_eq (r := .strict)
    rw [decimalValue_eq hds' hfs' hx', hwhole] at hvalue
    rw [unseparated_append, unseparated_append] at hvalue ⊢
    rw [hvalue]
    cases hasLeadingZero (_ ++ _ ++ _) <;> rfl

end DecimalParts

/-! ## All numbers -/

theorem keepsValue_of_mem {w : List Char} (hw : w ∈ (numbersOf looseDigits).matches') :
    KeepsValue w := by
  rcases hw with ((hw | hw) | hw) | hw
  · exact keepsValue_marked 16 (by decide) (by decide) hw
  · exact keepsValue_marked 2 (by decide) (by decide) hw
  · exact keepsValue_marked 8 (by decide) (by decide) hw
  · obtain ⟨g, f, e, hparts, rfl⟩ := mem_decimalOf_iff.mp hw
    exact hparts.keepsValue

theorem parseFrom_number_of_mem (settings : Settings) (text : String)
    (hlimit : 2 ≤ settings.maxDepth) (h : text.toList ∈ numbers.matches') :
    (grammar.parseFrom settings .number text).outcome = .ok (.ofNode (Expr.number text)) := by
  have hdone : (grammar.parseFrom settings .number text).session.overflow = none :=
    Grammar.overflow_eq_none_of_fits (by decide) hlimit
  exact Grammar.parseFrom_eq_ok_of_reads (reads_number_of_mem_numbers h) hdone

/-- A text that is parsed as a number has a value, as it stands.  Lowered, it is a number of
JavaScript with the same value, unless it has a zero at its start that does not count. -/
theorem value_number_of_parseFrom {settings : Settings} {text : String} {value : Value Piece}
    (h : (grammar.parseFrom settings .number text).outcome = .ok value) :
    value = .ofNode (Expr.number text) ∧
      (∀ s, exprText (.number text) s = .ok (number text, s)) ∧
      ∃ q, NumberReader.separated.value text.toList = some q ∧
        NumberReader.strict.value (number text).toList =
          if hasLeadingZero (number text).toList then none else some q := by
  have hmem := mem_numbers_of_isNumber ⟨settings, value, h⟩
  refine ⟨?_, fun s => rfl, ?_⟩
  · have hlimit := two_le_maxDepth (Grammar.overflow_eq_none_of_ok h)
    rw [parseFrom_number_of_mem settings text hlimit hmem] at h
    exact (Except.ok.inj h).symm
  · rw [number, String.toList_ofList]
    exact keepsValue_of_mem (mem_numbers_iff.mp hmem).1

/-- Separators before the point, and a negative exponent. -/
theorem value_number_of_parseFrom_separators :
    (grammar.parseFrom {} .number "1_0.5e-2").outcome = .ok (.ofNode (Expr.number "1_0.5e-2")) ∧
      (∃ q, NumberReader.separated.value "1_0.5e-2".toList = some q ∧
        NumberReader.strict.value (number "1_0.5e-2").toList =
          if hasLeadingZero (number "1_0.5e-2").toList then none else some q) ∧
      NumberReader.strict.value (number "1_0.5e-2").toList = some (21 / 200) := by
  have hok := parseFrom_number_of_mem {} "1_0.5e-2" (by decide) (by decide)
  refine ⟨hok, (value_number_of_parseFrom hok).2.2, ?_⟩
  decide +kernel

/-- Ten, with a zero before it, is a number that JavaScript refuses in strict mode. -/
theorem value_leadingZero :
    (grammar.parseFrom {} .number "010").outcome = .ok (.ofNode (Expr.number "010")) ∧
      NumberReader.separated.value "010".toList = some 10 ∧ number "010" = "010" ∧
      NumberReader.strict.value "010".toList = none := by
  refine ⟨parseFrom_number_of_mem {} "010" (by decide) (by decide), ?_, rfl, ?_⟩
  · decide +kernel
  · decide

end JavaScript

end PegScript

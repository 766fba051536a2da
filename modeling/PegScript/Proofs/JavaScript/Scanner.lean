import PegScript.JavaScript.Literal
import PegScript.Proofs.Tree.Names
import PegScript.Proofs.Tree.WellFormed

/-!
# Scanning JavaScript text

A scanner follows what is open in a JavaScript text: brackets, strings between double quotes,
templates, and the substitutions in them.  A text is balanced if the scanner comes back to where it
started.  The main results are about literals: whatever text they hold, it does not end them early.
-/

namespace PegScript

namespace JavaScript

/-- A bracket that is open, or a substitution in a template. -/
inductive Opener where
  | paren
  | bracket
  | brace
  | substitution
deriving DecidableEq, Repr

/-- What a scanner stands in. -/
inductive Mode where
  | code
  | string
  /-- Behind a backslash in a string. -/
  | stringEscape
  | template
  /-- Behind a backslash in a template. -/
  | templateEscape
  /-- Behind a dollar sign in a template, where a brace opens a substitution. -/
  | templateDollar
deriving DecidableEq, Repr

structure Scanner where
  mode : Mode := .code
  /-- What is open around the place, innermost first. -/
  opened : List Opener := []
deriving DecidableEq, Repr

namespace Scanner

/-- Closes the innermost bracket, if it is of that kind. -/
def close (opener : Opener) : List Opener → Option Scanner
  | [] => none
  | top :: opened => if top = opener then some ⟨.code, opened⟩ else none

/-- A character outside of strings and templates. -/
def stepCode (opened : List Opener) : Char → Option Scanner
  | '(' => some ⟨.code, .paren :: opened⟩
  | '[' => some ⟨.code, .bracket :: opened⟩
  | '\x7b' => some ⟨.code, .brace :: opened⟩
  | ')' => close .paren opened
  | ']' => close .bracket opened
  | '\x7d' =>
    match opened with
    | .substitution :: opened => some ⟨.template, opened⟩
    | _ => close .brace opened
  | '"' => some ⟨.string, opened⟩
  | '\x60' => some ⟨.template, opened⟩
  | _ => some ⟨.code, opened⟩

/-- The mode behind a character of a string. -/
def stringMode : Char → Mode
  | '"' => .code
  | '\\' => .stringEscape
  | _ => .string

/-- The mode behind a character of a template. -/
def templateMode : Char → Mode
  | '\x60' => .code
  | '\\' => .templateEscape
  | '$' => .templateDollar
  | _ => .template

/-- The scanner behind one more character, unless that closes something that is not open. -/
def step : Scanner → Char → Option Scanner
  | ⟨.code, opened⟩, c => stepCode opened c
  | ⟨.string, opened⟩, c => some ⟨stringMode c, opened⟩
  | ⟨.stringEscape, opened⟩, _ => some ⟨.string, opened⟩
  | ⟨.template, opened⟩, c => some ⟨templateMode c, opened⟩
  | ⟨.templateEscape, opened⟩, _ => some ⟨.template, opened⟩
  | ⟨.templateDollar, opened⟩, '\x7b' => some ⟨.code, .substitution :: opened⟩
  | ⟨.templateDollar, opened⟩, c => some ⟨templateMode c, opened⟩

def scanChars (s : Scanner) (cs : List Char) : Option Scanner :=
  cs.foldlM step s

/-- The scanner behind a text. -/
def scan (s : Scanner) (text : String) : Option Scanner :=
  s.scanChars text.toList

@[simp]
theorem scanChars_nil (s : Scanner) : s.scanChars [] = some s := rfl

@[simp]
theorem scanChars_cons (s : Scanner) (c : Char) (cs : List Char) :
    s.scanChars (c :: cs) = (s.step c).bind (·.scanChars cs) := rfl

theorem scanChars_append (s : Scanner) (cs cs' : List Char) :
    s.scanChars (cs ++ cs') = (s.scanChars cs).bind (·.scanChars cs') :=
  List.foldlM_append

@[simp]
theorem scan_append (s : Scanner) (t t' : String) :
    s.scan (t ++ t') = (s.scan t).bind (·.scan t') := by
  unfold scan
  rw [String.toList_append, scanChars_append]

@[simp]
theorem scan_ofList (s : Scanner) (cs : List Char) :
    s.scan (String.ofList cs) = s.scanChars cs := by
  rw [scan, String.toList_ofList]

end Scanner

open Scanner PegScript.Language

/-- In code, the text leaves open what was open before, and nothing else. -/
def Balanced (text : String) : Prop :=
  ∀ opened, scan ⟨.code, opened⟩ text = some ⟨.code, opened⟩

/-- The fact in the form of a rewriting rule. -/
@[simp]
theorem scan_of_balanced {text : String} (h : Balanced text) (opened : List Opener) :
    scan ⟨.code, opened⟩ text = some ⟨.code, opened⟩ :=
  h opened

/-! ## Texts without delimiters -/

instance (text : String) : Decidable (Quiet text) :=
  inferInstanceAs (Decidable (∀ c ∈ text.toList, c ∉ delimiters))

theorem stepCode_of_notMem {c : Char} (hc : c ∉ delimiters) (opened : List Opener) :
    stepCode opened c = some ⟨.code, opened⟩ := by
  simp only [delimiters, List.mem_cons, List.not_mem_nil, or_false, not_or] at hc
  unfold stepCode
  split <;> simp_all

/-- Only a delimiter leads from a string or a template to code. -/
theorem eq_code_of_step {s : Scanner} {c : Char} {opened : List Opener} (hc : c ∉ delimiters)
    (h : s.step c = some ⟨.code, opened⟩) : s = ⟨.code, opened⟩ := by
  have hstring : stringMode c ≠ .code := by
    unfold stringMode
    split <;> simp_all [delimiters]
  have htemplate : templateMode c ≠ .code := by
    unfold templateMode
    split <;> simp_all [delimiters]
  have hbrace : c ≠ '\x7b' := by
    rintro rfl
    exact hc (by decide)
  obtain ⟨mode, opened'⟩ := s
  cases mode with
  | code =>
      rw [step, stepCode_of_notMem hc] at h
      exact Option.some.inj h
  | templateDollar =>
      rw [step] at h
      · simp [htemplate] at h
      · exact hbrace
  | _ => simp_all [step]

theorem balanced_of_quiet {text : String} (h : Quiet text) : Balanced text := by
  intro opened
  unfold scan
  unfold Quiet at h
  generalize text.toList = cs at h ⊢
  induction cs with
  | nil => rfl
  | cons c cs ih =>
      obtain ⟨hc, hcs⟩ := List.forall_mem_cons.mp h
      rw [scanChars_cons, step, stepCode_of_notMem hc]
      exact ih hcs

@[simp]
theorem scan_of_quiet {text : String} (h : Quiet text) (opened : List Opener) :
    scan ⟨.code, opened⟩ text = some ⟨.code, opened⟩ :=
  balanced_of_quiet h opened

theorem quiet_of_isName {name : String} (h : isName name = true) : Quiet name := by
  have hpart : ∀ c ∈ delimiters, isNamePart c = false := by decide
  intro c hc hdelimiter
  have hname := List.all_eq_true.mp (all_isNamePart_of_isName h) c hc
  rw [hpart c hdelimiter] at hname
  cases hname

theorem quiet_of_isVariable {name : String} (h : isVariable name = true) : Quiet name := by
  rw [isVariable, Bool.and_eq_true] at h
  exact quiet_of_isName h.1

theorem quiet_number {text : String} (h : Quiet text) : Quiet (number text) := by
  intro c hc
  simp only [number, String.toList_ofList, List.mem_filter] at hc
  exact h c hc.1

@[simp]
theorem quiet_repr (n : Nat) : Quiet n.repr := by
  have hdigit : ∀ c ∈ delimiters, c.isDigit = false := by decide
  intro c hc hdelimiter
  rw [Nat.toList_repr] at hc
  have hc' := Nat.isDigit_of_mem_toDigits (by decide) (by decide) hc
  rw [hdigit c hdelimiter] at hc'
  cases hc'

/-! ## Strings -/

/-- In a string, the characters do not end it. -/
def StaysInString (cs : List Char) : Prop :=
  ∀ opened, scanChars ⟨.string, opened⟩ cs = some ⟨.string, opened⟩

theorem StaysInString.append {cs cs' : List Char} (h : StaysInString cs) (h' : StaysInString cs') :
    StaysInString (cs ++ cs') := by
  intro opened
  rw [scanChars_append, h opened]
  exact h' opened

theorem StaysInString.balanced {cs : List Char} (h : StaysInString cs) :
    Balanced ("\"" ++ String.ofList cs ++ "\"") := by
  intro opened
  have hopen : scan ⟨.code, opened⟩ "\"" = some ⟨.string, opened⟩ := rfl
  have hclose : scan ⟨.string, opened⟩ "\"" = some ⟨.code, opened⟩ := rfl
  simp [hopen, hclose, h opened]

theorem copyEscapes_escape (other : Char → List Char → List Char) (c : Char) (rest : List Char) :
    copyEscapes other ('\\' :: c :: rest) =
      (if c = '#' then ['#'] else ['\\', c]) ++ copyEscapes other rest := by
  by_cases hc : c = '#'
  · simp [copyEscapes, hc]
  · simp [copyEscapes, hc]

theorem copyEscapes_other (other : Char → List Char → List Char) {c : Char} (hc : c ≠ '\\')
    (rest : List Char) :
    copyEscapes other (c :: rest) = other c rest ++ copyEscapes other rest := by
  simp [copyEscapes, hc]

theorem staysInString_escape (c : Char) :
    StaysInString (if c = '#' then ['#'] else ['\\', c]) := by
  intro opened
  split <;> rfl

theorem staysInString_char {c : Char} (hquote : c ≠ '"') (hslash : c ≠ '\\') :
    StaysInString [c] := by
  have hmode : stringMode c = .string := by
    unfold stringMode
    split <;> simp_all
  intro opened
  rw [scanChars_cons, step, hmode]
  rfl

theorem staysInString_copy {cs : List Char} (h : IsStringText cs) :
    StaysInString (copyEscapes plainChar cs) := by
  induction h with
  | nil => exact fun _ => rfl
  | @escape c rest _ ih =>
      rw [copyEscapes_escape]
      exact (staysInString_escape c).append ih
  | @plain c rest hquote hslash _ _ ih =>
      rw [copyEscapes_other _ hslash]
      refine StaysInString.append ?_ ih
      unfold plainChar
      split
      · exact fun _ => rfl
      · exact fun _ => rfl
      · exact staysInString_char hquote hslash

theorem balanced_plain {text : String} (h : IsStringText text.toList) : Balanced (plain text) :=
  (staysInString_copy h).balanced

theorem staysInString_rawChar (c : Char) : StaysInString (rawChar c) := by
  unfold rawChar
  split
  case h_5 hslash hquote _ _ => exact staysInString_char hquote hslash
  all_goals exact fun _ => rfl

/-- Any text can stand in a string without escapes. -/
theorem balanced_raw (text : String) : Balanced (raw text) := by
  refine StaysInString.balanced ?_
  induction text.toList with
  | nil => exact fun _ => rfl
  | cons c cs ih => exact (staysInString_rawChar c).append ih

/-! ## Templates -/

/-- The scanner stands in a template, and not behind a backslash. -/
def Mode.InTemplate (m : Mode) : Prop :=
  m = .template ∨ m = .templateDollar

/-- In a template, the text does not end it, and leaves open what was open. -/
def StaysInTemplate (m : Mode) (cs : List Char) : Prop :=
  ∀ opened, ∃ m' : Mode, m'.InTemplate ∧ scanChars ⟨m, opened⟩ cs = some ⟨m', opened⟩

theorem staysInTemplate_nil {m : Mode} (hm : m.InTemplate) : StaysInTemplate m [] :=
  fun _ => ⟨m, hm, rfl⟩

/-- The first of the characters have the template go on in another mode. -/
theorem StaysInTemplate.after {m m' : Mode} {cs cs' : List Char} (h : StaysInTemplate m' cs')
    (hfirst : ∀ opened, scanChars ⟨m, opened⟩ cs = some ⟨m', opened⟩) :
    StaysInTemplate m (cs ++ cs') := by
  intro opened
  obtain ⟨m'', hm'', hrest⟩ := h opened
  refine ⟨m'', hm'', ?_⟩
  rw [scanChars_append, hfirst]
  exact hrest

theorem StaysInTemplate.append {m : Mode} {cs cs' : List Char} (h : StaysInTemplate m cs)
    (h' : ∀ m', m'.InTemplate → StaysInTemplate m' cs') : StaysInTemplate m (cs ++ cs') := by
  intro opened
  obtain ⟨m', hm', hfirst⟩ := h opened
  obtain ⟨m'', hm'', hrest⟩ := h' m' hm' opened
  refine ⟨m'', hm'', ?_⟩
  rw [scanChars_append, hfirst]
  exact hrest

/-- Behind a dollar sign only a brace is special. -/
theorem step_inTemplate {m : Mode} (hm : m.InTemplate) {c : Char}
    (hc : m = .templateDollar → c ≠ '\x7b') (opened : List Opener) :
    step ⟨m, opened⟩ c = some ⟨templateMode c, opened⟩ := by
  rcases hm with rfl | rfl
  · rfl
  · unfold step
    split <;> simp_all

theorem templateMode_of_ne {c : Char} (hquote : c ≠ '\x60') (hslash : c ≠ '\\')
    (hdollar : c ≠ '$') : templateMode c = .template := by
  unfold templateMode
  split <;> simp_all

/-- The characters have a scanner go through modes of a template only, and open nothing. -/
inductive Within : Mode → List Char → Mode → Prop where
  | nil {m : Mode} : Within m [] m
  | cons {m m' m'' : Mode} {c : Char} {cs : List Char}
      (hstep : ∀ opened, step ⟨m, opened⟩ c = some ⟨m', opened⟩) (hcode : m' ≠ .code)
      (h : Within m' cs m'') : Within m (c :: cs) m''

theorem Within.append {m m' m'' : Mode} {cs cs' : List Char} (h : Within m cs m')
    (h' : Within m' cs' m'') : Within m (cs ++ cs') m'' := by
  induction h with
  | nil => exact h'
  | cons hstep hcode _ ih => exact .cons hstep hcode (ih h')

theorem Within.scanChars {m m' : Mode} {cs : List Char} (h : Within m cs m')
    (opened : List Opener) : scanChars ⟨m, opened⟩ cs = some ⟨m', opened⟩ := by
  induction h with
  | nil => rfl
  | cons hstep _ _ ih =>
      rw [scanChars_cons, hstep]
      exact ih

theorem within_char {m : Mode} (hm : m.InTemplate) {c : Char}
    (hopen : m = .templateDollar → c ≠ '\x7b') (hquote : c ≠ '\x60') :
    Within m [c] (templateMode c) := by
  refine .cons (step_inTemplate hm hopen) ?_ .nil
  unfold templateMode
  split <;> simp_all

theorem within_escape {m : Mode} (hm : m.InTemplate) (c : Char) : Within m ['\\', c] .template :=
  .cons (step_inTemplate hm fun _ => by decide) (by decide)
    (.cons (fun _ => rfl) (by decide) .nil)

theorem within_templateEscape {m : Mode} (hm : m.InTemplate) (c : Char) :
    Within m (if c = '#' then ['#'] else ['\\', c]) .template := by
  split
  · exact within_char hm (fun _ => by decide) (by decide)
  · exact within_escape hm c

/-- The text of a string can stand in a template.  Behind a dollar sign it must not start with a
brace. -/
theorem within_copy {cs : List Char} (h : IsStringText cs) {m : Mode} (hm : m.InTemplate)
    (hhead : m = .templateDollar → cs.head? ≠ some '\x7b') :
    ∃ m' : Mode, m'.InTemplate ∧ Within m (copyEscapes templateChar cs) m' := by
  have htemplate : Mode.template.InTemplate := Or.inl rfl
  induction h generalizing m with
  | nil => exact ⟨m, hm, .nil⟩
  | @escape c rest _ ih =>
      obtain ⟨m', hm', hrest⟩ := ih htemplate (by simp)
      rw [copyEscapes_escape]
      exact ⟨m', hm', (within_templateEscape hm c).append hrest⟩
  | @plain c rest _ hslash _ _ ih =>
      rw [copyEscapes_other _ hslash]
      have hescape : ∃ m' : Mode, m'.InTemplate ∧
          Within m (['\\', c] ++ copyEscapes templateChar rest) m' := by
        obtain ⟨m', hm', hrest⟩ := ih htemplate (by simp)
        exact ⟨m', hm', (within_escape hm c).append hrest⟩
      unfold templateChar
      split
      case isTrue => exact hescape
      case isFalse hquote =>
        split
        case isTrue => exact hescape
        case isFalse hopens =>
          have hplain := within_char hm (by simpa using hhead) hquote
          -- A dollar sign that stands for itself has no brace behind it.
          have hmode : (templateMode c).InTemplate ∧
              (templateMode c = .templateDollar → rest.head? ≠ some '\x7b') := by
            by_cases hdollar : c = '$'
            · subst hdollar
              exact ⟨Or.inr rfl, fun _ hbrace => hopens ⟨rfl, hbrace⟩⟩
            · rw [templateMode_of_ne hquote hslash hdollar]
              exact ⟨htemplate, by simp⟩
          obtain ⟨m', hm', hrest⟩ := ih hmode.1 hmode.2
          exact ⟨m', hm', hplain.append hrest⟩

theorem staysInTemplate_copy {cs : List Char} (h : IsStringText cs) {m : Mode} (hm : m.InTemplate)
    (hhead : m = .templateDollar → cs.head? ≠ some '\x7b') :
    StaysInTemplate m (copyEscapes templateChar cs) := by
  obtain ⟨m', hm', hwithin⟩ := within_copy h hm hhead
  exact fun opened => ⟨m', hm', hwithin.scanChars opened⟩

/-- A substitution can stand anywhere in a template. -/
theorem scanChars_substitution {text : String} (h : Balanced text) {m : Mode} (hm : m.InTemplate)
    (opened : List Opener) :
    scanChars ⟨m, opened⟩ ("$\x7b" ++ text ++ "\x7d").toList = some ⟨.template, opened⟩ := by
  have hopen : scan ⟨m, opened⟩ "$\x7b" = some ⟨.code, .substitution :: opened⟩ := by
    rcases hm with rfl | rfl <;> rfl
  have hclose : scan ⟨.code, .substitution :: opened⟩ "\x7d" = some ⟨.template, opened⟩ := rfl
  change scan ⟨m, opened⟩ _ = _
  simp [hopen, hclose, h]

theorem StaysInTemplate.balanced {text : String} (h : StaysInTemplate .template text.toList) :
    Balanced ("\x60" ++ text ++ "\x60") := by
  intro opened
  obtain ⟨m, hm, hscan⟩ := h opened
  have hopen : scan ⟨.code, opened⟩ "\x60" = some ⟨.template, opened⟩ := rfl
  have hclose : scan ⟨m, opened⟩ "\x60" = some ⟨.code, opened⟩ := by
    rcases hm with rfl | rfl <;> rfl
  have htext : scan ⟨.template, opened⟩ text = some ⟨m, opened⟩ := hscan
  simp [hopen, htext, hclose]

end JavaScript

end PegScript

import PegScript.Proofs.JavaScript.Balance
import PegScript.Proofs.Semantics.ListedTable

/-!
# Reading templates

A reader of templates follows a scanner to the end of the literal, and takes it apart at the
substitutions.  The main result is that it finds in the literal for a string what the string has:
one stretch for each part, in the same order, with the text of the part or the text that the
expression was lowered to.

Within a text the reader stays in the modes of a template (`Within`).  A substitution is balanced,
so that a scanner comes through it without regard to what is open around it (`step_append`), and the
brace behind it is the first to close it.
-/

namespace PegScript

namespace JavaScript

open Lower Scanner PegScript.Language

/-- What a template is made of: characters of its own, and the code between the braces of a
substitution. -/
inductive Stretch where
  | text (chars : List Char)
  | substitution (code : List Char)
deriving DecidableEq, Repr

/-- Between two substitutions there need not be a text. -/
def textStretch : List Char → List Stretch
  | [] => []
  | chars => [.text chars]

/-- More stretches before those that a reader finds. -/
def precede (stretches : List Stretch) :
    Option (List Stretch × List Char) → Option (List Stretch × List Char) :=
  Option.map (Prod.map (stretches ++ ·) id)

@[simp]
theorem precede_some (stretches more : List Stretch) (k : List Char) :
    precede stretches (some (more, k)) = some (stretches ++ more, k) := rfl

@[simp]
theorem precede_precede (stretches more : List Stretch) (r : Option (List Stretch × List Char)) :
    precede stretches (precede more r) = precede (stretches ++ more) r := by
  cases r with
  | none => rfl
  | some r =>
      obtain ⟨last, k⟩ := r
      simp

/-- Follows a scanner that entered a template with nothing else open.  The characters that it holds
belong to the stretch that is not at its end yet. -/
def followTemplate (s : Scanner) (held : List Char) :
    List Char → Option (List Stretch × List Char)
  | [] => none
  | c :: cs =>
    (s.step c).bind fun s' =>
      if s.opened ≠ [] then
        if s'.opened = [] then precede [.substitution held] (followTemplate s' [] cs)
        else followTemplate s' (held ++ [c]) cs
      else if s'.mode ≠ .code then followTemplate s' (held ++ [c]) cs
      else if s'.opened = [] then some (textStretch held, cs)
      -- The last character is the dollar sign of the substitution.
      else precede (textStretch held.dropLast) (followTemplate s' [] cs)

/-- The stretches of the template at the start of the text, and what is behind it. -/
def readTemplate : List Char → Option (List Stretch × List Char)
  | '\x60' :: cs => followTemplate ⟨.template, []⟩ [] cs
  | _ => none

/-- What a part of a string should be in a template. -/
def stretchOf : StrPart → Lower Stretch
  | .text text => pure (.text (templateText text).toList)
  | .expr e => do return .substitution (grouped e (← exprText e)).toList

/-! ## Steps within a stretch -/

section Steps

variable {m m' : Mode} {s : Scanner} {c : Char} {o o' : List Opener} {cs : List Char}

theorem followTemplate_within (h : Within m cs m') (held k : List Char) :
    followTemplate ⟨m, []⟩ held (cs ++ k) = followTemplate ⟨m', []⟩ (held ++ cs) k := by
  induction h generalizing held with
  | nil => simp
  | cons hstep hcode _ ih =>
      rw [List.cons_append, followTemplate, hstep]
      simp [hcode, ih]

theorem close_append {opener : Opener} (h : close opener o = some s) (base : List Opener) :
    close opener (o ++ base) = some ⟨s.mode, s.opened ++ base⟩ := by
  cases o with
  | nil => cases h
  | cons top o =>
      rw [close] at h
      rw [List.cons_append, close]
      split at h
      case isTrue htop =>
        cases h
        rw [if_pos htop]
      case isFalse => cases h

theorem stepCode_append (h : stepCode o c = some s) (base : List Opener) :
    stepCode (o ++ base) c = some ⟨s.mode, s.opened ++ base⟩ := by
  unfold stepCode at h ⊢
  split at h
  case h_4 => exact close_append h base
  case h_5 => exact close_append h base
  case h_6 =>
    split at h
    case h_1 =>
      cases h
      rfl
    case h_2 hother =>
      cases o with
      | nil => cases h
      | cons top o =>
          have htop : top ≠ .substitution := fun heq => hother o (by rw [heq])
          cases top with
          | substitution => exact absurd rfl htop
          | paren | bracket | brace => exact close_append h base
  all_goals
    cases h
    rfl

/-- What is open around it means nothing to a scanner that does not leave it. -/
theorem step_append (h : step ⟨m, o⟩ c = some s) (base : List Opener) :
    step ⟨m, o ++ base⟩ c = some ⟨s.mode, s.opened ++ base⟩ := by
  cases m with
  | code => exact stepCode_append h base
  | string | stringEscape | template | templateEscape =>
      cases h
      rfl
  | templateDollar =>
      by_cases hc : c = '\x7b'
      · subst hc
        cases h
        rfl
      · rw [step_inTemplate (Or.inr rfl) fun _ => hc] at h ⊢
        cases h
        rfl

/-- In a substitution, the reader holds whatever does not close it. -/
theorem followTemplate_inside (h : scanChars ⟨m, o⟩ cs = some ⟨m', o'⟩) (held k : List Char) :
    followTemplate ⟨m, o ++ [.substitution]⟩ held (cs ++ k) =
      followTemplate ⟨m', o' ++ [.substitution]⟩ (held ++ cs) k := by
  induction cs generalizing m o held with
  | nil =>
      cases h
      simp
  | cons c cs ih =>
      rw [scanChars_cons] at h
      obtain ⟨⟨m₁, o₁⟩, hstep, hrest⟩ := Option.bind_eq_some_iff.mp h
      rw [List.cons_append, followTemplate, step_append hstep]
      simp [ih hrest]

end Steps

/-! ## Ends of stretches -/

section Ends

variable {m : Mode}

theorem followTemplate_end (hm : m.InTemplate) (held k : List Char) :
    followTemplate ⟨m, []⟩ held ('\x60' :: k) = some (textStretch held, k) := by
  rcases hm with rfl | rfl <;> rfl

/-- A substitution with a balanced text is a stretch of its own. -/
theorem followTemplate_substitution {text : String} (hm : m.InTemplate) (h : Balanced text)
    (held k : List Char) :
    followTemplate ⟨m, []⟩ held (("$\x7b" ++ text ++ "\x7d").toList ++ k) =
      precede (textStretch held ++ [.substitution text.toList])
        (followTemplate ⟨.template, []⟩ [] k) := by
  have hopen (cs : List Char) : followTemplate ⟨m, []⟩ held ('$' :: '\x7b' :: cs) =
      precede (textStretch held) (followTemplate ⟨.code, [.substitution]⟩ [] cs) := by
    have hdollar : step ⟨m, []⟩ '$' = some ⟨.templateDollar, []⟩ :=
      step_inTemplate hm (fun _ => by decide) []
    have hbrace : step ⟨.templateDollar, []⟩ '\x7b' = some ⟨.code, [.substitution]⟩ := rfl
    simp [followTemplate, hdollar, hbrace]
  have hinside := followTemplate_inside (o := []) (h []) [] ('\x7d' :: k)
  have hclose : followTemplate ⟨.code, [.substitution]⟩ text.toList ('\x7d' :: k) =
      precede [.substitution text.toList] (followTemplate ⟨.template, []⟩ [] k) := rfl
  have hchars : ("$\x7b" ++ text ++ "\x7d").toList ++ k =
      '$' :: '\x7b' :: (text.toList ++ '\x7d' :: k) := by
    simp
  rw [hchars, hopen]
  rw [List.nil_append, List.nil_append] at hinside
  rw [hinside, hclose, precede_precede]

end Ends

/-! ## Whole templates -/

theorem copyEscapes_ne_nil {other : Char → List Char → List Char} {cs : List Char}
    (h : IsStringText cs) (hother : ∀ c rest, other c rest ≠ []) (hcs : cs ≠ []) :
    copyEscapes other cs ≠ [] := by
  cases h with
  | nil => exact absurd rfl hcs
  | escape c =>
      rw [copyEscapes_escape]
      split <;> simp
  | plain _ hslash =>
      rw [copyEscapes_other _ hslash]
      simp [hother]

theorem templateChar_ne_nil (c : Char) (rest : List Char) : templateChar c rest ≠ [] := by
  unfold templateChar
  split
  · simp
  · split <;> simp

theorem textStretch_templateText {text : String} (hne : text ≠ "") (h : IsStringText text.toList) :
    textStretch (templateText text).toList = [.text (templateText text).toList] := by
  have hchars : (templateText text).toList ≠ [] := by
    rw [templateText, String.toList_ofList]
    exact copyEscapes_ne_nil h templateChar_ne_nil (by simpa using hne)
  unfold textStretch
  split
  · contradiction
  · rfl

/-- A reader that stands before the texts finds the stretches.  What it holds already is a text of
its own then, so that the first of the parts must not be another text. -/
def ReadsAs (parts : List StrPart) (texts : List String) (stretches : List Stretch) : Prop :=
  ∀ (m : Mode) (held k : List Char), m.InTemplate →
    (m = .template ∧ held = [] ∨ ∀ p ∈ parts.head?, p.isText = false) →
    followTemplate ⟨m, []⟩ held ((String.join texts).toList ++ '\x60' :: k) =
      some (textStretch held ++ stretches, k)

theorem readsAs_nil : ReadsAs [] [] [] := by
  intro m held k hm _
  simpa using followTemplate_end hm held k

section Parts

variable {parts : List StrPart} {texts : List String} {stretches : List Stretch}

theorem ReadsAs.text {text : String} (h : ReadsAs parts texts stretches)
    (hparts : StringParts (.text text :: parts)) :
    ReadsAs (.text text :: parts) (templateText text :: texts)
      (.text (templateText text).toList :: stretches) := by
  rintro m held k - (⟨rfl, rfl⟩ | hapart)
  · obtain ⟨hne, htext⟩ := hparts.texts text List.mem_cons_self
    obtain ⟨m, hm, hwithin⟩ := within_copy htext (m := .template) (Or.inl rfl) (by simp)
    have hchars : (templateText text).toList = copyEscapes templateChar text.toList :=
      String.toList_ofList
    rw [String.join_cons, String.toList_append, List.append_assoc, hchars,
      followTemplate_within hwithin, ← hchars, List.nil_append,
      h m _ k hm (.inr fun p hp => hparts.isText_eq_false hp), textStretch_templateText hne htext]
    rfl
  · cases hapart (.text text) rfl

theorem ReadsAs.expr {e : Expr} {code : String} (h : ReadsAs parts texts stretches)
    (hcode : Balanced code) :
    ReadsAs (.expr e :: parts) (("$\x7b" ++ code ++ "\x7d") :: texts)
      (.substitution code.toList :: stretches) := by
  intro m held k hm _
  rw [String.join_cons, String.toList_append, List.append_assoc,
    followTemplate_substitution hm hcode, h .template [] k (Or.inl rfl) (.inl ⟨rfl, rfl⟩)]
  simp [textStretch]

theorem stretchOf_expr {e : Expr} {code : String} {s s' : Emitter}
    (h : exprText e s = .ok (code, s')) :
    stretchOf (.expr e) s = .ok (.substitution (grouped e code).toList, s') := by
  rw [stretchOf, bind_apply, h]
  rfl

theorem mapM_stretchOf_cons {part : StrPart} {stretch : Stretch} {s s₁ s' : Emitter}
    (hpart : stretchOf part s = .ok (stretch, s₁))
    (hparts : parts.mapM stretchOf s₁ = .ok (stretches, s')) :
    (part :: parts).mapM stretchOf s = .ok (stretch :: stretches, s') := by
  rw [List.mapM_cons, bind_apply, hpart]
  change (parts.mapM stretchOf >>= _) s₁ = _
  rw [bind_apply, hparts]
  rfl

/-- Lowering the parts gives texts that are read as the stretches for the parts. -/
theorem exists_readsAs (hparts : StringParts parts) (hsound : Sound (partsPieces parts))
    {s s' : Emitter} (hs : s.Knows Quiet) (hrun : partTexts parts s = .ok (texts, s')) :
    ∃ stretches, parts.mapM stretchOf s = .ok (stretches, s') ∧
      ReadsAs parts texts stretches := by
  induction parts generalizing s texts with
  | nil =>
      cases hrun
      exact ⟨[], rfl, readsAs_nil⟩
  | cons part parts ih =>
      obtain ⟨first, s₁, hfirst, hrest⟩ := bind_eq_ok hrun
      obtain ⟨more, s₂, hmore, hresult⟩ := bind_eq_ok hrest
      cases hresult
      cases part with
      | text text =>
          cases hfirst
          obtain ⟨stretches, hstretches, hread⟩ := ih hparts.tail hsound.right hs hmore
          exact ⟨_, mapM_stretchOf_cons rfl hstretches, hread.text hparts⟩
      | expr e =>
          obtain ⟨code, s₁', hcode, hgroup⟩ := bind_eq_ok hfirst
          cases hgroup
          obtain ⟨hs₁, hbalanced⟩ := balanced_exprText e hsound.left.tail s _ _ hs hcode
          obtain ⟨stretches, hstretches, hread⟩ := ih hparts.tail hsound.right hs₁ hmore
          exact ⟨_, mapM_stretchOf_cons (stretchOf_expr hcode) hstretches,
            hread.expr (balanced_grouped hbalanced)⟩

end Parts

/-- A template that a string is lowered to can be read back, part by part, whatever stands behind
it: the reader finds the texts of the string, and a substitution for each of its expressions, with
the text that lowering the expression gives at that place. -/
theorem readTemplate_exprText {c : Cursor} {m : Reading Piece} {parts : List StrPart}
    (hread : Derives grammar (.rule .string) c (some m))
    (hvalue : m.value = .ofNode (Expr.str parts)) (htemplate : singleLine? parts = none)
    {s s' : Emitter} (hs : s.Knows Quiet) {text : String}
    (hrun : exprText (.str parts) s = .ok (text, s')) :
    ∃ stretches, parts.mapM stretchOf s = .ok (stretches, s') ∧
      ∀ k, readTemplate (text.toList ++ k) = some (stretches, k) := by
  have hsound := sound_of_derives_string hread hvalue
  rw [exprText, htemplate] at hrun
  obtain ⟨texts, s₁, htexts, hresult⟩ := bind_eq_ok hrun
  cases hresult
  obtain ⟨stretches, hstretches, hreads⟩ := exists_readsAs hsound.head.1 hsound.tail hs htexts
  refine ⟨stretches, hstretches, fun k => ?_⟩
  have hfollow := hreads .template [] k (Or.inl rfl) (.inl ⟨rfl, rfl⟩)
  simpa [readTemplate, textStretch] using hfollow

/-- A string with a string in it. -/
def nestedString : String :=
  "\"a$#\x7b\"#\x7bx\x7d\x60\"\x7d\x7b\""

/-- The template for it. -/
def nestedTemplate : String :=
  "\x60a$$\x7b\x60$\x7bx\x7d\\\x60\x60\x7d\x7b\x60"

/-- A text that does not start with a quote is not that of a single line. -/
theorem singleLine?_eq_none {parts : List StrPart} {s s' : Emitter} {text : String}
    (hrun : exprText (.str parts) s = .ok (text, s')) (hquote : text.toList.head? ≠ some '"') :
    singleLine? parts = none := by
  cases hline : singleLine? parts with
  | none => rfl
  | some line =>
      rw [exprText, hline] at hrun
      cases hrun
      exact absurd (by simp [plain]) hquote

theorem nestedString_lowered :
    ∃ m parts s', Derives grammar (.rule .string) (Cursor.start nestedString) (some m) ∧
      m.value = .ofNode (Expr.str parts) ∧ singleLine? parts = none ∧
      exprText (.str parts) {} = .ok (nestedTemplate, s') := by
  have hcheck := grammar.eq_of_runListed {} rfl 5000 .string nestedString
    (fun run => run.outcome.toOption.bind fun value => value.toNode?.bind fun e : Expr =>
      (exprText e {}).toOption.map Prod.fst)
    (a := some nestedTemplate) (by decide +kernel)
  cases houtcome : (grammar.parseFrom {} .string nestedString).outcome with
  | error diagnosis =>
      rw [houtcome] at hcheck
      cases hcheck
  | ok value =>
      have hdone := Grammar.overflow_eq_none_of_ok houtcome
      obtain ⟨stop, hread, -⟩ := (Grammar.parseFrom_eq_ok_iff hdone).mp houtcome
      obtain ⟨parts, rfl⟩ : ∃ parts, value = .ofNode (Expr.str parts) := by
        cases hread with
        | rule hbody =>
            obtain ⟨parts, hvalue, -⟩ := string_reads hbody
            exact ⟨parts, hvalue⟩
      rw [houtcome] at hcheck
      change (exprText (.str parts) {}).toOption.map Prod.fst = some nestedTemplate at hcheck
      cases hrun : exprText (.str parts) {} with
      | error d =>
          rw [hrun] at hcheck
          cases hcheck
      | ok r =>
          rw [hrun] at hcheck
          obtain ⟨text, s'⟩ := r
          cases Option.some.inj hcheck
          exact ⟨_, parts, s', hread, rfl, singleLine?_eq_none hrun (by decide), hrun⟩

/-- The dollar sign before the substitution and the brace behind it are characters of the text, and
the mark in the inner template does not end the outer one. -/
theorem readTemplate_exprText_nested :
    ∃ m parts s', Derives grammar (.rule .string) (Cursor.start nestedString) (some m) ∧
      m.value = .ofNode (Expr.str parts) ∧ singleLine? parts = none ∧
      exprText (.str parts) {} = .ok (nestedTemplate, s') ∧
      ∃ stretches, parts.mapM stretchOf {} = .ok (stretches, s') ∧
        (∀ k, readTemplate (nestedTemplate.toList ++ k) = some (stretches, k)) ∧
        stretches = [.text "a$".toList, .substitution "\x60$\x7bx\x7d\\\x60\x60".toList,
          .text "\x7b".toList] := by
  obtain ⟨m, parts, s', hread, hvalue, hline, hrun⟩ := nestedString_lowered
  obtain ⟨stretches, hstretches, htemplate⟩ :=
    readTemplate_exprText hread hvalue hline ⟨by simp, by simp⟩ hrun
  refine ⟨m, parts, s', hread, hvalue, hline, hrun, stretches, hstretches, htemplate, ?_⟩
  have hfound := htemplate []
  have hcomputed : readTemplate (nestedTemplate.toList ++ []) =
      some ([.text "a$".toList, .substitution "\x60$\x7bx\x7d\\\x60\x60".toList,
        .text "\x7b".toList], []) := by
    decide
  rw [hcomputed] at hfound
  cases hfound
  rfl

end JavaScript

end PegScript

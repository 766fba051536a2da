import PegScript.Proofs.Language.RuleKinds
import PegScript.Proofs.Language.WellFormed

/-!
# Typing of values

The value of every rule that matches is of the kind of the rule, in every run and at every place:
also where the nesting limit was reached and nothing can be derived.  So an action never meets a
value that it cannot use, and rejects a match exactly for the reasons listed in `Refusal`.

Two things depend on how the source was matched, and not only on the values of the parts: the text
of an operator is one of the operators, and no text of a string follows a text.
-/

namespace PegScript

namespace Language

open Lexical Expression Destructuring Statement

/-! ## Operators -/

/-- The text is an operator between two operands. -/
def IsBinaryToken (token : String) : Prop :=
  ∃ op, BinaryOp.ofToken? token = some op

/-- The right side of a binary operator is an operand with a known operator. -/
theorem answerable_operand {next : Symbol} {op : Body}
    (hnext : ∀ v, Shape next v → v.Holds fun _ : Expr => True)
    (hop : op.Ensures Shape fun _ labels => labels = [])
    (hspelled : op.Spelled grammar IsBinaryToken) :
    Answerable buildOperand (.seq [
      .rule .blank,
      .label "op" (.text op),
      .rule .layout,
      .label "right" (.rule next)]) := by
  intro settings source n c s s' m hplace hs hfaithful hrun hensured hnone
  have hlabels := hensured
    (fun _ labels => ∃ (right : Expr) (text : String),
      labels = [("right", .ofNode right), ("op", .text text)]) <| by
    intro _ _
    refine Term.Ensures.mono op ?_ hop
    rintro _ _ rfl text _ _ v hv
    obtain ⟨right, -, rfl⟩ := hnext v hv
    exact ⟨right, text, rfl⟩
  obtain ⟨right, text, hlabels⟩ := hlabels
  cases hrun with
  | seqCons hblank hrun =>
    obtain ⟨hs₁, hstop⟩ := hblank.placed hplace hs
    obtain ⟨token, value, rest, ⟨o, ho⟩, htoken⟩ := hrun.labels_of_operator
      (hplace.move (hstop _ rfl)) hs₁ (hblank.faithful hplace hs hfaithful) hspelled
    rw [hlabels] at htoken hnone
    cases htoken
    have hmeets : ∀ v stop, buildOperand.Meets
        ⟨[("right", .ofNode right), ("op", .text text)], v, c, stop⟩ (fun _ _ => True) False := by
      simp [buildOperand, ho]
    exact ((hmeets _ _).of_eq_none hnone).elim

/-- One level of binary operators, whatever they are. -/
theorem types_binaryLevel {next : Symbol} {op : Body}
    (hnext : ∀ v, Shape next v → v.Holds fun _ : Expr => True)
    (hop : op.Ensures Shape fun _ labels => labels = []) (haccounted : op.Accounted Answerable)
    (hspelled : op.Spelled grammar IsBinaryToken) :
    Types (binaryLevel next op) (Value.Holds fun _ : Expr => True) := by
  refine types_accepting ?_ (by simp [haccounted, answerable_operand hnext hop hspelled])
  simp only [Term.ensures_seq, Term.ensuresSeq_cons, Term.ensuresSeq_nil, Term.ensures_label,
    Term.ensures_rule]
  intro v hv
  obtain ⟨head, -, rfl⟩ := hnext v hv
  refine Term.ensures_star (fun _ : Operand => True) ?_ fun tail _ => ?_
  · intro _ _
    refine Term.Ensures.mono op ?_ hop
    rintro _ _ rfl text _ _ v hv
    obtain ⟨right, -, rfl⟩ := hnext v hv
    simp [buildOperand]
  · simp [buildBinary]

theorem spelled_word {text : String} {P : String → Prop} (h : P text) :
    (word text).Spelled grammar P :=
  Term.spelled_seq_not (Term.spelled_lit h)

theorem spelled_symbol {text : String} {P : String → Prop} (h : P text) :
    (symbol text).Spelled grammar P :=
  Term.spelled_seq_not (Term.spelled_lit h)

theorem typed_coalesce : Typed .coalesce :=
  types_binaryLevel (fun _ hv => hv) (by simp [symbol]) (by simp [symbol])
    (spelled_symbol ⟨_, rfl⟩)

theorem typed_or : Typed .or :=
  types_binaryLevel (fun _ hv => hv) (by simp [symbol, word]) (by simp [symbol]) <|
    Term.spelled_choice (spelled_symbol ⟨_, rfl⟩) <|
    Term.spelled_choice (spelled_word ⟨_, rfl⟩) Term.spelled_choice_nil

theorem typed_and : Typed .and :=
  types_binaryLevel (fun _ hv => hv) (by simp [symbol, word]) (by simp [symbol]) <|
    Term.spelled_choice (spelled_symbol ⟨_, rfl⟩) <|
    Term.spelled_choice (spelled_word ⟨_, rfl⟩) Term.spelled_choice_nil

theorem typed_equality : Typed .equality :=
  types_binaryLevel (fun _ hv => hv) (by simp) (by simp) <| Term.spelled_seq_not <|
    Term.spelled_choice (Term.spelled_lit ⟨_, rfl⟩) <|
    Term.spelled_choice (Term.spelled_lit ⟨_, rfl⟩) Term.spelled_choice_nil

theorem typed_relational : Typed .relational :=
  types_binaryLevel (fun _ hv => hv) (by simp [word]) (by simp) <|
    Term.spelled_choice (Term.spelled_lit ⟨_, rfl⟩) <|
    Term.spelled_choice (Term.spelled_lit ⟨_, rfl⟩) <|
    Term.spelled_choice (Term.spelled_lit ⟨_, rfl⟩) <|
    Term.spelled_choice (Term.spelled_lit ⟨_, rfl⟩) <|
    Term.spelled_choice (spelled_word ⟨_, rfl⟩) Term.spelled_choice_nil

theorem typed_additive : Typed .additive :=
  types_binaryLevel (fun _ hv => hv) (by simp [symbol]) (by simp [symbol]) <|
    Term.spelled_choice (spelled_symbol ⟨_, rfl⟩) <|
    Term.spelled_choice (Term.spelled_seq_not (Term.spelled_lit ⟨_, rfl⟩)) Term.spelled_choice_nil

theorem typed_multiplicative : Typed .multiplicative :=
  types_binaryLevel (fun _ hv => hv) (by simp [symbol]) (by simp [symbol]) <|
    Term.spelled_choice (Term.spelled_seq_not (Term.spelled_lit ⟨_, rfl⟩)) <|
    Term.spelled_choice (Term.spelled_seq_not (Term.spelled_lit ⟨_, rfl⟩)) <|
    Term.spelled_choice (spelled_symbol ⟨_, rfl⟩) Term.spelled_choice_nil

theorem spelled_unary :
    (Term.choice [.lit "!", word "not", word "typeof", .lit "-", .lit "+"]).Spelled grammar
      fun token => ∃ op, UnaryOp.ofToken? token = some op :=
  Term.spelled_choice (Term.spelled_lit ⟨_, rfl⟩) <|
    Term.spelled_choice (spelled_word ⟨_, rfl⟩) <|
    Term.spelled_choice (spelled_word ⟨_, rfl⟩) <|
    Term.spelled_choice (Term.spelled_lit ⟨_, rfl⟩) <|
    Term.spelled_choice (Term.spelled_lit ⟨_, rfl⟩) Term.spelled_choice_nil

theorem typed_unary : Typed .unary := by
  refine types_choice (types_accepting (by simp [buildAwait, word]) (by simp)) <|
    types_choice ⟨by simp [buildUnary, word], ⟨?_, by simp⟩⟩ <|
    types_choice (types_rule (by simp)) types_choice_nil
  intro settings source n c s s' m hplace hs hfaithful hrun hensured hnone
  have hlabels := hensured
    (fun _ labels => ∃ (e : Expr) (text : String),
      labels = [("expr", .ofNode e), ("op", .text text)]) <| by simp [word]
  obtain ⟨e, text, hlabels⟩ := hlabels
  obtain ⟨token, value, rest, ⟨o, ho⟩, htoken⟩ :=
    hrun.labels_of_operator hplace hs hfaithful spelled_unary
  rw [hlabels] at htoken hnone
  cases htoken
  have hmeets : ∀ v stop, buildUnary.Meets
      ⟨[("expr", .ofNode e), ("op", .text text)], v, c, stop⟩ (fun _ _ => True) False := by
    simp [buildUnary, ho]
  exact ((hmeets _ _).of_eq_none hnone).elim

theorem spelled_assignOperator :
    (Term.rule .assignOperator).Spelled grammar
      fun token => ∃ op, AssignOp.ofToken? token = some op := by
  refine Term.spelled_rule rfl ?_
  exact Term.spelled_choice (Term.spelled_lit ⟨_, rfl⟩) <|
    Term.spelled_choice (Term.spelled_lit ⟨_, rfl⟩) <|
    Term.spelled_choice (Term.spelled_lit ⟨_, rfl⟩) <|
    Term.spelled_choice (Term.spelled_lit ⟨_, rfl⟩) <|
    Term.spelled_choice (Term.spelled_lit ⟨_, rfl⟩) <|
    Term.spelled_choice (Term.spelled_lit ⟨_, rfl⟩) <|
    Term.spelled_choice (Term.spelled_lit ⟨_, rfl⟩) <|
    Term.spelled_choice (Term.spelled_lit ⟨_, rfl⟩) <|
    Term.spelled_choice (Term.spelled_lit ⟨_, rfl⟩) <|
    Term.spelled_choice (Term.spelled_seq_not (Term.spelled_lit ⟨_, rfl⟩)) Term.spelled_choice_nil

/-- Only a pattern cannot be the target of every assignment, and only of a compound one. -/
theorem exists_pattern_of_canAssign {target : AssignTarget} {op : AssignOp}
    (h : canAssign target op = false) : (∃ p, target = .pattern p) ∧ op ≠ .assign := by
  cases target with
  | pattern p => exact ⟨⟨p, rfl⟩, by simpa [canAssign] using h⟩
  | _ => cases h

theorem typed_assignment : Typed .assignment := by
  refine ⟨by simp [assignment, buildAssignment], ⟨?_, by simp⟩⟩
  intro settings source n c s s' m hplace hs hfaithful hrun hensured hnone
  have hlabels := hensured
    (fun _ labels => ∃ (target : AssignTarget) (text : String) (e : Expr),
      labels = [("value", .ofNode e), ("op", .text text), ("target", .ofNode target)]) <| by simp
  obtain ⟨target, text, e, hlabels⟩ := hlabels
  cases hrun with
  | seqCons htarget hrun =>
    obtain ⟨hs₁, hstop⟩ := htarget.placed hplace hs
    have hfaithful₁ := htarget.faithful hplace hs hfaithful
    cases hrun with
    | seqCons hblank hrun =>
      obtain ⟨hs₂, hstop₂⟩ := hblank.placed (hplace.move (hstop _ rfl)) hs₁
      obtain ⟨token, value, rest, ⟨o, ho⟩, htoken⟩ := hrun.labels_of_operator
        ((hplace.move (hstop _ rfl)).move (hstop₂ _ rfl)) hs₂
        (hblank.faithful (hplace.move (hstop _ rfl)) hs₁ hfaithful₁) spelled_assignOperator
      rw [hlabels] at htoken hnone ⊢
      cases htoken
      have hmeets : ∀ v stop, buildAssignment.Meets
          ⟨[("value", .ofNode e), ("op", .text text), ("target", .ofNode target)], v, c, stop⟩
          (fun _ _ => True) (canAssign target o = false) := by
        simp [buildAssignment, ho]
      obtain ⟨⟨p, rfl⟩, hcompound⟩ := exists_pattern_of_canAssign ((hmeets _ _).of_eq_none hnone)
      refine .compound rfl rfl ?_
      rintro rfl
      cases ho
      exact hcompound rfl

/-! ## Strings -/

section Strings

variable {settings : Settings} {source : String} {n : Nat} {c : Cursor}
  {s s' : Session Symbol Piece} {m : Match Piece}

/-- A text of a string starts where a character can be read. -/
theorem stringText_starts (h : Runs grammar settings n (.rule .stringText) c s (some m) s')
    (hplace : c.IsPlaceOf source) (hfaithful : s.Faithful grammar source) :
    ¬ Derives grammar (.rule .stringChar) c none := by
  cases h with
  | ruleKept hover hkept =>
      obtain ⟨-, -, -, -, hstart, -⟩ := stringText_reads (hfaithful.derives_of_kept hplace hkept)
      exact hstart
  | ruleBody hover hnew hbody =>
    cases hbody with
    | action hplus hact =>
      cases hplus with
      | plus hstar =>
        have hfirst : ∃ m', Derives grammar (.rule .stringChar) c (some m') := by
          cases hstar with
          | starEmpty hround hstays | starMore hround hmoved hrest =>
              exact ⟨_, hround.derives_of_ruleFree hplace
                (hfaithful.of_memo_eq (by simp)) rfl⟩
        obtain ⟨m', hread⟩ := hfirst
        intro hfail
        cases hread.functional hfail

theorem ensures_interpolation :
    interpolation.Ensures (fun _ _ => True) fun v _ => ∃ e, v = .ofNode (StrPart.expr e) := by
  simp [interpolation, buildInterpolation]
  exact fun _ e _ => ⟨e, rfl⟩

/-- A part of a string that is a text starts where a character can be read, and ends where none can
unless the nesting limit was reached. -/
theorem stringPart_text (h : Runs grammar settings n (.rule .stringPart) c s (some m) s')
    (hplace : c.IsPlaceOf source) (hs : s.Placed source) (hfaithful : s.Faithful grammar source)
    {part : StrPart} (hpart : m.value.toNode? = some part) (htext : part.isText = true) :
    ¬ Derives grammar (.rule .stringChar) c none ∧
      (s'.overflow = none → Derives grammar (.rule .stringChar) m.stop none) := by
  have hreads : ∀ labels, Derives grammar (.rule .stringPart) c (some ⟨m.stop, m.value, labels⟩) →
      ¬ Derives grammar (.rule .stringChar) c none ∧
        Derives grammar (.rule .stringChar) m.stop none := by
    intro labels hderives
    obtain ⟨part', hvalue, hplaces, -⟩ := stringPart_reads hderives
    have heq : part' = part := by simpa [show m.value = .ofNode part' from hvalue] using hpart
    exact hplaces (heq ▸ htext)
  refine ⟨?_, fun hdone => ?_⟩
  · cases h with
    | ruleKept hover hkept => exact (hreads _ (hfaithful.derives_of_kept hplace hkept)).1
    | ruleBody hover hnew hbody =>
      have hs₁ := hs.enterRule settings grammar .stringPart hplace
      have hfaithful₁ : (s.enterRule settings grammar .stringPart c).Faithful grammar source :=
        hfaithful.of_memo_eq (by simp)
      cases hbody with
      | choiceHere hinterpolation =>
        obtain ⟨e, hvalue⟩ := hinterpolation.value_of_body hplace hs₁ hfaithful₁
          ensures_interpolation
        rw [hvalue, Value.toNode?_ofNode] at hpart
        cases hpart
        cases htext
      | choiceLater hfail hrest =>
        cases hrest with
        | choiceHere hstringText =>
            exact stringText_starts hstringText hplace (hfail.faithful hplace hs₁ hfaithful₁)
        | choiceLater _ hnil => cases hnil
  · obtain ⟨labels, hderives⟩ := h.exists_derives hplace hfaithful hdone
    exact (hreads labels hderives).2

/-- The parts of a string, from a place on: no text follows a text, a text at the start starts where
a character can be read, and beyond the nesting limit there are no parts. -/
theorem stringParts_apart {stop : Cursor} {values : List (Value Piece)}
    (h : Runs grammar settings n (.star (.rule .stringPart)) c s (some ⟨stop, .list values⟩) s')
    (hplace : c.IsPlaceOf source) (hs : s.Placed source) (hfaithful : s.Faithful grammar source)
    {parts : List StrPart} (hparts : values.mapM Value.toNode? = some parts) :
    (parts.IsChain fun p q => p.isText = true → q.isText = false) ∧
      (∀ p ∈ parts.head?, p.isText = true → ¬ Derives grammar (.rule .stringChar) c none) ∧
      (parts ≠ [] → s.overflow = none) := by
  generalize ht : (Term.star (.rule .stringPart) : Body) = t at h
  generalize hresult : some (⟨stop, .list values⟩ : Match Piece) = result at h
  induction h generalizing values parts with
  | starStop hround =>
      cases hresult
      cases hparts
      simp
  | @starEmpty _ _ _ _ _ m hround hstays =>
      cases ht
      cases hresult
      obtain ⟨part, hpart, rfl⟩ : ∃ part, m.value.toNode? = some part ∧ [part] = parts := by
        simpa [List.mapM_cons, Option.bind_eq_some_iff] using hparts
      refine ⟨.singleton _, ?_, fun _ => hround.overflow_of_rule⟩
      rintro p ⟨⟩ htext
      exact (stringPart_text hround hplace hs hfaithful hpart htext).1
  | @starMore _ _ _ _ _ s₁ _ m _ hround hmoved hrest _ ih =>
      cases ht
      cases hresult
      obtain ⟨part, hpart, parts', hparts', rfl⟩ : ∃ part, m.value.toNode? = some part ∧
          ∃ parts', List.mapM Value.toNode? _ = some parts' ∧ part :: parts' = parts := by
        simpa [List.mapM_cons, Option.bind_eq_some_iff] using hparts
      obtain ⟨hs₁, hstop⟩ := hround.placed hplace hs
      obtain ⟨hchain, hfirst, hover⟩ := ih (hplace.move (hstop _ rfl)) hs₁
        (hround.faithful hplace hs hfaithful) hparts' rfl rfl
      refine ⟨List.isChain_cons.mpr ⟨?_, hchain⟩, ?_, fun _ => hround.overflow_of_rule⟩
      · intro q hq htext
        -- Behind a text that ends within the nesting limit no character can be read.
        have hdone : s₁.overflow = none := hover (by rintro rfl; cases hq)
        have hend := (stringPart_text hround hplace hs hfaithful hpart htext).2 hdone
        exact Bool.eq_false_iff.mpr fun hqtext => hfirst q hq hqtext hend
      · rintro p ⟨⟩ htext
        exact (stringPart_text hround hplace hs hfaithful hpart htext).1
  | _ => cases ht

theorem ensures_buildString_of_mapM {values : List (Value Piece)}
    {labels : List (String × Value Piece)} {v : Value Piece} {stop : Cursor} :
    buildString.Ensures ⟨("parts", .list values) :: labels, v, c, stop⟩ fun w _ =>
      ∃ parts, values.mapM Value.toNode? = some parts ∧ w = .ofNode (Expr.str parts) := by
  simp [buildString, Value.toNodes?, Value.toList?]
  exact fun parts hparts => ⟨parts, hparts, rfl⟩

/-- No text of a string follows a text. -/
theorem shape_string (h : Runs grammar settings n (body .string) c s (some m) s')
    (hplace : c.IsPlaceOf source) (hs : s.Placed source) (hfaithful : s.Faithful grammar source) :
    Shape .string m.value := by
  cases h with
  | action hseq hact =>
    cases hseq with
    | seqCons hopen hseq =>
      have hs₀ : ({ s with labels := [] } : Session Symbol Piece).Placed source :=
        hs.of_eq rfl rfl rfl rfl
      obtain ⟨hs₁, hstop⟩ := hopen.placed hplace hs₀
      have hfaithful₁ := hopen.faithful hplace hs₀ (hfaithful.of_memo_eq rfl)
      cases hseq with
      | seqCons hlabel hseq =>
        cases hlabel with
        | label hparts =>
          cases hseq with
          | seqCons hclose hnil =>
            cases hclose
            cases hnil
            obtain ⟨stop, values, rfl⟩ := hparts.exists_list_of_star
            obtain ⟨parts, hvalues, hvalue⟩ := ensures_buildString_of_mapM _ _ hact
            obtain ⟨hchain, -⟩ := stringParts_apart hparts (hplace.move (hstop _ rfl)) hs₁
              hfaithful₁ hvalues
            exact ⟨_, ⟨parts, rfl, hchain⟩, hvalue.symm⟩

end Strings

/-- The parts of a string are put together without rejecting the match. -/
theorem types_string : Types (body .string) (Value.Holds fun _ : Expr => True) := by
  refine types_accepting ?_ (by simp)
  simp
  intro _
  exact Term.ensures_star (fun _ : StrPart => True) (by simp) (by simp [buildString])

/-! ## All rules -/

/-- The body of every rule has the shape of the rule; for a string this depends on the run. -/
theorem typed_of_ne_string (r : Symbol) (hr : r ≠ .string) : Typed r := by
  cases r with
  | string => exact absurd rfl hr
  | blank => exact typed_blank
  | layout => exact typed_layout
  | newline => exact typed_newline
  | comment => exact typed_comment
  | lineComment => exact typed_lineComment
  | blockComment => exact typed_blockComment
  | identStart => exact typed_identStart
  | identPart => exact typed_identPart
  | keyword => exact typed_keyword
  | identifier => exact typed_identifier
  | identifierName => exact typed_identifierName
  | number => exact typed_number
  | hexNumber => exact typed_hexNumber
  | binaryNumber => exact typed_binaryNumber
  | octalNumber => exact typed_octalNumber
  | decimalNumber => exact typed_decimalNumber
  | stringPart => exact typed_stringPart
  | interpolation => exact typed_interpolation
  | stringText => exact typed_stringText
  | stringChar => exact typed_stringChar
  | rawString => exact typed_rawString
  | plainString => exact typed_plainString
  | expression => exact typed_expression
  | yield => exact typed_yield
  | pipeline => exact typed_pipeline
  | pipeStage => exact typed_pipeStage
  | bindStage => exact typed_bindStage
  | range => exact typed_range
  | conditional => exact typed_conditional
  | coalesce => exact typed_coalesce
  | or => exact typed_or
  | and => exact typed_and
  | equality => exact typed_equality
  | relational => exact typed_relational
  | additive => exact typed_additive
  | multiplicative => exact typed_multiplicative
  | exponent => exact typed_exponent
  | unary => exact typed_unary
  | suffixed => exact typed_suffixed
  | suffix => exact typed_suffix
  | call => exact typed_call
  | optionalCall => exact typed_optionalCall
  | optionalMember => exact typed_optionalMember
  | member => exact typed_member
  | index => exact typed_index
  | argument => exact typed_argument
  | primary => exact typed_primary
  | literal => exact typed_literal
  | arrow => exact typed_arrow
  | arrowParams => exact typed_arrowParams
  | arrowBody => exact typed_arrowBody
  | functionExpression => exact typed_functionExpression
  | doExpression => exact typed_doExpression
  | newExpression => exact typed_newExpression
  | newCallee => exact typed_newCallee
  | parenthesized => exact typed_parenthesized
  | array => exact typed_array
  | object => exact typed_object
  | property => exact typed_property
  | propertyKey => exact typed_propertyKey
  | pattern => exact typed_pattern
  | objectPattern => exact typed_objectPattern
  | objectPatternElement => exact typed_objectPatternElement
  | arrayPattern => exact typed_arrayPattern
  | arrayPatternElement => exact typed_arrayPatternElement
  | defaultValue => exact typed_defaultValue
  | paramList => exact typed_paramList
  | param => exact typed_param
  | program => exact typed_program
  | statementList => exact typed_statementList
  | separator => exact typed_separator
  | block => exact typed_block
  | statement => exact typed_statement
  | declaration => exact typed_declaration
  | functionDeclaration => exact typed_functionDeclaration
  | ifStatement => exact typed_ifStatement
  | elseIf => exact typed_elseIf
  | whileStatement => exact typed_whileStatement
  | loopStatement => exact typed_loopStatement
  | forStatement => exact typed_forStatement
  | returnStatement => exact typed_returnStatement
  | breakStatement => exact typed_breakStatement
  | continueStatement => exact typed_continueStatement
  | throwStatement => exact typed_throwStatement
  | tryStatement => exact typed_tryStatement
  | catchClause => exact typed_catchClause
  | guardStatement => exact typed_guardStatement
  | importStatement => exact typed_importStatement
  | importClause => exact typed_importClause
  | importSpec => exact typed_importSpec
  | exportStatement => exact typed_exportStatement
  | assignment => exact typed_assignment
  | assignTarget => exact typed_assignTarget
  | assignOperator => exact typed_assignOperator

theorem accounted_body (r : Symbol) : (body r).Accounted Answerable := by
  by_cases hr : r = .string
  · rw [hr]
    exact types_string.actions
  · exact (typed_of_ne_string r hr).actions

/-- In every run the values of rules have the shapes of the rules. -/
theorem keeps_shape (settings : Settings) (source : String) :
    grammar.Keeps settings source Shape := by
  intro n r c s s₁ m bound hplace hs hfaithful hvalues hrun hensured
  by_cases hr : r = .string
  · subst hr
    exact shape_string hrun hplace hs hfaithful
  · exact hensured _ (typed_of_ne_string r hr).value

/-! ## The reasons are reasons -/

theorem plainText?_eq_none {parts : List StrPart} {e : Expr} (h : .expr e ∈ parts) :
    plainText? (.str parts) = none := by
  match parts with
  | [] => cases h
  | [.text s] => simp at h
  | .expr e :: parts => rfl
  | .text s :: part :: parts => rfl

theorem splitRest?_eq_none {elements : List PatternElement} {p : Pattern}
    (h : .rest p ∈ elements.dropLast) : splitRest? elements = none := by
  have hany : elements.dropLast.any isRest = true := List.any_eq_true.mpr ⟨_, h, rfl⟩
  have hall : elements.any isRest = true :=
    List.any_eq_true.mpr ⟨_, List.dropLast_subset _ h, rfl⟩
  simp only [splitRest?]
  split
  · simp [hany]
  · simp [hall]

/-- Taking one label leaves the others. -/
theorem takeLabel_takeLabel_of_ne {name name' : String} (hne : name ≠ name')
    (labels : List (String × Value Piece)) :
    (takeLabel name (takeLabel name' labels).2).1 = (takeLabel name labels).1 := by
  induction labels with
  | nil => rfl
  | cons entry labels ih =>
      by_cases hname : entry.1 = name
      · simp [takeLabel, hname, hne]
      · by_cases hname' : entry.1 = name'
        · simp [takeLabel, hname', hne.symm]
        · simp [takeLabel, hname, hname', ih]

theorem eq_of_ofToken?_assign {token : String} (h : AssignOp.ofToken? token = some .assign) :
    token = "=" := by
  unfold AssignOp.ofToken? at h
  split at h
  case h_1 => rfl
  all_goals cases h

/-- For each of the reasons the action rejects. -/
theorem Refusal.rejects {act : Build} {input : ActionInput Piece} (h : Refusal act input) :
    act input = none := by
  apply ActionM.eq_none_of_meets
  cases h with
  | separators h => simp [buildNumber, h]
  | interpolated hvalue hpart => simp [buildPlainString, hvalue, plainText?_eq_none hpart]
  | objectRest helements hrest =>
      simp [buildObjectPattern, helements, objectPattern?, splitRest?_eq_none hrest]
  | arrayRest helements hrest =>
      simp [buildArrayPattern, helements, arrayPattern?, splitRest?_eq_none hrest]
  | restParam hvalue hmem hrest =>
      simp [buildParamList, hvalue, restIsLast]
      exact ⟨_, hmem, hrest⟩
  | keywordKey hkey hkeyword hvalue =>
      have hvalue' : (takeLabel "value" (takeLabel "key" input.labels).2).1 = .absent := by
        rwa [takeLabel_takeLabel_of_ne (by decide)]
      simp [buildPatternProp, hkey, hkeyword, hvalue']
  | bareTry hcatch hfinally =>
      have hfinally' : (takeLabel "finally" (takeLabel "catch" input.labels).2).1 = .absent := by
        rwa [takeLabel_takeLabel_of_ne (by decide)]
      simp [buildTry, hcatch, hfinally']
  | @compound _ _ token htarget hop hcompound =>
      have hop' : (takeLabel "op" (takeLabel "target" input.labels).2).1 = .text token := by
        rwa [takeLabel_takeLabel_of_ne (by decide)]
      simp [buildAssignment, htarget, hop', canAssign]
      rintro op hop _ _ rfl
      exact hcompound (eq_of_ofToken?_assign hop)
  | target hvalue htarget => simp [buildExprTarget, hvalue, htarget]

/-! ## Evaluations of rules -/

/-- A parse that succeeds gives a program. -/
theorem exists_program_of_parse {settings : Settings} {source : String} {value : Value Piece}
    (h : (grammar.parse settings source).outcome = .ok value) :
    ∃ program, value = .node (.program program) ∧ parse settings source = .ok program := by
  have hdone := Grammar.overflow_eq_none_of_ok h
  obtain ⟨stop, hread, -⟩ := (Grammar.parseFrom_eq_ok_iff hdone).mp h
  obtain ⟨program, -, rfl⟩ : Gives .program value := gives_of_derives hread
  exact ⟨program, rfl, by rw [parse, h]; rfl⟩

/-- What an action rejects in the course of an evaluation, it rejects for one of the reasons. -/
theorem refusal_of_evaluate {settings : Settings} {source : String} {e : Evaluation Symbol Piece}
    (hvalued : e.Valued grammar source Shape) (haccounted : e.term.Accounted Answerable)
    {act : Build} {t : Body} (hterm : e.term = .action act t) {m : Match Piece}
    {s : Session Symbol Piece}
    (heval : grammar.evaluate settings source.utf8ByteSize
      ⟨e.allowance, t, e.place, { e.session with labels := [] }⟩ = (some m, s))
    (hnone : act ⟨s.labels, m.value, e.place, m.stop⟩ = none) :
    Refusal act ⟨s.labels, m.value, e.place, m.stop⟩ := by
  obtain ⟨n, _, c, s₀⟩ := e
  subst hterm
  obtain ⟨⟨hplace, hs⟩, hfaithful, hvalues⟩ := hvalued
  have hs₀ : ({ s₀ with labels := [] } : Session Symbol Piece).Placed source :=
    hs.of_eq rfl rfl rfl rfl
  have hfaithful₀ : ({ s₀ with labels := [] } : Session Symbol Piece).Faithful grammar source :=
    hfaithful.of_memo_eq rfl
  have hrun := Grammar.runs_of_evaluate hplace hs₀ heval
  obtain ⟨-, hensured⟩ := hrun.ensured (keeps_shape settings source) hplace hs₀ hfaithful₀
    (hvalues.of_memo_eq rfl)
  obtain ⟨bound, hlabels, hP⟩ := hensured m rfl
  rw [List.append_nil] at hlabels
  rw [← hlabels] at hP
  exact haccounted.1 settings source n c _ s m hplace hs₀ hfaithful₀ hrun hP hnone

/-- Typing of values.  Start with any rule at any place of any source, and consider what is
evaluated in the course of that.  A rule that matches has a value of its kind; an action rejects
what its term matched exactly for one of the listed reasons; and a source that is parsed gives a
program. -/
theorem evaluation_has_kind (settings : Settings) (source : String) (n : Nat) (start : Symbol)
    (c : Cursor) (hplace : c.IsPlaceOf source) :
    (∀ e, grammar.Reached settings source ⟨n, .rule start, c, {}⟩ e →
      (∀ r m s, e.term = .rule r →
        grammar.evaluate settings source.utf8ByteSize e = (some m, s) →
          (kindOf r).fits m.value = true) ∧
      ∀ act t m s, e.term = .action act t →
        grammar.evaluate settings source.utf8ByteSize
          ⟨e.allowance, t, e.place, { e.session with labels := [] }⟩ = (some m, s) →
          (act ⟨s.labels, m.value, e.place, m.stop⟩ = none ↔
            Refusal act ⟨s.labels, m.value, e.place, m.stop⟩)) ∧
    ∀ value, (grammar.parse settings source).outcome = .ok value →
      ∃ program, value = .node (.program program) ∧ parse settings source = .ok program := by
  have hkeeps := keeps_shape settings source
  refine ⟨fun e hreached => ?_, fun value => exists_program_of_parse⟩
  have hvalued := Grammar.valued_of_reached hkeeps hreached
    ⟨⟨hplace, Session.placed_empty⟩, Session.faithful_of_memo_empty grammar source rfl,
      Session.values_empty⟩
  refine ⟨fun r m s hterm heval => ?_, fun act t m s hterm heval => ?_⟩
  · exact fits_of_shape (Grammar.value_of_evaluate hkeeps hvalued hterm heval)
  · have haccounted := Grammar.accounted_of_reached accounted_body hreached trivial
    exact ⟨refusal_of_evaluate hvalued haccounted hterm heval, Refusal.rejects⟩

/-- A number that ends with a separator: it is matched, and its action rejects it. -/
theorem evaluation_has_kind_looseSeparator :
    ∃ (e : Evaluation Symbol Piece) (t : Body) (m : Match Piece) (s : Session Symbol Piece),
      grammar.Reached { memoize := false } "1_" ⟨4, .rule .number, Cursor.start "1_", {}⟩ e ∧
        e.term = .action buildNumber t ∧
        grammar.evaluate { memoize := false } "1_".utf8ByteSize
          ⟨e.allowance, t, e.place, { e.session with labels := [] }⟩ = (some m, s) ∧
        Refusal buildNumber ⟨s.labels, m.value, e.place, m.stop⟩ := by
  have hplace := Cursor.start_isPlaceOf "1_"
  have hreached : grammar.Reached { memoize := false } "1_"
      ⟨4, .rule .number, Cursor.start "1_", {}⟩ ⟨3, body .number, Cursor.start "1_", _⟩ :=
    .single (.rule rfl (by simp [Session.memoized?]))
  obtain ⟨out, hout⟩ : ∃ out, grammar.evaluate { memoize := false } "1_".utf8ByteSize
      ⟨3, .seq [.choice [.rule .hexNumber, .rule .binaryNumber, .rule .octalNumber,
        .rule .decimalNumber], .not (.rule .identStart)], Cursor.start "1_",
        { ({} : Session Symbol Piece).enterRule { memoize := false } grammar .number
          (Cursor.start "1_") with labels := [] }⟩ = out := ⟨_, rfl⟩
  have hrejected : (out.1.any fun m =>
      (buildNumber ⟨out.2.labels, m.value, Cursor.start "1_", m.stop⟩).isNone) = true := by
    rw [← hout]
    decide +kernel
  obtain ⟨m, hmatch, hnone⟩ := (Option.any_eq_true _ _).mp hrejected
  have heval := hout.trans (Prod.ext hmatch rfl : out = (some m, out.2))
  have hiff := ((evaluation_has_kind _ _ _ _ _ hplace).1 _ hreached).2 _ _ m out.2 rfl heval
  exact ⟨_, _, m, out.2, hreached, rfl, heval, hiff.mp (Option.isNone_iff_eq_none.mp hnone)⟩

end Language

end PegScript

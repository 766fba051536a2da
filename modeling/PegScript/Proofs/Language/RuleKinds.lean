import PegScript.Proofs.Language.Kinds
import PegScript.Proofs.Language.PatternValues

/-!
# The kinds of the rules

The body of each rule has the shape of the rule, and its actions reject for the listed reasons only.
-/

namespace PegScript

namespace Language

open Lexical Expression Destructuring Statement

/-! ## Layout, names and literals -/

theorem typed_blank : Typed .blank :=
  ⟨⟨fun _ => True, by simp [Term.oneOf], by simp⟩, by simp [blank]⟩

theorem typed_layout : Typed .layout :=
  ⟨⟨fun _ => True, by simp [Term.oneOf], by simp⟩, by simp [layout]⟩

theorem typed_newline : Typed .newline :=
  ⟨by simp [newline], by simp [newline]⟩

theorem typed_comment : Typed .comment :=
  ⟨by simp [comment], by simp [comment]⟩

theorem typed_lineComment : Typed .lineComment := by
  refine ⟨?_, by simp [lineComment]⟩
  simp [lineComment]
  exact Term.ensures_star_any (by simp [Term.noneOf]) (by simp)

theorem typed_blockComment : Typed .blockComment := by
  refine ⟨?_, by simp [blockComment]⟩
  simp [blockComment]
  exact Term.ensures_star_any (by simp) (by simp)

theorem typed_identStart : Typed .identStart :=
  ⟨by simp [identStart, Term.oneOf], by simp [identStart]⟩

theorem typed_identPart : Typed .identPart :=
  ⟨by simp [identPart, Term.oneOf], by simp [identPart]⟩

theorem typed_keyword : Typed .keyword :=
  ⟨by simp [keyword, keywords, word], by simp [keyword, keywords]⟩

theorem typed_identifierName : Typed .identifierName := by
  refine ⟨?_, by simp [identifierName]⟩
  simp [identifierName]
  exact Term.ensures_star_any (by simp) (by simp)

theorem typed_identifier : Typed .identifier := by
  refine ⟨?_, by simp [identifier, identifierName]⟩
  simp [identifier, identifierName]
  exact Term.ensures_star_any (by simp) (by simp)

theorem typed_number : Typed .number := by
  refine types_action (fun R hR => ?_) (by simp)
  simp [buildNumber]
  intro _ start stop hbad
  exact hR _ (.separators hbad)

theorem types_markedNumber (mark : String) (digits : List (Char × Char)) :
    Types (markedNumber mark digits) fun v => ∃ vs, .list vs = v := by
  refine ⟨?_, by simp [markedNumber]⟩
  simp [markedNumber, Term.litAnyCase, Term.oneOf]
  exact Term.ensures_star_any (by simp) (by simp)

theorem typed_hexNumber : Typed .hexNumber :=
  types_markedNumber _ _

theorem typed_binaryNumber : Typed .binaryNumber :=
  types_markedNumber _ _

theorem typed_octalNumber : Typed .octalNumber :=
  types_markedNumber _ _

theorem shape_moreDigits {P : Prop} (h : P) : moreDigits.Ensures Shape fun _ _ => P :=
  Term.ensures_star_any (by simp [Term.oneOf]) fun _ => h

theorem typed_decimalNumber : Typed .decimalNumber := by
  refine ⟨?_, by simp [decimalNumber, digit, moreDigits]⟩
  simp [decimalNumber, digit, Term.oneOf]
  refine shape_moreDigits ⟨shape_moreDigits (shape_moreDigits trivial), shape_moreDigits trivial⟩

theorem typed_rawString : Typed .rawString := by
  refine types_accepting ?_ (by simp)
  simp [Term.noneOf]
  intro _
  exact Term.ensures_star_any (by simp) (by simp [buildRawString])

/-- A string that is not a plain text has an interpolation, for no text follows a text. -/
theorem exists_interpolation {parts : List StrPart}
    (hchain : parts.IsChain fun p q => p.isText = true → q.isText = false)
    (h : plainText? (.str parts) = none) : ∃ e, .expr e ∈ parts := by
  match parts with
  | [] => cases h
  | [.text s] => cases h
  | .expr e :: parts => exact ⟨e, by simp⟩
  | .text s :: .expr e :: parts => exact ⟨e, by simp⟩
  | .text s :: .text s' :: parts => simp [StrPart.isText] at hchain

theorem typed_plainString : Typed .plainString := by
  refine types_action (fun R hR => ?_) (by simp)
  simp [buildPlainString]
  rintro _ parts rfl hchain start stop hnone
  obtain ⟨e, hpart⟩ := exists_interpolation hchain hnone
  exact hR _ (.interpolated rfl hpart)

theorem typed_stringPart : Typed .stringPart :=
  ⟨by simp [stringPart], by simp [stringPart]⟩

theorem typed_interpolation : Typed .interpolation :=
  types_accepting (by simp [buildInterpolation]) (by simp)

theorem typed_stringText : Typed .stringText :=
  types_accepting ⟨fun _ => True, by simp, by simp [buildStringText]⟩ (by simp)

theorem typed_stringChar : Typed .stringChar :=
  ⟨by simp [stringChar], by simp [stringChar]⟩

/-! ## Expressions -/

theorem typed_expression : Typed .expression :=
  ⟨by simp [expression], by simp [expression]⟩

theorem typed_yield : Typed .yield :=
  types_accepting (by simp [buildYield, word]) (by simp)

theorem typed_pipeline : Typed .pipeline := by
  refine types_accepting ?_ (by simp)
  simp
  intro head
  refine Term.ensures_star (fun _ : PipeStage => True) (by simp) ?_
  simp [buildPipeline]

theorem typed_pipeStage : Typed .pipeStage :=
  types_choice (types_rule (by simp)) <|
    types_choice (types_accepting (by simp [buildCallStage]) (by simp)) types_choice_nil

theorem typed_bindStage : Typed .bindStage :=
  types_accepting (by simp [buildBindStage]) (by simp)

theorem typed_range : Typed .range :=
  types_choice (types_accepting (by simp [buildRange, word]) (by simp)) <|
    types_choice (types_rule (by simp)) types_choice_nil

theorem typed_conditional : Typed .conditional :=
  types_choice (types_accepting (by simp [buildConditional]) (by simp)) <|
    types_choice (types_rule (by simp)) types_choice_nil

theorem typed_exponent : Typed .exponent :=
  types_choice (types_accepting (by simp [buildPower]) (by simp)) <|
    types_choice (types_rule (by simp)) types_choice_nil

/-! ## Postfix operations -/

/-- An operand with postfix operations, whichever are allowed. -/
theorem types_suffixes {s : Symbol} (hs : ∀ v, Shape s v → v.Holds fun _ : Suffix => True) :
    Types (.action buildSuffixed (.seq [
      .label "head" (.rule .primary),
      .label "tail" (.star (.rule s))])) (Value.Holds fun _ : Expr => True) := by
  refine types_accepting ?_ (by simp)
  simp [-Shape]
  rintro v ⟨head, -, rfl⟩
  refine Term.ensures_star (fun _ : Suffix => True) ?_ ?_
  · simpa [-Shape] using hs
  · simp [buildSuffixed]

theorem typed_suffixed : Typed .suffixed :=
  types_suffixes fun _ hv => hv

theorem typed_newCallee : Typed .newCallee :=
  types_suffixes fun _ hv => hv

theorem typed_suffix : Typed .suffix :=
  ⟨by simp [suffix], by simp [suffix]⟩

/-- Arguments in parentheses. -/
theorem shape_arguments {R : Value Piece → List (String × Value Piece) → Prop}
    {opening closing : String} (hsome : ∀ args : List Element, R (.ofNodes args) [])
    (hnone : R .absent []) : (listOf .argument opening closing).Ensures Shape R :=
  shape_listOf (fun _ : Element => True) (fun _ hv => hv) (fun args _ => hsome args) hnone

theorem typed_call : Typed .call := by
  refine types_accepting ?_ (by simp)
  rw [Term.ensures_label]
  exact shape_arguments (by simp [buildCall]) (by simp [buildCall])

theorem typed_optionalCall : Typed .optionalCall := by
  refine types_accepting ?_ (by simp)
  simp
  intro _
  exact shape_arguments (by simp [buildCall]) (by simp [buildCall])

theorem typed_optionalMember : Typed .optionalMember :=
  types_accepting (by simp [buildMember]) (by simp)

theorem typed_member : Typed .member :=
  types_accepting (by simp [buildMember]) (by simp)

theorem typed_index : Typed .index :=
  types_accepting (by simp [buildIndex]) (by simp)

theorem typed_argument : Typed .argument :=
  types_choice (types_accepting (by simp [spread, buildSpreadElement]) (by simp [spread])) <|
    types_choice (types_accepting (by simp [buildElement]) (by simp)) types_choice_nil

/-! ## Operands -/

theorem typed_primary : Typed .primary := by
  refine ⟨by simp [primary, buildIdent], ?_⟩
  have hident : Types (.action buildIdent (.rule .identifier)) fun _ => True :=
    types_accepting (by simp [buildIdent]) (by simp)
  simpa [primary] using hident.actions

theorem typed_literal : Typed .literal :=
  types_accepting (by simp [buildLiteral, word]) (by simp)

theorem typed_arrow : Typed .arrow := by
  refine types_accepting ?_ (by simp)
  refine Term.ensures_opt_any (by simp [word]) fun isAsync => ?_
  simp [buildArrow]

theorem typed_arrowParams : Typed .arrowParams := by
  refine types_choice (types_rule fun _ hv => hv) <|
    types_choice (types_accepting ?_ (by simp)) types_choice_nil
  simp [buildSingleParam]
  exact fun name => ⟨[_], trivial, rfl⟩

theorem typed_arrowBody : Typed .arrowBody :=
  types_choice (types_rule fun _ hv => hv) <|
    types_choice (types_accepting (by simp [buildTailBlock]) (by simp)) types_choice_nil

theorem typed_functionExpression : Typed .functionExpression := by
  refine types_accepting ?_ (by simp)
  refine Term.ensures_opt_any (by simp [word]) fun isAsync => ?_
  simp only [word, Term.ensures_label, Term.ensures_seq, Term.ensuresSeq_cons,
    Term.ensuresSeq_nil, Term.ensures_lit, Term.ensures_not]
  intro _
  refine Term.ensures_opt_any (by simp) fun isGenerator => ?_
  simp [buildFunctionExpression]

theorem typed_doExpression : Typed .doExpression :=
  types_accepting (by simp [buildDo, word]) (by simp)

theorem typed_newExpression : Typed .newExpression := by
  refine types_accepting ?_ (by simp)
  simp [word]
  intro _ _ callee
  exact ⟨shape_arguments (by simp [buildNew]) (by simp [buildNew]), by simp [buildNew]⟩

theorem typed_parenthesized : Typed .parenthesized :=
  ⟨by simp [parenthesized], by simp [parenthesized]⟩

theorem typed_array : Typed .array := by
  refine types_accepting ?_ (by simp)
  rw [Term.ensures_label]
  exact shape_arguments (by simp [buildArray]) (by simp [buildArray])

theorem typed_object : Typed .object := by
  refine types_accepting ?_ (by simp)
  rw [Term.ensures_label]
  refine shape_listOf (fun _ : Property => True) (fun _ hv => hv) ?_ ?_ <;> simp [buildObject]

theorem typed_property : Typed .property :=
  types_choice (types_accepting (by simp [spread, buildSpreadProperty]) (by simp [spread])) <|
    types_choice (types_accepting (by simp [buildKeyValue]) (by simp)) <|
    types_choice (types_accepting (by simp [buildShorthand]) (by simp)) types_choice_nil

theorem typed_propertyKey : Typed .propertyKey := by
  refine types_choice (types_accepting (by simp [buildIdentKey]) (by simp)) <|
    types_choice (types_accepting (by simp [buildStringKey]) (by simp)) <|
    types_choice (types_accepting ?_ (by simp)) <|
    types_choice (types_accepting (by simp [buildComputedKey]) (by simp)) types_choice_nil
  simp [buildNumberKey, numberText?]

/-! ## Patterns and parameters -/

/-- Only a rest element before the last element is refused. -/
theorem rest_mem_dropLast_of_splitRest? {elements : List PatternElement}
    (h : splitRest? elements = none) : ∃ p, .rest p ∈ elements.dropLast := by
  simp only [splitRest?] at h
  split at h
  case h_1 hlast =>
    have hany : elements.dropLast.any isRest = true := by simpa using h
    obtain ⟨e, he, hrest⟩ := List.any_eq_true.mp hany
    cases e <;> cases hrest
    exact ⟨_, he⟩
  case h_2 hlast =>
    have hany : elements.any isRest = true := by simpa using h
    obtain ⟨e, he, hrest⟩ := List.any_eq_true.mp hany
    cases e <;> cases hrest
    exact ⟨_, List.mem_dropLast_of_mem_of_ne_getLast? he fun heq => hlast _ heq.symm⟩

theorem isRest_of_splitRest? {elements front : List PatternElement} {last : Option Pattern}
    (h : splitRest? elements = some (front, last)) : ∀ e ∈ front, isRest e = false := by
  simp only [splitRest?] at h
  split at h <;> split at h <;> cases h
  all_goals
    rename_i hany
    simpa using hany

/-- A partial function that is defined on all elements of a list is defined on the list. -/
theorem exists_mapM_eq_some {α β : Type} {f : α → Option β} {as : List α}
    (h : ∀ a ∈ as, ∃ b, f a = some b) : ∃ bs, as.mapM f = some bs := by
  induction as with
  | nil => exact ⟨[], rfl⟩
  | cons a as ih =>
      obtain ⟨b, hb⟩ := h a (by simp)
      obtain ⟨bs, hbs⟩ := ih fun a ha => h a (by simp [ha])
      exact ⟨b :: bs, by simp [List.mapM_cons, hb, hbs]⟩

theorem rest_mem_dropLast_of_objectPattern? {elements : List PatternElement}
    (helements : ∀ e ∈ elements, IsObjectElement e) (h : objectPattern? elements = none) :
    ∃ p, .rest p ∈ elements.dropLast := by
  cases hsplit : splitRest? elements with
  | none => exact rest_mem_dropLast_of_splitRest? hsplit
  | some pair =>
    obtain ⟨front, last⟩ := pair
    obtain ⟨hfront, hlast⟩ := mem_of_splitRest? hsplit
    have hprops : ∃ props, front.mapM toProp? = some props := by
      refine exists_mapM_eq_some fun e he => ?_
      have hnot := isRest_of_splitRest? hsplit e he
      obtain ⟨prop, rfl⟩ | ⟨name, rfl⟩ := helements e (hfront e he)
      · exact ⟨prop, rfl⟩
      · cases hnot
    obtain ⟨props, hprops⟩ := hprops
    simp only [objectPattern?, hsplit, hprops, Option.bind_eq_bind, Option.bind_some] at h
    cases last with
    | none => cases h
    | some p =>
      obtain ⟨prop, hp⟩ | ⟨name, hp⟩ := helements _ (hlast p rfl) <;> cases hp
      cases h

theorem rest_mem_dropLast_of_arrayPattern? {elements : List PatternElement}
    (helements : ∀ e ∈ elements, IsArrayElement e) (h : arrayPattern? elements = none) :
    ∃ p, .rest p ∈ elements.dropLast := by
  cases hsplit : splitRest? elements with
  | none => exact rest_mem_dropLast_of_splitRest? hsplit
  | some pair =>
    obtain ⟨front, last⟩ := pair
    have hitems : ∃ items, front.mapM toItem? = some items := by
      refine exists_mapM_eq_some fun e he => ?_
      have hnot := isRest_of_splitRest? hsplit e he
      obtain ⟨item, rfl⟩ | ⟨p, rfl⟩ := helements e ((mem_of_splitRest? hsplit).1 e he)
      · exact ⟨item, rfl⟩
      · cases hnot
    obtain ⟨items, hitems⟩ := hitems
    simp [arrayPattern?, hsplit, hitems] at h

theorem typed_pattern : Typed .pattern :=
  types_choice (types_rule (by simp)) <|
    types_choice (types_rule (by simp)) <|
    types_choice (types_accepting (by simp [buildIdentPattern]) (by simp)) types_choice_nil

theorem typed_objectPattern : Typed .objectPattern := by
  refine types_action (fun R hR => ?_) (by simp)
  rw [Term.ensures_label]
  refine shape_listOf IsObjectElement (fun _ hv => hv) ?_ ?_
  · intro elements helements
    simp [buildObjectPattern]
    intro start stop hnone
    obtain ⟨p, hrest⟩ := rest_mem_dropLast_of_objectPattern? helements hnone
    exact hR _ (.objectRest rfl hrest)
  · simp [buildObjectPattern, objectPattern?, splitRest?]

theorem typed_objectPatternElement : Typed .objectPatternElement := by
  refine types_choice (types_accepting (by simp [buildRestName, IsObjectElement]) (by simp)) <|
    types_choice (types_action (fun R hR => ?_) (by simp)) types_choice_nil
  simp [buildPatternProp, IsObjectElement]
  intro key
  exact ⟨fun _ _ _ hkeyword => hR _ (.keywordKey rfl hkeyword rfl),
    fun _ _ hkeyword => hR _ (.keywordKey rfl hkeyword rfl)⟩

theorem typed_arrayPattern : Typed .arrayPattern := by
  refine types_action (fun R hR => ?_) (by simp)
  rw [Term.ensures_label]
  refine shape_listOf IsArrayElement (fun _ hv => hv) ?_ ?_
  · intro elements helements
    simp [buildArrayPattern]
    intro start stop hnone
    obtain ⟨p, hrest⟩ := rest_mem_dropLast_of_arrayPattern? helements hnone
    exact hR _ (.arrayRest rfl hrest)
  · simp [buildArrayPattern, arrayPattern?, splitRest?]

theorem typed_arrayPatternElement : Typed .arrayPatternElement := by
  refine types_choice (types_accepting ?_ (by simp [restPattern])) <|
    types_choice (types_accepting ?_ (by simp [patternWithDefault])) types_choice_nil
  · simp [restPattern, buildRestPattern, IsArrayElement]
  · simp [patternWithDefault, buildArrayItem, IsArrayElement]

theorem typed_defaultValue : Typed .defaultValue :=
  ⟨by simp [defaultValue], by simp [defaultValue]⟩

theorem typed_paramList : Typed .paramList := by
  refine types_action (fun R hR => ?_) (by simp)
  refine shape_listOf (fun _ : Param => True) (fun _ hv => hv) ?_ ?_
  · intro params _
    simp [buildParamList]
    refine fun start stop => ⟨fun _ => ⟨params, trivial, rfl⟩, fun hlast => ?_⟩
    obtain ⟨p, hmem, hrest⟩ := List.all_eq_false.mp hlast
    exact hR _ (.restParam rfl hmem (by simpa using hrest))
  · simp [buildParamList, restIsLast]
    exact ⟨[], trivial, rfl⟩

theorem typed_param : Typed .param := by
  refine types_choice (types_accepting ?_ (by simp [restPattern])) <|
    types_choice (types_accepting ?_ (by simp [patternWithDefault])) types_choice_nil
  · simp [restPattern, buildRestParam]
  · simp [patternWithDefault, buildParam]

/-! ## Programs and blocks -/

/-- Semicolons bind no labels. -/
theorem shape_semicolons {P : Value Piece → List (String × Value Piece) → Prop}
    (hany : ∀ v, P v []) : semicolons.Ensures Shape P :=
  Term.ensures_star_any (by simp) hany

@[simp]
theorem accounted_semicolons : semicolons.Accounted Answerable := by
  simp [semicolons]

theorem typed_program : Typed .program := by
  refine types_accepting ?_ (by simp)
  simp
  exact fun _ => ⟨fun _ _ => shape_semicolons (by simp [buildProgram]),
    fun _ => shape_semicolons (by simp [buildProgram])⟩

theorem typed_statementList : Typed .statementList where
  value := Term.ensures_separated (fun _ : Stmt => True) (by simp) (fun _ hv => hv)
    fun ss _ => ⟨ss, trivial, rfl⟩
  actions := accounted_separated (by simp) (by simp)

theorem typed_separator : Typed .separator := by
  refine ⟨?_, by simp [separator]⟩
  simp [separator]
  exact shape_semicolons (by simp)

theorem typed_block : Typed .block := by
  refine types_accepting ?_ (by simp)
  simp
  exact fun _ _ => ⟨fun _ _ => shape_semicolons (by simp [buildBlock]),
    fun _ => shape_semicolons (by simp [buildBlock])⟩

theorem typed_statement : Typed .statement := by
  refine ⟨by simp [statement, buildExprStatement], ?_⟩
  have hexpr : Types (.action buildExprStatement (.rule .expression)) fun _ => True :=
    types_accepting (by simp [buildExprStatement]) (by simp)
  simpa [statement] using hexpr.actions

/-! ## Statements -/

theorem typed_declaration : Typed .declaration :=
  types_accepting (by simp [buildDeclaration, word]) (by simp)

theorem typed_functionDeclaration : Typed .functionDeclaration := by
  refine types_accepting ?_ (by simp)
  refine Term.ensures_opt_any (by simp [word]) fun isAsync => ?_
  simp only [word, Term.ensures_label, Term.ensures_seq, Term.ensuresSeq_cons,
    Term.ensuresSeq_nil, Term.ensures_lit, Term.ensures_not]
  intro _
  refine Term.ensures_opt_any (by simp) fun isGenerator => ?_
  simp [buildFunctionDeclaration]

theorem typed_ifStatement : Typed .ifStatement := by
  refine types_accepting ?_ (by simp)
  simp [word]
  intro _ _ test _ body
  exact Term.ensures_star (fun _ : Branch => True) (by simp) (by simp [buildIf])

theorem typed_elseIf : Typed .elseIf :=
  types_accepting (by simp [buildElseIf, word]) (by simp)

theorem typed_whileStatement : Typed .whileStatement :=
  types_accepting (by simp [buildWhile, word]) (by simp)

theorem typed_loopStatement : Typed .loopStatement :=
  types_accepting (by simp [buildLoop, word]) (by simp)

theorem typed_forStatement : Typed .forStatement :=
  types_accepting (by simp [buildFor, word]) (by simp)

theorem typed_returnStatement : Typed .returnStatement :=
  types_accepting (by simp [buildReturn, word]) (by simp)

theorem typed_breakStatement : Typed .breakStatement :=
  types_accepting (by simp [buildBreak, word]) (by simp)

theorem typed_continueStatement : Typed .continueStatement :=
  types_accepting (by simp [buildContinue, word]) (by simp)

theorem typed_throwStatement : Typed .throwStatement :=
  types_accepting (by simp [buildThrow, word]) (by simp)

theorem typed_tryStatement : Typed .tryStatement := by
  refine types_action (fun R hR => ?_) (by simp)
  simp [buildTry, word]
  exact fun _ _ _ _ _ => hR _ (.bareTry rfl rfl)

theorem typed_catchClause : Typed .catchClause :=
  types_choice (types_accepting (by simp [buildHandlerWithParam, word]) (by simp)) <|
    types_choice (types_accepting (by simp [buildHandler, word]) (by simp)) types_choice_nil

theorem typed_guardStatement : Typed .guardStatement :=
  types_choice (types_accepting (by simp [guarded, buildGuard, word]) (by simp [guarded])) <|
    types_choice (types_accepting (by simp [guarded, buildGuard, word]) (by simp [guarded]))
      types_choice_nil

theorem typed_importStatement : Typed .importStatement :=
  types_choice (types_accepting (by simp [buildImport, word]) (by simp)) <|
    types_choice (types_accepting (by simp [buildImport, word]) (by simp)) types_choice_nil

theorem typed_importClause : Typed .importClause := by
  refine types_choice (types_accepting (by simp [buildNamespaceClause, word]) (by simp)) <|
    types_choice (types_accepting ?_ (by simp)) types_choice_nil
  rw [Term.ensures_label]
  refine shape_listOf (fun _ : ImportSpec => True) (fun _ hv => hv) ?_ ?_ <;>
    simp [buildNamedClause]

theorem typed_importSpec : Typed .importSpec :=
  types_accepting (by simp [buildImportSpec, word]) (by simp)

theorem typed_exportStatement : Typed .exportStatement :=
  types_choice (types_accepting (by simp [buildExportDefault, word]) (by simp)) <|
    types_choice (types_accepting (by simp [buildExport, word]) (by simp)) types_choice_nil

theorem typed_assignTarget : Typed .assignTarget := by
  refine types_choice (types_accepting (by simp [buildPatternTarget]) (by simp)) <|
    types_choice (types_accepting (by simp [buildPatternTarget]) (by simp)) <|
    types_choice (types_action (fun R hR => ?_) (by simp)) types_choice_nil
  simp [buildExprTarget]
  exact fun e start stop hnone => hR _ (.target rfl hnone)

theorem typed_assignOperator : Typed .assignOperator :=
  ⟨by simp [assignOperator], by simp [assignOperator]⟩

end Language

end PegScript

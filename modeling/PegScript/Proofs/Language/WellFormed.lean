import PegScript.Proofs.Language.ExpressionValues
import PegScript.Proofs.Language.LexicalValues
import PegScript.Proofs.Language.NameValues
import PegScript.Proofs.Language.PatternValues
import PegScript.Proofs.Language.StatementValues
import PegScript.Proofs.Semantics.Adequacy

/-!
# Parsed programs are well-formed

Every reading of every rule has the value that is claimed of the rule, by induction on the
derivation.  Hence all pieces of a parsed program are well-formed.
-/

namespace PegScript

namespace Language

/-- The value of a rule is what the rule gives. -/
theorem gives_of_derives {r : Symbol} {c : Cursor} {m : Reading Piece}
    (h : Derives grammar (.rule r) c (some m)) : Gives r m.value := by
  refine Derives.rule_value (fun r c m h hensured => ?_) h
  cases r with
  | string => exact gives_string h hensured
  | identifier => exact gives_identifier h
  | identifierName => exact gives_identifierName h
  | number => exact gives_number h
  | rawString => exact hensured _ keeps_rawString
  | stringPart => exact hensured _ keeps_stringPart
  | interpolation => exact hensured _ keeps_interpolation
  | stringText => exact hensured _ keeps_stringText
  | plainString => exact hensured _ keeps_plainString
  | expression => exact hensured _ keeps_expression
  | yield => exact hensured _ keeps_yield
  | pipeline => exact hensured _ keeps_pipeline
  | pipeStage => exact hensured _ keeps_pipeStage
  | bindStage => exact hensured _ keeps_bindStage
  | range => exact hensured _ keeps_range
  | conditional => exact hensured _ keeps_conditional
  | coalesce => exact hensured _ keeps_coalesce
  | or => exact hensured _ keeps_or
  | and => exact hensured _ keeps_and
  | equality => exact hensured _ keeps_equality
  | relational => exact hensured _ keeps_relational
  | additive => exact hensured _ keeps_additive
  | multiplicative => exact hensured _ keeps_multiplicative
  | exponent => exact hensured _ keeps_exponent
  | unary => exact hensured _ keeps_unary
  | suffixed => exact hensured _ keeps_suffixed
  | suffix => exact hensured _ keeps_suffix
  | call => exact hensured _ keeps_call
  | optionalCall => exact hensured _ keeps_optionalCall
  | optionalMember => exact hensured _ keeps_optionalMember
  | member => exact hensured _ keeps_member
  | index => exact hensured _ keeps_index
  | argument => exact hensured _ keeps_argument
  | primary => exact hensured _ keeps_primary
  | literal => exact hensured _ keeps_literal
  | arrow => exact hensured _ keeps_arrow
  | arrowParams => exact hensured _ keeps_arrowParams
  | arrowBody => exact hensured _ keeps_arrowBody
  | functionExpression => exact hensured _ keeps_functionExpression
  | doExpression => exact hensured _ keeps_doExpression
  | newExpression => exact hensured _ keeps_newExpression
  | newCallee => exact hensured _ keeps_newCallee
  | parenthesized => exact hensured _ keeps_parenthesized
  | array => exact hensured _ keeps_array
  | object => exact hensured _ keeps_object
  | property => exact hensured _ keeps_property
  | propertyKey => exact hensured _ keeps_propertyKey
  | pattern => exact hensured _ keeps_pattern
  | objectPattern => exact hensured _ keeps_objectPattern
  | objectPatternElement => exact hensured _ keeps_objectPatternElement
  | arrayPattern => exact hensured _ keeps_arrayPattern
  | arrayPatternElement => exact hensured _ keeps_arrayPatternElement
  | defaultValue => exact hensured _ keeps_defaultValue
  | paramList => exact hensured _ keeps_paramList
  | param => exact hensured _ keeps_param
  | program => exact hensured _ keeps_program
  | statementList => exact hensured _ keeps_statementList
  | block => exact hensured _ keeps_block
  | statement => exact hensured _ keeps_statement
  | declaration => exact hensured _ keeps_declaration
  | functionDeclaration => exact hensured _ keeps_functionDeclaration
  | ifStatement => exact hensured _ keeps_ifStatement
  | elseIf => exact hensured _ keeps_elseIf
  | whileStatement => exact hensured _ keeps_whileStatement
  | loopStatement => exact hensured _ keeps_loopStatement
  | forStatement => exact hensured _ keeps_forStatement
  | returnStatement => exact hensured _ keeps_returnStatement
  | breakStatement => exact hensured _ keeps_breakStatement
  | continueStatement => exact hensured _ keeps_continueStatement
  | throwStatement => exact hensured _ keeps_throwStatement
  | tryStatement => exact hensured _ keeps_tryStatement
  | catchClause => exact hensured _ keeps_catchClause
  | guardStatement => exact hensured _ keeps_guardStatement
  | importStatement => exact hensured _ keeps_importStatement
  | importClause => exact hensured _ keeps_importClause
  | importSpec => exact hensured _ keeps_importSpec
  | exportStatement => exact hensured _ keeps_exportStatement
  | assignment => exact hensured _ keeps_assignment
  | assignTarget => exact hensured _ keeps_assignTarget
  | _ => exact trivial

/-- Every piece of a string that was read is well-formed and has proper names. -/
theorem sound_of_derives_string {c : Cursor} {m : Reading Piece} {parts : List StrPart}
    (h : Derives grammar (.rule .string) c (some m)) (hvalue : m.value = .ofNode (Expr.str parts)) :
    Sound (Expr.str parts).pieces := by
  obtain ⟨e, hsound, heq⟩ : Gives .string m.value := gives_of_derives h
  cases Value.ofNode_inj (heq.trans hvalue)
  exact hsound

theorem programOf_eq_ok {source : String} {value : Value Piece} {program : Program}
    (h : programOf source value = .ok program) : value = .ofNode program := by
  unfold programOf at h
  split at h
  · cases h
    rfl
  · cases h

/-- A program that was parsed is the value of a reading of the whole source. -/
theorem derives_of_parse {settings : Settings} {source : String} {program : Program}
    (h : parse settings source = .ok program) :
    ∃ stop, Derives grammar (.rule .program) (Cursor.start source)
      (some ⟨stop, .ofNode program, []⟩) ∧ stop.rest = [] := by
  unfold parse at h
  cases houtcome : (grammar.parse settings source).outcome with
  | error diagnosis =>
      rw [houtcome] at h
      cases h
  | ok value =>
      rw [houtcome] at h
      have hdone := Grammar.overflow_eq_none_of_ok houtcome
      obtain ⟨stop, hread, hsize⟩ := (Grammar.parseFrom_eq_ok_iff hdone).mp houtcome
      rw [programOf_eq_ok h] at hread
      refine ⟨stop, hread, byteLength_eq_zero_iff.mp ?_⟩
      have hbytes := hread.reaches.byteLength_eq
      rw [utf8ByteSize_eq_byteLength] at hsize
      dsimp only [Cursor.start] at hbytes
      omega

/-- Every piece of a parsed program is well-formed and has proper names. -/
theorem sound_of_parse {settings : Settings} {source : String} {program : Program}
    (h : parse settings source = .ok program) : Sound program.pieces := by
  obtain ⟨stop, hread, -⟩ := derives_of_parse h
  have hgives : Gives .program (.ofNode program) := gives_of_derives hread
  obtain ⟨program', hsound, heq⟩ := hgives
  cases Value.ofNode_inj heq
  exact hsound

/-- Every piece of a parsed program is well-formed, for every source and all settings. -/
theorem parse_wellFormed (settings : Settings) (source : String) (program : Program)
    (h : parse settings source = .ok program) :
    ∀ piece ∈ program.pieces, piece.WellFormed := by
  intro piece hpiece
  exact (sound_of_parse h piece hpiece).1

/-- A function with a rest parameter and an empty block. -/
theorem parse_wellFormed_restParameter :
    ∃ program, parse { memoize := false } "fn f(...r) \x7b\x7d" = .ok program ∧
      ∀ piece ∈ program.pieces, piece.WellFormed := by
  have hok : (parse { memoize := false } "fn f(...r) \x7b\x7d").isOk = true := by
    decide +kernel
  cases hparse : parse { memoize := false } "fn f(...r) \x7b\x7d" with
  | error diagnosis =>
      rw [hparse] at hok
      cases hok
  | ok program => exact ⟨program, rfl, parse_wellFormed _ _ program hparse⟩

end Language

end PegScript

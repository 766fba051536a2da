import PegScript.Proofs.Language.LexicalValues
import PegScript.Proofs.Semantics.RunValues

/-!
# Kinds of values

Every rule of the language has a kind of value: a text, a list, a node of one type or a list of such
nodes (`kindOf`).  `Shape` says what the values of rules look like as far as the actions around them
need it, and `Refusal` lists the reasons for which an action may reject a match.

A body is checked once (`Types`): its value has the shape of the rule, and each of its actions
rejects for one of the listed reasons only.
-/

namespace PegScript

namespace Language

open Lexical Destructuring Statement

/-! ## Kinds -/

/-- The kinds of values that rules have. -/
inductive Kind where
  | text
  | list
  /-- A text, or a list of texts. -/
  | token
  | program
  | block
  | stmt
  | expr
  | strPart
  | element
  | property
  | propertyKey
  | pipeStage
  | param
  | pattern
  | patternElement
  | assignTarget
  | branch
  | handler
  | importSpec
  | importClause
  | suffix
  /-- A list of parameters. -/
  | params
  /-- A list of statements. -/
  | stmts
deriving DecidableEq, Repr

/-- Whether the value is of the kind. -/
def Kind.fits : Kind → Value Piece → Bool
  | .text, .text _ | .list, .list _ | .token, .text _ | .token, .list _ => true
  | .program, .node (.program _) | .block, .node (.block _) | .stmt, .node (.stmt _)
  | .expr, .node (.expr _) | .strPart, .node (.strPart _) | .element, .node (.element _)
  | .property, .node (.property _) | .propertyKey, .node (.propertyKey _)
  | .pipeStage, .node (.pipeStage _) | .param, .node (.param _) | .pattern, .node (.pattern _)
  | .patternElement, .node (.patternElement _) | .assignTarget, .node (.assignTarget _)
  | .branch, .node (.branch _) | .handler, .node (.handler _)
  | .importSpec, .node (.importSpec _) | .importClause, .node (.importClause _)
  | .suffix, .node (.suffix _) => true
  | .params, .list items => items.all fun | .node (.param _) => true | _ => false
  | .stmts, .list items => items.all fun | .node (.stmt _) => true | _ => false
  | _, _ => false

/-- The kind of value that a rule has. -/
def kindOf : Symbol → Kind
  | .newline | .identStart | .identPart | .identifier | .identifierName | .plainString => .text
  | .blank | .layout | .comment | .lineComment | .blockComment | .keyword | .hexNumber
  | .binaryNumber | .octalNumber | .decimalNumber | .stringChar | .separator => .list
  | .assignOperator => .token
  | .number | .string | .rawString | .expression | .yield | .pipeline | .range | .conditional
  | .coalesce | .or | .and | .equality | .relational | .additive | .multiplicative | .exponent
  | .unary | .suffixed | .primary | .literal | .arrow | .functionExpression | .doExpression
  | .newExpression | .newCallee | .parenthesized | .array | .object | .defaultValue => .expr
  | .stringPart | .interpolation | .stringText => .strPart
  | .pipeStage | .bindStage => .pipeStage
  | .suffix | .call | .optionalCall | .optionalMember | .member | .index => .suffix
  | .argument => .element
  | .property => .property
  | .propertyKey => .propertyKey
  | .arrowParams | .paramList => .params
  | .param => .param
  | .arrowBody | .block => .block
  | .pattern | .objectPattern | .arrayPattern => .pattern
  | .objectPatternElement | .arrayPatternElement => .patternElement
  | .program => .program
  | .statementList => .stmts
  | .statement | .declaration | .functionDeclaration | .ifStatement | .whileStatement
  | .loopStatement | .forStatement | .returnStatement | .breakStatement | .continueStatement
  | .throwStatement | .tryStatement | .guardStatement | .importStatement | .exportStatement
  | .assignment => .stmt
  | .elseIf => .branch
  | .catchClause => .handler
  | .importClause => .importClause
  | .importSpec => .importSpec
  | .assignTarget => .assignTarget

/-- The elements of an object pattern are properties, and names for the rest. -/
def IsObjectElement (e : PatternElement) : Prop :=
  (∃ prop, e = .prop prop) ∨ ∃ name, e = .rest (.ident name)

/-- The elements of an array pattern are items, and patterns for the rest. -/
def IsArrayElement (e : PatternElement) : Prop :=
  (∃ item, e = .item item) ∨ ∃ pattern, e = .rest pattern

/-- What the values of a rule look like. -/
@[simp]
def Shape : Symbol → Value Piece → Prop
  | .newline | .identStart | .identPart | .identifier | .identifierName | .plainString =>
      fun v => ∃ s, .text s = v
  | .blank | .layout | .comment | .lineComment | .blockComment | .keyword | .hexNumber
  | .binaryNumber | .octalNumber | .decimalNumber | .stringChar | .separator =>
      fun v => ∃ vs, .list vs = v
  | .assignOperator => fun v => (∃ s, .text s = v) ∨ ∃ vs, .list vs = v
  | .number => Value.Holds fun e : Expr => ∃ s, e = .number s
  | .string => Value.Holds fun e : Expr => ∃ parts, e = .str parts ∧
      parts.IsChain fun p q => p.isText = true → q.isText = false
  | .rawString | .expression | .yield | .pipeline | .range | .conditional
  | .coalesce | .or | .and | .equality | .relational | .additive | .multiplicative | .exponent
  | .unary | .suffixed | .primary | .literal | .arrow | .functionExpression | .doExpression
  | .newExpression | .newCallee | .parenthesized | .array | .object | .defaultValue =>
      Value.Holds fun _ : Expr => True
  | .stringPart | .interpolation | .stringText => Value.Holds fun _ : StrPart => True
  | .pipeStage | .bindStage => Value.Holds fun _ : PipeStage => True
  | .suffix | .call | .optionalCall | .optionalMember | .member | .index =>
      Value.Holds fun _ : Suffix => True
  | .argument => Value.Holds fun _ : Element => True
  | .property => Value.Holds fun _ : Property => True
  | .propertyKey => Value.Holds fun _ : PropertyKey => True
  | .arrowParams | .paramList => Value.HoldsList fun _ : List Param => True
  | .param => Value.Holds fun _ : Param => True
  | .arrowBody | .block => Value.Holds fun _ : Block => True
  | .pattern | .objectPattern | .arrayPattern => Value.Holds fun _ : Pattern => True
  | .objectPatternElement => Value.Holds IsObjectElement
  | .arrayPatternElement => Value.Holds IsArrayElement
  | .program => Value.Holds fun _ : Program => True
  | .statementList => Value.HoldsList fun _ : List Stmt => True
  | .statement | .declaration | .functionDeclaration | .ifStatement | .whileStatement
  | .loopStatement | .forStatement | .returnStatement | .breakStatement | .continueStatement
  | .throwStatement | .tryStatement | .guardStatement | .importStatement | .exportStatement
  | .assignment => Value.Holds fun _ : Stmt => True
  | .elseIf => Value.Holds fun _ : Branch => True
  | .catchClause => Value.Holds fun _ : Handler => True
  | .importClause => Value.Holds fun _ : ImportClause => True
  | .importSpec => Value.Holds fun _ : ImportSpec => True
  | .assignTarget => Value.Holds fun _ : AssignTarget => True

/-- A value of the shape of a rule is of its kind. -/
theorem fits_of_shape {r : Symbol} {v : Value Piece} (h : Shape r v) :
    (kindOf r).fits v = true := by
  cases r
  case newline | identStart | identPart | identifier | identifierName | plainString =>
    obtain ⟨_, rfl⟩ := h
    rfl
  case blank | layout | comment | lineComment | blockComment | keyword | hexNumber
      | binaryNumber | octalNumber | decimalNumber | stringChar | separator =>
    obtain ⟨_, rfl⟩ := h
    rfl
  case assignOperator =>
    obtain ⟨_, rfl⟩ | ⟨_, rfl⟩ := h <;> rfl
  case arrowParams | paramList | statementList =>
    obtain ⟨as, -, rfl⟩ := h
    simp [kindOf, Kind.fits, Value.ofNodes, Value.ofNode, NodeKind.wrap]
  all_goals
    obtain ⟨_, -, rfl⟩ := h
    rfl

/-! ## Reasons for rejecting a match -/

/-- The reasons for which an action rejects a match. -/
inductive Refusal : Build → ActionInput Piece → Prop where
  /-- A digit separator does not stand between digits. -/
  | separators {input : ActionInput Piece}
      (h : hasGoodSeparators (input.start.textTo input.stop) = false) : Refusal buildNumber input
  /-- A string with an interpolation is used as a name. -/
  | interpolated {input : ActionInput Piece} {parts : List StrPart} {e : Expr}
      (hvalue : input.value = .ofNode (Expr.str parts)) (hpart : .expr e ∈ parts) :
      Refusal buildPlainString input
  /-- A rest element stands before the last element of an object pattern. -/
  | objectRest {input : ActionInput Piece} {elements : List PatternElement} {p : Pattern}
      (helements : (takeLabel "elements" input.labels).1 = .ofNodes elements)
      (hrest : .rest p ∈ elements.dropLast) : Refusal buildObjectPattern input
  /-- A rest element stands before the last element of an array pattern. -/
  | arrayRest {input : ActionInput Piece} {elements : List PatternElement} {p : Pattern}
      (helements : (takeLabel "elements" input.labels).1 = .ofNodes elements)
      (hrest : .rest p ∈ elements.dropLast) : Refusal buildArrayPattern input
  /-- A rest parameter stands before the last parameter. -/
  | restParam {input : ActionInput Piece} {params : List Param} {p : Param}
      (hvalue : input.value = .ofNodes params) (hmem : p ∈ params.dropLast)
      (hrest : p.rest = true) : Refusal buildParamList input
  /-- A keyword is the key of a property that binds its key. -/
  | keywordKey {input : ActionInput Piece} {key : String}
      (hkey : (takeLabel "key" input.labels).1 = .text key) (hkeyword : isKeyword key = true)
      (hvalue : (takeLabel "value" input.labels).1 = .absent) : Refusal buildPatternProp input
  /-- A `try` has neither a handler nor a finalizer. -/
  | bareTry {input : ActionInput Piece}
      (hcatch : (takeLabel "catch" input.labels).1 = .absent)
      (hfinally : (takeLabel "finally" input.labels).1 = .absent) : Refusal buildTry input
  /-- A compound assignment has a pattern as its target. -/
  | compound {input : ActionInput Piece} {p : Pattern} {token : String}
      (htarget : (takeLabel "target" input.labels).1 = .ofNode (AssignTarget.pattern p))
      (hop : (takeLabel "op" input.labels).1 = .text token) (hcompound : token ≠ "=") :
      Refusal buildAssignment input
  /-- The target of an assignment cannot be assigned to. -/
  | target {input : ActionInput Piece} {e : Expr}
      (hvalue : input.value = .ofNode e) (htarget : targetOf? e = none) :
      Refusal buildExprTarget input

/-! ## Checking bodies -/

/-- Where the term is run and its value is as known, the action rejects for one of the reasons
only. -/
def Answerable (act : Build) (t : Body) : Prop :=
  ∀ (settings : Settings) (source : String) (n : Nat) (c : Cursor)
    (s s' : Session Symbol Piece) (m : Match Piece),
    c.IsPlaceOf source → s.Placed source → s.Faithful grammar source →
    Runs grammar settings n t c s (some m) s' →
    (∀ P, t.Ensures Shape P → P m.value s'.labels) →
    act ⟨s'.labels, m.value, c, m.stop⟩ = none → Refusal act ⟨s'.labels, m.value, c, m.stop⟩

/-- The value of the term has the property, and its actions reject for one of the reasons only. -/
structure Types (t : Body) (K : Value Piece → Prop) : Prop where
  value : t.Ensures Shape fun v _ => K v
  actions : t.Accounted Answerable

/-- The body of the rule has the shape of the rule. -/
abbrev Typed (r : Symbol) : Prop :=
  Types (body r) (Shape r)

section Types

variable {act : Build} {t : Body} {ts : List Body} {r : Symbol} {K : Value Piece → Prop}

theorem types_rule (h : ∀ v, Shape r v → K v) : Types (.rule r) K :=
  ⟨h, trivial⟩

theorem types_choice_nil : Types (.choice []) K :=
  ⟨trivial, trivial⟩

theorem types_choice (h : Types t K) (hs : Types (.choice ts) K) :
    Types (.choice (t :: ts)) K :=
  ⟨⟨h.value, hs.value⟩, ⟨h.actions, hs.actions⟩⟩

/-- What an action gives and when it rejects follow from the value and the labels it is applied
to. -/
theorem types_action
    (h : ∀ R : ActionInput Piece → Prop, (∀ input, Refusal act input → R input) →
      t.Ensures Shape fun v labels => ∀ start stop, act.Meets ⟨labels, v, start, stop⟩
        (fun w _ => K w) (R ⟨labels, v, start, stop⟩))
    (ht : t.Accounted Answerable) : Types (.action act t) K := by
  have hmeets := h (Refusal act) fun _ hrefusal => hrefusal
  refine ⟨?_, ?_, ht⟩
  · exact Term.Ensures.mono t (fun _ _ hmeets start stop => (hmeets start stop).ensures) hmeets
  · intro settings source n c s s' m hplace hs hfaithful hrun hensured hnone
    exact (hensured _ hmeets c m.stop).of_eq_none hnone

/-- An action that never rejects. -/
theorem types_accepting
    (h : t.Ensures Shape fun v labels => ∀ start stop, act.Meets ⟨labels, v, start, stop⟩
      (fun w _ => K w) False)
    (ht : t.Accounted Answerable) : Types (.action act t) K := by
  refine types_action (fun R _ => Term.Ensures.mono t (fun v labels hmeets start stop => ?_) h) ht
  exact (hmeets start stop).imp_right False.elim

end Types

@[simp]
theorem accounted_word (text : String) : (word text).Accounted Answerable := by
  simp [word]

/-! ## Bracketed lists -/

/-- The value of a bracketed list is the list of its items, or is missing if there are none. -/
theorem shape_listOf {α : Type} [NodeKind α Piece] (P : α → Prop)
    {item : Symbol} {opening closing : String}
    {R : Value Piece → List (String × Value Piece) → Prop}
    (hitem : ∀ v, Shape item v → v.Holds P)
    (hsome : ∀ as : List α, (∀ a ∈ as, P a) → R (.ofNodes as) [])
    (hnone : R .absent []) :
    (listOf item opening closing).Ensures Shape R := by
  have hitems : (Term.separated item comma).Ensures Shape R := by
    refine Term.ensures_separated P ?_ hitem hsome
    simp [comma]
  simpa [listOf] using ⟨hitems, hnone⟩

/-- Joining the items of a list never fails. -/
theorem accounted_separated {item : Symbol} {separator : Body}
    (hseparator : separator.Ensures Shape fun _ labels => labels = [])
    (haccounted : separator.Accounted Answerable) :
    (Term.separated item separator).Accounted Answerable := by
  have hjoin : Types (Term.separated item separator) fun _ => True := by
    refine types_accepting ?_ ?_
    · intro head _
      refine ⟨fun _ => True, Term.Ensures.mono separator (fun _ labels hlabels => ?_) hseparator,
        fun vs _ start stop => trivial⟩
      intro v _
      exact ⟨trivial, hlabels⟩
    · simp [haccounted]
  exact hjoin.actions

@[simp]
theorem accounted_listOf {item : Symbol} {opening closing : String} :
    (listOf item opening closing).Accounted Answerable := by
  have hitems : (Term.separated item comma).Accounted Answerable :=
    accounted_separated (by simp [comma]) (by simp [comma])
  simp [listOf, hitems]

end Language

end PegScript

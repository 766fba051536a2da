import PegScript.Language.Grammar
import PegScript.Proofs.Semantics.Ensures
import PegScript.Proofs.Tree.Names
import PegScript.Proofs.Tree.WellFormed

/-!
# What the rules of the language produce

For each rule, what holds of the value of every one of its readings: which kind of node it is, and
that all pieces of that node are well-formed and have proper names.  Some rules say more, for the
rules around them need it: which statements can be exported, which patterns can be assigned to.
-/

namespace PegScript

namespace Language

/-! ## Every kind of node can be read back -/

instance : LawfulNodeKind Program Piece := ⟨fun _ => rfl⟩
instance : LawfulNodeKind Block Piece := ⟨fun _ => rfl⟩
instance : LawfulNodeKind Stmt Piece := ⟨fun _ => rfl⟩
instance : LawfulNodeKind Expr Piece := ⟨fun _ => rfl⟩
instance : LawfulNodeKind StrPart Piece := ⟨fun _ => rfl⟩
instance : LawfulNodeKind Element Piece := ⟨fun _ => rfl⟩
instance : LawfulNodeKind Property Piece := ⟨fun _ => rfl⟩
instance : LawfulNodeKind PropertyKey Piece := ⟨fun _ => rfl⟩
instance : LawfulNodeKind PipeStage Piece := ⟨fun _ => rfl⟩
instance : LawfulNodeKind Param Piece := ⟨fun _ => rfl⟩
instance : LawfulNodeKind Pattern Piece := ⟨fun _ => rfl⟩
instance : LawfulNodeKind PatternElement Piece := ⟨fun _ => rfl⟩
instance : LawfulNodeKind AssignTarget Piece := ⟨fun _ => rfl⟩
instance : LawfulNodeKind Branch Piece := ⟨fun _ => rfl⟩
instance : LawfulNodeKind Handler Piece := ⟨fun _ => rfl⟩
instance : LawfulNodeKind ImportSpec Piece := ⟨fun _ => rfl⟩
instance : LawfulNodeKind ImportClause Piece := ⟨fun _ => rfl⟩
instance : LawfulNodeKind Suffix Piece := ⟨fun _ => rfl⟩
instance : LawfulNodeKind Operand Piece := ⟨fun _ => rfl⟩

/-! ## The values of rules -/

attribute [simp] body

/-- The piece is well-formed and has proper names. -/
@[simp]
def SoundPiece (piece : Piece) : Prop :=
  piece.WellFormed ∧ piece.Named

/-- All of the pieces are well-formed and have proper names. -/
abbrev Sound (pieces : List Piece) : Prop :=
  Everywhere SoundPiece pieces

def SoundSuffix (s : Suffix) : Prop :=
  Sound s.pieces ∧ s.Named

def SoundParam (p : Param) : Prop :=
  Sound p.pieces ∧ (p.rest = true → p.default = none)

def SoundParams (ps : List Param) : Prop :=
  (∀ p ∈ ps, Sound p.pieces) ∧ RestLast ps

/-- What is known of the value of a rule. -/
@[simp]
def Gives : Symbol → Value Piece → Prop
  | .identifier => fun v => ∃ s, isVariable s = true ∧ .text s = v
  | .identifierName => fun v => ∃ s, isName s = true ∧ .text s = v
  | .plainString => fun v => ∃ s : String, IsStringText s.toList ∧ .text s = v
  | .stringPart | .interpolation | .stringText =>
      Value.Holds fun part : StrPart => Sound part.pieces
  | .expression | .yield | .pipeline | .range | .conditional | .coalesce | .or | .and
  | .equality | .relational | .additive | .multiplicative | .exponent | .unary
  | .suffixed | .primary | .literal | .arrow | .functionExpression | .doExpression
  | .newExpression | .newCallee | .parenthesized | .array | .object | .number | .string
  | .rawString | .defaultValue =>
      Value.Holds fun e : Expr => Sound e.pieces
  | .suffix | .call | .optionalCall | .optionalMember | .member | .index =>
      Value.Holds SoundSuffix
  | .pipeStage | .bindStage => Value.Holds fun s : PipeStage => Sound s.pieces
  | .argument => Value.Holds fun e : Element => Sound e.pieces
  | .property => Value.Holds fun p : Property => Sound p.pieces
  | .propertyKey => Value.Holds fun k : PropertyKey => Sound k.pieces
  | .arrowParams | .paramList => Value.HoldsList SoundParams
  | .param => Value.Holds SoundParam
  | .arrowBody | .block => Value.Holds fun b : Block => Sound b.pieces
  | .pattern => Value.Holds fun p : Pattern => Sound p.pieces
  | .objectPattern | .arrayPattern =>
      Value.Holds fun p : Pattern => Sound p.pieces ∧ p.Destructures
  | .objectPatternElement | .arrayPatternElement =>
      Value.Holds fun e : PatternElement => Sound e.pieces
  | .program => Value.Holds fun p : Program => Sound p.pieces
  | .statementList => Value.HoldsList fun ss : List Stmt => ∀ s ∈ ss, Sound s.pieces
  | .declaration | .functionDeclaration =>
      Value.Holds fun s : Stmt => Sound s.pieces ∧ s.Declares
  | .statement | .ifStatement | .whileStatement | .loopStatement | .forStatement
  | .returnStatement | .breakStatement | .continueStatement | .throwStatement
  | .tryStatement | .guardStatement | .importStatement | .exportStatement | .assignment =>
      Value.Holds fun s : Stmt => Sound s.pieces
  | .elseIf => Value.Holds fun b : Branch => Sound b.pieces
  | .catchClause => Value.Holds fun h : Handler => Sound h.pieces
  | .importClause => Value.Holds ImportClause.Named
  | .importSpec => Value.Holds ImportSpec.Named
  | .assignTarget =>
      Value.Holds fun t : AssignTarget => Sound t.pieces ∧ t.Assignable
  | .blank | .layout | .newline | .comment | .lineComment | .blockComment | .identStart
  | .identPart | .keyword | .hexNumber | .binaryNumber | .octalNumber | .decimalNumber
  | .stringChar | .separator | .assignOperator => fun _ => True

@[simp]
theorem gives_blank (v : Value Piece) : Gives .blank v :=
  trivial

@[simp]
theorem gives_layout (v : Value Piece) : Gives .layout v :=
  trivial

/-- The body of the rule ensures what is known of the rule. -/
@[simp]
def Keeps (r : Symbol) : Prop :=
  (body r).Ensures Gives fun v _ => Gives r v

/-! ## Common shapes -/

/-- The value of a bracketed list is the list of its items, or is missing if there are none. -/
theorem ensures_listOf {α : Type} [NodeKind α Piece] (P : α → Prop)
    {item : Symbol} {opening closing : String}
    {R : Value Piece → List (String × Value Piece) → Prop}
    (hitem : ∀ v, Gives item v → v.Holds P)
    (hsome : ∀ as : List α, (∀ a ∈ as, P a) → R (.ofNodes as) [])
    (hnone : R .absent []) :
    (listOf item opening closing).Ensures Gives R := by
  have hitems : (Term.separated item comma).Ensures Gives R := by
    refine Term.ensures_separated P ?_ hitem hsome
    simp [comma]
  simpa [listOf, -Gives] using ⟨hitems, hnone⟩

end Language

end PegScript

import PegScript.Language.Destructuring
import PegScript.Language.Expression
import PegScript.Language.Statement
import PegScript.Parse.Engine

/-!
# The grammar of the language

Every rule with its body, and the parser for programs.
-/

namespace PegScript

namespace Language

/-- The body of a rule. -/
def body : Symbol → Body
  | .blank => Lexical.blank
  | .layout => Lexical.layout
  | .newline => Lexical.newline
  | .comment => Lexical.comment
  | .lineComment => Lexical.lineComment
  | .blockComment => Lexical.blockComment
  | .identStart => Lexical.identStart
  | .identPart => Lexical.identPart
  | .keyword => Lexical.keyword
  | .identifier => Lexical.identifier
  | .identifierName => Lexical.identifierName
  | .number => Lexical.number
  | .hexNumber => Lexical.hexNumber
  | .binaryNumber => Lexical.binaryNumber
  | .octalNumber => Lexical.octalNumber
  | .decimalNumber => Lexical.decimalNumber
  | .string => Lexical.string
  | .stringPart => Lexical.stringPart
  | .interpolation => Lexical.interpolation
  | .stringText => Lexical.stringText
  | .stringChar => Lexical.stringChar
  | .rawString => Lexical.rawString
  | .plainString => Lexical.plainString
  | .expression => Expression.expression
  | .yield => Expression.yieldExpr
  | .pipeline => Expression.pipeline
  | .pipeStage => Expression.pipeStage
  | .bindStage => Expression.bindStage
  | .range => Expression.range
  | .conditional => Expression.conditional
  | .coalesce => Expression.coalesce
  | .or => Expression.or
  | .and => Expression.and
  | .equality => Expression.equality
  | .relational => Expression.relational
  | .additive => Expression.additive
  | .multiplicative => Expression.multiplicative
  | .exponent => Expression.exponent
  | .unary => Expression.unary
  | .suffixed => Expression.suffixed
  | .suffix => Expression.suffix
  | .call => Expression.call
  | .optionalCall => Expression.optionalCall
  | .optionalMember => Expression.optionalMember
  | .member => Expression.member
  | .index => Expression.index
  | .argument => Expression.argument
  | .primary => Expression.primary
  | .literal => Expression.literal
  | .arrow => Expression.arrow
  | .arrowParams => Expression.arrowParams
  | .arrowBody => Expression.arrowBody
  | .functionExpression => Expression.functionExpression
  | .doExpression => Expression.doExpression
  | .newExpression => Expression.newExpression
  | .newCallee => Expression.newCallee
  | .parenthesized => Expression.parenthesized
  | .array => Expression.array
  | .object => Expression.object
  | .property => Expression.property
  | .propertyKey => Expression.propertyKey
  | .pattern => Destructuring.pattern
  | .objectPattern => Destructuring.objectPattern
  | .objectPatternElement => Destructuring.objectPatternElement
  | .arrayPattern => Destructuring.arrayPattern
  | .arrayPatternElement => Destructuring.arrayPatternElement
  | .defaultValue => Destructuring.defaultValue
  | .paramList => Destructuring.paramList
  | .param => Destructuring.param
  | .program => Statement.program
  | .statementList => Statement.statementList
  | .separator => Statement.separator
  | .block => Statement.block
  | .statement => Statement.statement
  | .declaration => Statement.declaration
  | .functionDeclaration => Statement.functionDeclaration
  | .ifStatement => Statement.ifStatement
  | .elseIf => Statement.elseIf
  | .whileStatement => Statement.whileStatement
  | .loopStatement => Statement.loopStatement
  | .forStatement => Statement.forStatement
  | .returnStatement => Statement.returnStatement
  | .breakStatement => Statement.breakStatement
  | .continueStatement => Statement.continueStatement
  | .throwStatement => Statement.throwStatement
  | .tryStatement => Statement.tryStatement
  | .catchClause => Statement.catchClause
  | .guardStatement => Statement.guardStatement
  | .importStatement => Statement.importStatement
  | .importClause => Statement.importClause
  | .importSpec => Statement.importSpec
  | .exportStatement => Statement.exportStatement
  | .assignment => Statement.assignment
  | .assignTarget => Statement.assignTarget
  | .assignOperator => Statement.assignOperator

/-- What is reported in place of the failures at the start of a rule. -/
def expectation : Symbol → Option String
  | .newline => some "newline"
  | .identifier => some "identifier"
  | .identifierName => some "identifier"
  | .number => some "number"
  | .string => some "string"
  | .rawString => some "string"
  | .expression => some "expression"
  | .pattern => some "pattern"
  | .statement => some "statement"
  | _ => none

/-- Layout takes no part in diagnostics. -/
def isSilent : Symbol → Bool
  | .blank | .layout => true
  | _ => false

/-- The grammar of the language. -/
def grammar : Grammar Symbol Piece where
  symbols := Symbol.all
  rule symbol := {
    name := symbol.name
    expect := expectation symbol
    silent := isSilent symbol
    body := body symbol }
  root := .program

/-- The program that a value holds. -/
def programOf (source : String) (value : Value Piece) : Except Diagnosis Program :=
  match value with
  | .node (.program program) => .ok program
  | _ => .error (({} : FurthestFailure).diagnose source)

/-- Parses a program. -/
def parse (settings : Settings) (source : String) : Except Diagnosis Program :=
  (grammar.parse settings source).outcome.bind (programOf source)

end Language

end PegScript

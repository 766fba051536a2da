/-!
# The rules of the language

Each rule of the grammar of the language is a value of one type, so a grammar over it has a rule for
every reference.  The names are the ones that traces and dumps show.
-/

namespace PegScript

/-- A rule of the language. -/
inductive Symbol where
  | blank
  | layout
  | newline
  | comment
  | lineComment
  | blockComment
  | identStart
  | identPart
  | keyword
  | identifier
  | identifierName
  | number
  | hexNumber
  | binaryNumber
  | octalNumber
  | decimalNumber
  | string
  | stringPart
  | interpolation
  | stringText
  | stringChar
  | rawString
  | plainString
  | expression
  | yield
  | pipeline
  | pipeStage
  | bindStage
  | range
  | conditional
  | coalesce
  | or
  | and
  | equality
  | relational
  | additive
  | multiplicative
  | exponent
  | unary
  | suffixed
  | suffix
  | call
  | optionalCall
  | optionalMember
  | member
  | index
  | argument
  | primary
  | literal
  | arrow
  | arrowParams
  | arrowBody
  | functionExpression
  | doExpression
  | newExpression
  | newCallee
  | parenthesized
  | array
  | object
  | property
  | propertyKey
  | pattern
  | objectPattern
  | objectPatternElement
  | arrayPattern
  | arrayPatternElement
  | defaultValue
  | paramList
  | param
  | program
  | statementList
  | separator
  | block
  | statement
  | declaration
  | functionDeclaration
  | ifStatement
  | elseIf
  | whileStatement
  | loopStatement
  | forStatement
  | returnStatement
  | breakStatement
  | continueStatement
  | throwStatement
  | tryStatement
  | catchClause
  | guardStatement
  | importStatement
  | importClause
  | importSpec
  | exportStatement
  | assignment
  | assignTarget
  | assignOperator
deriving DecidableEq, Hashable, Repr

namespace Symbol

/-- The name of a rule. -/
def name : Symbol → String
  | blank => "_"
  | layout => "__"
  | newline => "Newline"
  | comment => "Comment"
  | lineComment => "LineComment"
  | blockComment => "BlockComment"
  | identStart => "IdentStart"
  | identPart => "IdentPart"
  | keyword => "Keyword"
  | identifier => "Identifier"
  | identifierName => "IdentifierName"
  | number => "Number"
  | hexNumber => "HexNumber"
  | binaryNumber => "BinaryNumber"
  | octalNumber => "OctalNumber"
  | decimalNumber => "DecimalNumber"
  | string => "String"
  | stringPart => "StringPart"
  | interpolation => "Interpolation"
  | stringText => "StringText"
  | stringChar => "StringChar"
  | rawString => "RawString"
  | plainString => "PlainString"
  | expression => "Expression"
  | yield => "Yield"
  | pipeline => "Pipeline"
  | pipeStage => "PipeStage"
  | bindStage => "BindStage"
  | range => "Range"
  | conditional => "Conditional"
  | coalesce => "Coalesce"
  | or => "Or"
  | and => "And"
  | equality => "Equality"
  | relational => "Relational"
  | additive => "Additive"
  | multiplicative => "Multiplicative"
  | exponent => "Exponent"
  | unary => "Unary"
  | suffixed => "Postfix"
  | suffix => "Suffix"
  | call => "Call"
  | optionalCall => "OptionalCall"
  | optionalMember => "OptionalMember"
  | member => "Member"
  | index => "Index"
  | argument => "Argument"
  | primary => "Primary"
  | literal => "Literal"
  | arrow => "Arrow"
  | arrowParams => "ArrowParams"
  | arrowBody => "ArrowBody"
  | functionExpression => "FunctionExpression"
  | doExpression => "DoExpression"
  | newExpression => "NewExpression"
  | newCallee => "NewCallee"
  | parenthesized => "Parenthesized"
  | array => "Array"
  | object => "Object"
  | property => "Property"
  | propertyKey => "PropertyKey"
  | pattern => "Pattern"
  | objectPattern => "ObjectPattern"
  | objectPatternElement => "ObjectPatternElement"
  | arrayPattern => "ArrayPattern"
  | arrayPatternElement => "ArrayPatternElement"
  | defaultValue => "Default"
  | paramList => "ParamList"
  | param => "Param"
  | program => "Program"
  | statementList => "StatementList"
  | separator => "Separator"
  | block => "Block"
  | statement => "Statement"
  | declaration => "Let"
  | functionDeclaration => "FunctionDeclaration"
  | ifStatement => "If"
  | elseIf => "ElseIf"
  | whileStatement => "While"
  | loopStatement => "Loop"
  | forStatement => "For"
  | returnStatement => "Return"
  | breakStatement => "Break"
  | continueStatement => "Continue"
  | throwStatement => "Throw"
  | tryStatement => "Try"
  | catchClause => "Catch"
  | guardStatement => "Guard"
  | importStatement => "Import"
  | importClause => "ImportClause"
  | importSpec => "ImportSpec"
  | exportStatement => "Export"
  | assignment => "Assign"
  | assignTarget => "AssignTarget"
  | assignOperator => "AssignOperator"

/-- Rules of layout, names and literals. -/
def lexical : List Symbol := [
  .blank, .layout, .newline, .comment, .lineComment, .blockComment, .identStart, .identPart,
  .keyword, .identifier, .identifierName, .number, .hexNumber, .binaryNumber, .octalNumber,
  .decimalNumber, .string, .stringPart, .interpolation, .stringText, .stringChar, .rawString,
  .plainString]

/-- Rules of expressions. -/
def expressions : List Symbol := [
  .expression, .yield, .pipeline, .pipeStage, .bindStage, .range, .conditional, .coalesce, .or,
  .and, .equality, .relational, .additive, .multiplicative, .exponent, .unary, .suffixed, .suffix,
  .call, .optionalCall, .optionalMember, .member, .index, .argument, .primary, .literal, .arrow,
  .arrowParams, .arrowBody, .functionExpression, .doExpression, .newExpression, .newCallee,
  .parenthesized, .array, .object, .property, .propertyKey]

/-- Rules of patterns and parameters. -/
def patterns : List Symbol := [
  .pattern, .objectPattern, .objectPatternElement, .arrayPattern, .arrayPatternElement,
  .defaultValue, .paramList, .param]

/-- Rules of statements. -/
def statements : List Symbol := [
  .program, .statementList, .separator, .block, .statement, .declaration, .functionDeclaration,
  .ifStatement, .elseIf, .whileStatement, .loopStatement, .forStatement, .returnStatement,
  .breakStatement, .continueStatement, .throwStatement, .tryStatement, .catchClause,
  .guardStatement, .importStatement, .importClause, .importSpec, .exportStatement, .assignment,
  .assignTarget, .assignOperator]

/-- All rules, in the order of the grammar. -/
def all : List Symbol :=
  lexical ++ expressions ++ patterns ++ statements

end Symbol

end PegScript

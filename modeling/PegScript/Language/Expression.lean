import PegScript.Language.Shape

/-!
# Expressions

The rules for expressions, from pipelines down to operands.  A level of binary operators matches
operands of the next tighter level and folds them to the left; exponents fold to the right.
-/

namespace PegScript

namespace Language

namespace Expression

def expression : Body :=
  .choice [.rule .yield, .rule .pipeline]

def buildYield : Build := do
  let argument ← ActionM.node? "argument"
  ActionM.produce (Expr.yield argument (← ActionM.flag "delegate"))

def yieldExpr : Body :=
  .action buildYield <| .seq [
    word "yield",
    .label "delegate" (.opt (.seq [.rule .blank, .lit "*"])),
    .label "argument" (.opt (.pick 1 (.seq [.rule .blank, .rule .pipeline])))]

/-- Without stages there is no pipeline. -/
def withStages (head : Expr) : List PipeStage → Expr
  | [] => head
  | stages => .pipeline head stages

def buildPipeline : Build := do
  let head ← ActionM.node "head"
  let stages ← ActionM.nodes "stages"
  ActionM.produce (withStages head stages)

def pipeline : Body :=
  .action buildPipeline <| .seq [
    .label "head" (.rule .range),
    .label "stages" <| .star <| .pick 3 <| .seq [
      .rule .layout, .lit "|>", .rule .layout, .rule .pipeStage]]

def buildCallStage : Build := do
  ActionM.produce (PipeStage.call (← ActionM.valueNode))

def pipeStage : Body :=
  .choice [.rule .bindStage, .action buildCallStage (.rule .suffixed)]

def buildBindStage : Build := do
  let name ← ActionM.text "name"
  ActionM.produce (PipeStage.bind name (← ActionM.node "expr"))

def bindStage : Body :=
  .action buildBindStage <| .seq [
    .lit "(",
    .rule .blank,
    .label "name" (.rule .identifier),
    .rule .blank,
    .lit ":",
    .rule .layout,
    .label "expr" (.rule .expression),
    .rule .layout,
    .lit ")"]

def buildRange : Build := do
  let start ← ActionM.node "start"
  let stop ← ActionM.node "end"
  ActionM.produce (Expr.range start stop (← ActionM.node? "step"))

def range : Body :=
  .choice [
    .action buildRange <| .seq [
      .label "start" (.rule .conditional),
      .rule .blank,
      .lit "->",
      .rule .layout,
      .label "end" (.rule .conditional),
      .label "step" <| .opt <| .pick 3 <| .seq [
        .rule .blank, word "by", .rule .blank, .rule .conditional]],
    .rule .conditional]

def buildConditional : Build := do
  let test ← ActionM.node "test"
  let consequent ← ActionM.node "consequent"
  ActionM.produce (Expr.conditional test consequent (← ActionM.node "alternate"))

def conditional : Body :=
  .choice [
    .action buildConditional <| .seq [
      .label "test" (.rule .coalesce),
      .rule .blank,
      .lit "?",
      .not (.oneOf [('?', '?'), ('.', '.')]),
      .rule .layout,
      .label "consequent" (.rule .conditional),
      .rule .layout,
      .lit ":",
      .rule .layout,
      .label "alternate" (.rule .conditional)],
    .rule .coalesce]

def buildOperand : Build := do
  let op ← ActionM.require (BinaryOp.ofToken? (← ActionM.text "op"))
  ActionM.produce (Operand.mk op (← ActionM.node "right"))

/-- Applies operators from left to right. -/
def foldOperands (head : Expr) (tail : List Operand) : Expr :=
  tail.foldl (fun left o => .binary o.op left o.right) head

def buildBinary : Build := do
  let head ← ActionM.node "head"
  ActionM.produce (foldOperands head (← ActionM.nodes "tail"))

/-- Operands of the level `next` with operators `op` between them. -/
def binaryLevel (next : Symbol) (op : Body) : Body :=
  .action buildBinary <| .seq [
    .label "head" (.rule next),
    .label "tail" <| .star <| .action buildOperand <| .seq [
      .rule .blank,
      .label "op" (.text op),
      .rule .layout,
      .label "right" (.rule next)]]

/-- A symbol that is not the start of its own compound assignment. -/
def symbol (text : String) : Body :=
  .seq [.lit text, .not (.lit "=")]

def coalesce : Body :=
  binaryLevel .or (symbol "??")

def or : Body :=
  binaryLevel .and (.choice [symbol "||", word "or"])

def and : Body :=
  binaryLevel .equality (.choice [symbol "&&", word "and"])

def equality : Body :=
  binaryLevel .relational (.seq [.choice [.lit "==", .lit "!="], .not (.lit "=")])

def relational : Body :=
  binaryLevel .additive
    (.choice [.lit "<=", .lit ">=", .lit "<", .lit ">", word "instanceof"])

def additive : Body :=
  binaryLevel .multiplicative <| .choice [
    symbol "+",
    .seq [.lit "-", .not (.oneOf [('=', '='), ('>', '>')])]]

def multiplicative : Body :=
  binaryLevel .exponent <| .choice [
    .seq [.lit "*", .not (.oneOf [('*', '*'), ('=', '=')])],
    .seq [.lit "/", .not (.oneOf [('/', '/'), ('*', '*'), ('=', '=')])],
    symbol "%"]

def buildPower : Build := do
  let left ← ActionM.node "left"
  ActionM.produce (Expr.binary .pow left (← ActionM.node "right"))

def exponent : Body :=
  .choice [
    .action buildPower <| .seq [
      .label "left" (.rule .unary),
      .rule .blank,
      .lit "**",
      .not (.lit "="),
      .rule .layout,
      .label "right" (.rule .exponent)],
    .rule .unary]

def buildAwait : Build := do
  ActionM.produce (Expr.await (← ActionM.node "expr"))

def buildUnary : Build := do
  let op ← ActionM.require (UnaryOp.ofToken? (← ActionM.text "op"))
  ActionM.produce (Expr.unary op (← ActionM.node "expr"))

def unary : Body :=
  .choice [
    .action buildAwait (.seq [word "await", .rule .blank, .label "expr" (.rule .unary)]),
    .action buildUnary <| .seq [
      .label "op" (.text (.choice [.lit "!", word "not", word "typeof", .lit "-", .lit "+"])),
      .rule .blank,
      .label "expr" (.rule .unary)],
    .rule .suffixed]

/-- The expression with a postfix operation applied to it. -/
def applySuffix (object : Expr) : Suffix → Expr
  | .call args optional => .call object args optional
  | .member property optional => .member object property optional
  | .index index => .index object index

def buildSuffixed : Build := do
  let head ← ActionM.node "head"
  let tail ← ActionM.nodes "tail"
  ActionM.produce (List.foldl applySuffix head tail)

def suffixed : Body :=
  .action buildSuffixed <| .seq [
    .label "head" (.rule .primary),
    .label "tail" (.star (.rule .suffix))]

def suffix : Body :=
  .choice [
    .rule .call, .rule .optionalCall, .rule .optionalMember, .rule .member, .rule .index]

def buildCall (optional : Bool) : Build := do
  ActionM.produce (Suffix.call (← ActionM.nodes "args") optional)

def call : Body :=
  .action (buildCall false) (.label "args" (listOf .argument "(" ")"))

def optionalCall : Body :=
  .action (buildCall true) (.seq [.lit "?.", .label "args" (listOf .argument "(" ")")])

def buildMember (optional : Bool) : Build := do
  ActionM.produce (Suffix.member (← ActionM.text "property") optional)

def optionalMember : Body :=
  .action (buildMember true) <| .seq [
    .rule .layout,
    .lit "?.",
    .label "property" (.rule .identifierName)]

def member : Body :=
  .action (buildMember false) <| .seq [
    .rule .layout,
    .lit ".",
    .not (.lit "."),
    .label "property" (.rule .identifierName)]

def buildIndex : Build := do
  ActionM.produce (Suffix.index (← ActionM.node "index"))

def index : Body :=
  .action buildIndex <| .seq [
    .rule .blank,
    .lit "[",
    .rule .layout,
    .label "index" (.rule .expression),
    .rule .layout,
    .lit "]"]

def buildSpreadElement : Build := do
  ActionM.produce (Element.spread (← ActionM.node "expr"))

def buildElement : Build := do
  ActionM.produce (Element.expr (← ActionM.valueNode))

/-- Three dots, layout and an expression. -/
def spread : Body :=
  .seq [.lit "...", .rule .layout, .label "expr" (.rule .expression)]

def argument : Body :=
  .choice [.action buildSpreadElement spread, .action buildElement (.rule .expression)]

def buildIdent : Build := do
  ActionM.produce (Expr.ident (← ActionM.valueText))

def primary : Body :=
  .choice [
    .rule .arrow,
    .rule .functionExpression,
    .rule .doExpression,
    .rule .newExpression,
    .rule .parenthesized,
    .rule .array,
    .rule .object,
    .rule .number,
    .rule .string,
    .rule .rawString,
    .rule .literal,
    .action buildIdent (.rule .identifier)]

/-- The constant that a word stands for. -/
def constantOf : String → Expr
  | "true" => .bool true
  | "false" => .bool false
  | "null" => .null
  | "undefined" => .undefined
  | _ => .this

def buildLiteral : Build := do
  ActionM.produce (constantOf (← ActionM.matched))

def literal : Body :=
  .action buildLiteral <| .text <| .choice [
    word "true", word "false", word "null", word "undefined", word "this"]

def buildArrow : Build := do
  let params ← ActionM.nodes "params"
  let body ← ActionM.node "body"
  let isAsync ← ActionM.flag "async"
  ActionM.produce <| Expr.function {
    name := none, params, body, isAsync, isGenerator := false, isArrow := true }

def arrow : Body :=
  .action buildArrow <| .seq [
    .label "async" (.opt (.seq [word "async", .rule .blank])),
    .label "params" (.rule .arrowParams),
    .rule .blank,
    .lit "=>",
    .rule .layout,
    .label "body" (.rule .arrowBody)]

def buildSingleParam : Build := do
  let name ← ActionM.valueText
  let param : Param := { pattern := .ident name, default := none, rest := false }
  return .list [.node (.param param)]

def arrowParams : Body :=
  .choice [.rule .paramList, .action buildSingleParam (.rule .identifier)]

def buildTailBlock : Build := do
  let tail ← ActionM.valueNode
  ActionM.produce (Block.mk [] (some tail))

def arrowBody : Body :=
  .choice [.rule .block, .action buildTailBlock (.rule .expression)]

def buildFunctionExpression : Build := do
  let name ← ActionM.text? "name"
  let params ← ActionM.nodes "params"
  let body ← ActionM.node "body"
  let isAsync ← ActionM.flag "async"
  let isGenerator ← ActionM.flag "generator"
  ActionM.produce <| Expr.function { name, params, body, isAsync, isGenerator, isArrow := false }

def functionExpression : Body :=
  .action buildFunctionExpression <| .seq [
    .label "async" (.opt (.seq [word "async", .rule .blank])),
    word "fn",
    .label "generator" (.opt (.seq [.rule .blank, .lit "*"])),
    .rule .blank,
    .label "name" (.opt (.rule .identifier)),
    .rule .blank,
    .label "params" (.rule .paramList),
    .rule .blank,
    .label "body" (.rule .block)]

def buildDo : Build := do
  ActionM.produce (Expr.doBlock (← ActionM.node "body"))

def doExpression : Body :=
  .action buildDo (.seq [word "do", .rule .blank, .label "body" (.rule .block)])

def buildNew : Build := do
  let callee ← ActionM.node "callee"
  ActionM.produce (Expr.new callee (← ActionM.nodes "args"))

def newExpression : Body :=
  .action buildNew <| .seq [
    word "new",
    .rule .blank,
    .label "callee" (.rule .newCallee),
    .label "args" (.opt (listOf .argument "(" ")"))]

def newCallee : Body :=
  .action buildSuffixed <| .seq [
    .label "head" (.rule .primary),
    .label "tail" (.star (.rule .member))]

def parenthesized : Body :=
  .pick 2 <| .seq [
    .lit "(", .rule .layout, .rule .expression, .rule .layout, .lit ")"]

def buildArray : Build := do
  ActionM.produce (Expr.array (← ActionM.nodes "items"))

def array : Body :=
  .action buildArray (.label "items" (listOf .argument "[" "]"))

def buildObject : Build := do
  ActionM.produce (Expr.object (← ActionM.nodes "props"))

def object : Body :=
  .action buildObject (.label "props" (listOf .property "\x7b" "\x7d"))

def buildSpreadProperty : Build := do
  ActionM.produce (Property.spread (← ActionM.node "expr"))

def buildKeyValue : Build := do
  let key ← ActionM.node "key"
  ActionM.produce (Property.keyValue key (← ActionM.node "value"))

def buildShorthand : Build := do
  ActionM.produce (Property.shorthand (← ActionM.valueText))

def property : Body :=
  .choice [
    .action buildSpreadProperty spread,
    .action buildKeyValue <| .seq [
      .label "key" (.rule .propertyKey),
      .rule .blank,
      .lit ":",
      .rule .layout,
      .label "value" (.rule .expression)],
    .action buildShorthand (.rule .identifier)]

def buildIdentKey : Build := do
  ActionM.produce (PropertyKey.ident (← ActionM.valueText))

def buildStringKey : Build := do
  ActionM.produce (PropertyKey.str (← ActionM.valueText))

/-- The text of a number. -/
def numberText? : Expr → Option String
  | .number text => some text
  | _ => none

def buildNumberKey : Build := do
  let text ← ActionM.require (numberText? (← ActionM.valueNode))
  ActionM.produce (PropertyKey.number text)

def buildComputedKey : Build := do
  ActionM.produce (PropertyKey.computed (← ActionM.node "expr"))

def propertyKey : Body :=
  .choice [
    .action buildIdentKey (.rule .identifierName),
    .action buildStringKey (.rule .plainString),
    .action buildNumberKey (.rule .number),
    .action buildComputedKey <| .seq [
      .lit "[",
      .rule .layout,
      .label "expr" (.rule .expression),
      .rule .layout,
      .lit "]"]]

end Expression

end Language

end PegScript

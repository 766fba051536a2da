import PegScript.Language.Shape

/-!
# Statements

The rules for programs, blocks and statements.  Statements are separated by a line break or a
semicolon; further semicolons are ignored.
-/

namespace PegScript

namespace Language

namespace Statement

/-- Semicolons with layout behind each. -/
def semicolons : Body :=
  .star (.seq [.lit ";", .rule .layout])

def buildProgram : Build := do
  ActionM.produce (Program.mk (← ActionM.nodes "body"))

def program : Body :=
  .action buildProgram <| .seq [
    .rule .layout,
    .label "body" (.opt (.rule .statementList)),
    .rule .layout,
    semicolons]

def statementList : Body :=
  .separated .statement (.rule .separator)

def separator : Body :=
  .seq [
    .rule .blank,
    .choice [.lit ";", .rule .newline],
    .rule .layout,
    semicolons]

/-- A final expression statement becomes the tail of the block. -/
def blockOf (body : List Stmt) : Block :=
  match body.getLast? with
  | some (.expr expr) => ⟨body.dropLast, some expr⟩
  | _ => ⟨body, none⟩

def buildBlock : Build := do
  ActionM.produce (blockOf (← ActionM.nodes "body"))

def block : Body :=
  .action buildBlock <| .seq [
    .lit "\x7b",
    .rule .layout,
    .label "body" (.opt (.rule .statementList)),
    .rule .layout,
    semicolons,
    .lit "\x7d"]

def buildExprStatement : Build := do
  ActionM.produce (Stmt.expr (← ActionM.valueNode))

def statement : Body :=
  .choice [
    .rule .declaration,
    .rule .functionDeclaration,
    .rule .ifStatement,
    .rule .whileStatement,
    .rule .loopStatement,
    .rule .forStatement,
    .rule .returnStatement,
    .rule .breakStatement,
    .rule .continueStatement,
    .rule .throwStatement,
    .rule .tryStatement,
    .rule .guardStatement,
    .rule .importStatement,
    .rule .exportStatement,
    .rule .assignment,
    .action buildExprStatement (.rule .expression)]

/-- The kind of declaration that a word starts. -/
def declKindOf : String → DeclKind
  | "const" => .constDecl
  | _ => .letDecl

def buildDeclaration : Build := do
  let kind := declKindOf (← ActionM.text "kind")
  let pattern ← ActionM.node "pattern"
  ActionM.produce (Stmt.decl kind pattern (← ActionM.node? "init"))

def declaration : Body :=
  .action buildDeclaration <| .seq [
    .label "kind" (.text (.choice [word "let", word "const"])),
    .rule .blank,
    .label "pattern" (.rule .pattern),
    .label "init" (.opt (.rule .defaultValue))]

def buildFunctionDeclaration : Build := do
  let name ← ActionM.text "name"
  let params ← ActionM.nodes "params"
  let body ← ActionM.node "body"
  let isAsync ← ActionM.flag "async"
  let isGenerator ← ActionM.flag "generator"
  ActionM.produce <| Stmt.function {
    name := some name, params, body, isAsync, isGenerator, isArrow := false }

def functionDeclaration : Body :=
  .action buildFunctionDeclaration <| .seq [
    .label "async" (.opt (.seq [word "async", .rule .blank])),
    word "fn",
    .label "generator" (.opt (.seq [.rule .blank, .lit "*"])),
    .rule .blank,
    .label "name" (.rule .identifier),
    .rule .blank,
    .label "params" (.rule .paramList),
    .rule .blank,
    .label "body" (.rule .block)]

def buildIf : Build := do
  let test ← ActionM.node "test"
  let body ← ActionM.node "then"
  let branches ← ActionM.nodes "branches"
  ActionM.produce (Stmt.ifElse (⟨test, body⟩ :: branches) (← ActionM.node? "otherwise"))

def ifStatement : Body :=
  .action buildIf <| .seq [
    word "if",
    .rule .blank,
    .label "test" (.rule .expression),
    .rule .blank,
    .label "then" (.rule .block),
    .label "branches" (.star (.rule .elseIf)),
    .label "otherwise" <| .opt <| .pick 3 <| .seq [
      .rule .layout, word "else", .rule .blank, .rule .block]]

def buildElseIf : Build := do
  let test ← ActionM.node "test"
  ActionM.produce (Branch.mk test (← ActionM.node "body"))

def elseIf : Body :=
  .action buildElseIf <| .seq [
    .rule .layout,
    word "else",
    .rule .blank,
    word "if",
    .rule .blank,
    .label "test" (.rule .expression),
    .rule .blank,
    .label "body" (.rule .block)]

def buildWhile : Build := do
  let test ← ActionM.node "test"
  ActionM.produce (Stmt.whileLoop test (← ActionM.node "body"))

def whileStatement : Body :=
  .action buildWhile <| .seq [
    word "while",
    .rule .blank,
    .label "test" (.rule .expression),
    .rule .blank,
    .label "body" (.rule .block)]

def buildLoop : Build := do
  ActionM.produce (Stmt.loop (← ActionM.node "body"))

def loopStatement : Body :=
  .action buildLoop (.seq [word "loop", .rule .blank, .label "body" (.rule .block)])

/-- A loop over a range that binds one name counts instead of iterating. -/
def forLoop (pattern : Pattern) (iterable : Expr) (body : Block) : Stmt :=
  match pattern, iterable with
  | .ident binding, .range start stop step => .forRange binding start stop step body
  | pattern, iterable => .forIn pattern iterable body

def buildFor : Build := do
  let pattern ← ActionM.node "pattern"
  let iterable ← ActionM.node "iterable"
  ActionM.produce (forLoop pattern iterable (← ActionM.node "body"))

def forStatement : Body :=
  .action buildFor <| .seq [
    word "for",
    .rule .blank,
    .label "pattern" (.rule .pattern),
    .rule .blank,
    word "in",
    .rule .blank,
    .label "iterable" (.rule .expression),
    .rule .blank,
    .label "body" (.rule .block)]

def buildReturn : Build := do
  ActionM.produce (Stmt.ret (← ActionM.node? "value"))

def returnStatement : Body :=
  .action buildReturn <| .seq [
    word "return",
    .label "value" (.opt (.pick 1 (.seq [.rule .blank, .rule .expression])))]

def buildBreak : Build :=
  ActionM.produce Stmt.breakLoop

def breakStatement : Body :=
  .action buildBreak (word "break")

def buildContinue : Build :=
  ActionM.produce Stmt.continueLoop

def continueStatement : Body :=
  .action buildContinue (word "continue")

def buildThrow : Build := do
  ActionM.produce (Stmt.throw (← ActionM.node "expr"))

def throwStatement : Body :=
  .action buildThrow (.seq [word "throw", .rule .blank, .label "expr" (.rule .expression)])

/-- A `try` needs a handler or a finalizer. -/
def buildTry : Build := do
  let handler : Option Handler ← ActionM.node? "catch"
  let finalizer : Option Block ← ActionM.node? "finally"
  let body ← ActionM.node "body"
  if handler.isNone && finalizer.isNone then ActionM.reject
  else ActionM.produce (Stmt.tryCatch body handler finalizer)

def tryStatement : Body :=
  .action buildTry <| .seq [
    word "try",
    .rule .blank,
    .label "body" (.rule .block),
    .label "catch" (.opt (.rule .catchClause)),
    .label "finally" <| .opt <| .pick 3 <| .seq [
      .rule .layout, word "finally", .rule .blank, .rule .block]]

def buildHandlerWithParam : Build := do
  let param ← ActionM.node "param"
  ActionM.produce (Handler.mk (some param) (← ActionM.node "body"))

def buildHandler : Build := do
  ActionM.produce (Handler.mk none (← ActionM.node "body"))

def catchClause : Body :=
  .choice [
    .action buildHandlerWithParam <| .seq [
      .rule .layout,
      word "catch",
      .rule .blank,
      .label "param" (.rule .pattern),
      .rule .blank,
      .label "body" (.rule .block)],
    .action buildHandler <| .seq [
      .rule .layout, word "catch", .rule .blank, .label "body" (.rule .block)]]

/-- The guarded expression and its fallback. -/
def guarded : Body :=
  .seq [
    .label "expr" (.rule .expression),
    .rule .blank,
    word "else",
    .rule .blank,
    .label "error" (.rule .identifier),
    .rule .blank,
    .label "fallback" (.rule .block)]

def buildGuard : Build := do
  let pattern ← ActionM.node? "pattern"
  let expr ← ActionM.node "expr"
  let error ← ActionM.text "error"
  ActionM.produce (Stmt.guard pattern expr error (← ActionM.node "fallback"))

def guardStatement : Body :=
  .choice [
    .action buildGuard <| .seq [
      word "guard",
      .rule .blank,
      .label "pattern" (.rule .pattern),
      .rule .blank,
      .lit "=",
      .not (.oneOf [('=', '='), ('>', '>')]),
      .rule .layout,
      guarded],
    .action buildGuard (.seq [word "guard", .rule .blank, guarded])]

/-- An import with the names that its clause brings. -/
def importOf (default : Option String) (source : String) : Option ImportClause → Import
  | some (.namespaceName name) => { default, namespaceName := some name, named := [], source }
  | some (.named specs) => { default, namespaceName := none, named := specs, source }
  | none => { default, namespaceName := none, named := [], source }

def buildImport : Build := do
  let default ← ActionM.text? "default"
  let source ← ActionM.text "source"
  ActionM.produce (Stmt.importFrom (importOf default source (← ActionM.node? "clause")))

def importStatement : Body :=
  .choice [
    .action buildImport <| .seq [
      word "import",
      .rule .blank,
      .choice [
        .seq [
          .label "default" (.rule .identifier),
          .label "clause" <| .opt <| .pick 3 <| .seq [
            .rule .blank, .lit ",", .rule .layout, .rule .importClause]],
        .label "clause" (.rule .importClause)],
      .rule .blank,
      word "from",
      .rule .blank,
      .label "source" (.rule .plainString)],
    .action buildImport <| .seq [
      word "import", .rule .blank, .label "source" (.rule .plainString)]]

def buildNamespaceClause : Build := do
  ActionM.produce (ImportClause.namespaceName (← ActionM.text "name"))

def buildNamedClause : Build := do
  ActionM.produce (ImportClause.named (← ActionM.nodes "specs"))

def importClause : Body :=
  .choice [
    .action buildNamespaceClause <| .seq [
      .lit "*",
      .rule .blank,
      word "as",
      .rule .blank,
      .label "name" (.rule .identifier)],
    .action buildNamedClause (.label "specs" (listOf .importSpec "\x7b" "\x7d"))]

def buildImportSpec : Build := do
  let name ← ActionM.text "name"
  ActionM.produce (ImportSpec.mk name (← ActionM.text? "alias"))

def importSpec : Body :=
  .action buildImportSpec <| .seq [
    .label "name" (.rule .identifierName),
    .label "alias" <| .opt <| .pick 3 <| .seq [
      .rule .blank, word "as", .rule .blank, .rule .identifier]]

def buildExportDefault : Build := do
  ActionM.produce (Stmt.exportDefault (← ActionM.node "expr"))

def buildExport : Build := do
  ActionM.produce (Stmt.exportDecl (← ActionM.node "decl"))

def exportStatement : Body :=
  .choice [
    .action buildExportDefault <| .seq [
      word "export",
      .rule .blank,
      word "default",
      .rule .blank,
      .label "expr" (.rule .expression)],
    .action buildExport <| .seq [
      word "export",
      .rule .blank,
      .label "decl" (.choice [.rule .declaration, .rule .functionDeclaration])]]

/-- Destructuring needs a plain assignment. -/
def canAssign : AssignTarget → AssignOp → Bool
  | .pattern _, op => op == .assign
  | _, _ => true

def buildAssignment : Build := do
  let target ← ActionM.node "target"
  let op ← ActionM.require (AssignOp.ofToken? (← ActionM.text "op"))
  let value ← ActionM.node "value"
  if canAssign target op then ActionM.produce (Stmt.assign target op value) else ActionM.reject

def assignment : Body :=
  .action buildAssignment <| .seq [
    .label "target" (.rule .assignTarget),
    .rule .blank,
    .label "op" (.text (.rule .assignOperator)),
    .rule .layout,
    .label "value" (.rule .expression)]

def buildPatternTarget : Build := do
  ActionM.produce (AssignTarget.pattern (← ActionM.valueNode))

/-- The target that an expression names, if it can be assigned to. -/
def targetOf? : Expr → Option AssignTarget
  | .ident name => some (.ident name)
  | .member object property false => some (.member object property)
  | .index object index => some (.index object index)
  | _ => none

def buildExprTarget : Build := do
  ActionM.produce (← ActionM.require (targetOf? (← ActionM.valueNode)))

def assignTarget : Body :=
  .choice [
    .action buildPatternTarget (.rule .objectPattern),
    .action buildPatternTarget (.rule .arrayPattern),
    .action buildExprTarget (.rule .suffixed)]

def assignOperator : Body :=
  .choice [
    .lit "**=",
    .lit "??=",
    .lit "||=",
    .lit "&&=",
    .lit "+=",
    .lit "-=",
    .lit "*=",
    .lit "/=",
    .lit "%=",
    .seq [.lit "=", .not (.oneOf [('=', '='), ('>', '>')])]]

end Statement

end Language

end PegScript

import PegScript.Tree.Operator

/-!
# Syntax trees

The tree of a program.  Names and literals keep the text they have in the source.  The types allow
more trees than the grammar produces, for instance a pipeline without stages; lowering checks what
it relies on.
-/

namespace PegScript

inductive DeclKind where
  | letDecl
  | constDecl
deriving DecidableEq, Repr

/-- The word a declaration starts with. -/
def DeclKind.keyword : DeclKind → String
  | letDecl => "let"
  | constDecl => "const"

/-- One name of an import list, `name` or `name as localName`. -/
structure ImportSpec where
  name : String
  localName : Option String
deriving DecidableEq, Repr

structure Import where
  default : Option String
  namespaceName : Option String
  named : List ImportSpec
  source : String
deriving DecidableEq, Repr

mutual

inductive Expr where
  /-- A numeric literal with its digit separators. -/
  | number (text : String)
  | str (parts : List StrPart)
  /-- A single-quoted string, in which a backslash stands for itself. -/
  | rawStr (text : String)
  | bool (value : Bool)
  | null
  | undefined
  | this
  | ident (name : String)
  | array (items : List Element)
  | object (props : List Property)
  | function (function : FunctionDef)
  /-- A block used as an expression. -/
  | doBlock (block : Block)
  | unary (op : UnaryOp) (operand : Expr)
  | binary (op : BinaryOp) (left right : Expr)
  | conditional (test consequent alternate : Expr)
  | call (callee : Expr) (args : List Element) (optional : Bool)
  | new (callee : Expr) (args : List Element)
  | member (object : Expr) (property : String) (optional : Bool)
  | index (object index : Expr)
  | pipeline (head : Expr) (stages : List PipeStage)
  | range (start stop : Expr) (step : Option Expr)
  | await (operand : Expr)
  | yield (argument : Option Expr) (delegate : Bool)

/-- A part of a double-quoted string. -/
inductive StrPart where
  /-- Text as written in the source, escapes included. -/
  | text (text : String)
  /-- An interpolated expression. -/
  | expr (expr : Expr)

/-- An argument or an array item. -/
inductive Element where
  | expr (expr : Expr)
  | spread (expr : Expr)

inductive Property where
  | keyValue (key : PropertyKey) (value : Expr)
  | shorthand (name : String)
  | spread (expr : Expr)

inductive PropertyKey where
  | ident (name : String)
  /-- The text of a string literal without interpolation. -/
  | str (text : String)
  | number (text : String)
  | computed (expr : Expr)

inductive PipeStage where
  /-- Evaluates `expr` with `name` standing for the running value. -/
  | bind (name : String) (expr : Expr)
  /-- Calls `callee` with the running value. -/
  | call (callee : Expr)

structure FunctionDef where
  name : Option String
  params : List Param
  body : Block
  isAsync : Bool
  isGenerator : Bool
  isArrow : Bool

structure Param where
  pattern : Pattern
  default : Option Expr
  rest : Bool

/-- The target of a destructuring. -/
inductive Pattern where
  | ident (name : String)
  | object (props : List PatternProp) (rest : Option String)
  | array (items : List ArrayItem) (rest : Option Pattern)

/-- A property of an object pattern; without a pattern the key itself is bound. -/
structure PatternProp where
  key : String
  value : Option Pattern
  default : Option Expr

structure ArrayItem where
  pattern : Pattern
  default : Option Expr

inductive AssignTarget where
  | ident (name : String)
  | member (object : Expr) (property : String)
  | index (object index : Expr)
  | pattern (pattern : Pattern)

/-- Statements in braces.  A final expression statement is the tail. -/
structure Block where
  body : List Stmt
  tail : Option Expr

/-- A condition with the block it guards. -/
structure Branch where
  test : Expr
  body : Block

structure Handler where
  param : Option Pattern
  body : Block

inductive Stmt where
  | decl (kind : DeclKind) (pattern : Pattern) (init : Option Expr)
  | assign (target : AssignTarget) (op : AssignOp) (value : Expr)
  | expr (expr : Expr)
  | ifElse (branches : List Branch) (otherwise : Option Block)
  | whileLoop (test : Expr) (body : Block)
  | loop (body : Block)
  | forIn (pattern : Pattern) (iterable : Expr) (body : Block)
  /-- Counts from `start` towards `stop`, in either direction. -/
  | forRange (binding : String) (start stop : Expr) (step : Option Expr) (body : Block)
  | ret (value : Option Expr)
  | breakLoop
  | continueLoop
  | throw (expr : Expr)
  | tryCatch (body : Block) (handler : Option Handler) (finalizer : Option Block)
  /-- Binds the value of `expr`, or runs `fallback` with what it threw as `error`. -/
  | guard (pattern : Option Pattern) (expr : Expr) (error : String) (fallback : Block)
  | function (function : FunctionDef)
  | importFrom (clause : Import)
  | exportDecl (decl : Stmt)
  | exportDefault (expr : Expr)

end

structure Program where
  body : List Stmt

end PegScript

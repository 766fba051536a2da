import PegScript.JavaScript.Literal
import PegScript.Tree.Basic

/-!
# Shapes of generated text

Where parentheses stand, how lists are joined and how operators are written.  Nothing here depends
on the state of lowering.
-/

namespace PegScript

namespace JavaScript

/-- The JavaScript operator; equality never converts its operands. -/
def binaryToken : BinaryOp → String
  | .add => "+"
  | .sub => "-"
  | .mul => "*"
  | .div => "/"
  | .rem => "%"
  | .pow => "**"
  | .eq => "==="
  | .notEq => "!=="
  | .lt => "<"
  | .ltEq => "<="
  | .gt => ">"
  | .gtEq => ">="
  | .instanceOf => "instanceof"
  | .and => "&&"
  | .or => "||"
  | .coalesce => "??"

/-- The JavaScript operator, up to its operand. -/
def unaryToken : UnaryOp → String
  | .not => "!"
  | .neg => "-"
  | .plus => "+"
  | .typeOf => "typeof "

def parens (text : String) : String :=
  "(" ++ text ++ ")"

/-- Items separated by commas. -/
def commaList (items : List String) : String :=
  ", ".intercalate items

/-- Items of an object or an object pattern, between braces. -/
def objectText (items : List String) : String :=
  if items.isEmpty then "\x7b\x7d" else "\x7b " ++ commaList items ++ " \x7d"

/-- An expression from the text of its parts: operations with two or three operands stand in
parentheses. -/
def grouped (expr : Expr) (text : String) : String :=
  match expr with
  | .binary .. | .conditional .. => parens text
  | _ => text

/-- An operand of an operation with two or three operands. -/
def asOperand (expr : Expr) (text : String) : String :=
  match expr with
  | .function _ | .yield .. => parens text
  | _ => grouped expr text

/-- The operand of an operator before it. -/
def asUnaryOperand (expr : Expr) (text : String) : String :=
  match expr with
  | .function _ | .yield .. | .unary .. | .await _ => parens text
  | _ => grouped expr text

/-- What a call, a member access or an index applies to. -/
def asTarget (expr : Expr) (text : String) : String :=
  match expr with
  | .function _ | .yield .. | .unary .. | .await _ | .number _ => parens text
  | _ => grouped expr text

/-- A name or a chain of members of one, which `new` takes without parentheses. -/
def isPath : Expr → Bool
  | .ident _ | .this => true
  | .member object _ false => isPath object
  | _ => false

/-- What `new` constructs. -/
def asConstructor (expr : Expr) (text : String) : String :=
  if isPath expr then text else parens (grouped expr text)

/-- Whether one text starts with another. -/
def startsWith (text start : String) : Bool :=
  start.toList.isPrefixOf text.toList

/-- The body of an arrow function; an object needs parentheses there. -/
def arrowResult (text : String) : String :=
  if startsWith text "\x7b" then parens text else text

/-- What an expression statement cannot start with, because it would be read as something else. -/
def statementStarts : List String :=
  ["\x7b", "function", "async function", "class", "let ["]

/-- An expression as a statement. -/
def statementText (text : String) : String :=
  (if statementStarts.any (startsWith text) then parens text else text) ++ ";"

/-- The text of a number that starts with a mark for its base. -/
def hasBaseMark (text : String) : Bool :=
  ["0x", "0X", "0b", "0B", "0o", "0O"].any (startsWith text)

/-- Whether a string part is plain text. -/
def isTextPart : StrPart → Bool
  | .text _ => true
  | .expr _ => false

/-- An index that is never negative, so that a plain access finds the item. -/
def isStaticIndex : Expr → Bool
  | .str parts => parts.all isTextPart
  | .rawStr _ => true
  | .number text => hasBaseMark text || text.toList.all fun c => c.isDigit || c == '_'
  | _ => false

/-- The text of a string without interpolation and without a line break. -/
def singleLine? : List StrPart → Option String
  | [] => some ""
  | [.text text] => if text.toList.any (fun c => c == '\n' || c == '\r') then none else some text
  | _ => none

/-- Whether a declaration of the pattern can go without an initial value. -/
def isIdentPattern : Pattern → Bool
  | .ident _ => true
  | _ => false

/-- Whether a statement can be exported by name. -/
def isDeclaration : Stmt → Bool
  | .decl .. | .function _ => true
  | _ => false

/-- One name of an import list. -/
def importSpecText (spec : ImportSpec) : String :=
  match spec.localName with
  | some name => s!"{spec.name} as {name}"
  | none => spec.name

/-- The names of an import, in the order in which JavaScript takes them. -/
def importClauses (clause : Import) : List String :=
  clause.default.toList
    ++ (clause.namespaceName.toList.map fun name => s!"* as {name}")
    ++ if clause.named.isEmpty then [] else [objectText (clause.named.map importSpecText)]

/-- An import statement. -/
def importText (clause : Import) : String :=
  let names := importClauses clause
  let source := plain clause.source
  if names.isEmpty then s!"import {source};" else s!"import {commaList names} from {source};"

/-- The head of a counting loop.  Only at run time is it known which way it counts. -/
def countingHead (id : Nat) (binding start stop step : String) : String :=
  let startVar := s!"_start{id}"
  let stopVar := s!"_end{id}"
  let stepVar := s!"_step{id}"
  s!"for (let {startVar} = {start}, {stopVar} = {stop}, {stepVar} = Math.abs({step}), "
    ++ s!"{binding} = {startVar}; "
    ++ s!"{startVar} <= {stopVar} ? {binding} < {stopVar} : {binding} > {stopVar}; "
    ++ s!"{binding} += {startVar} <= {stopVar} ? {stepVar} : -{stepVar})"

end JavaScript

end PegScript

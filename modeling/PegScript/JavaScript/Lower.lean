import PegScript.JavaScript.Await
import PegScript.JavaScript.Emitter
import PegScript.JavaScript.Shape

/-!
# Lowering to JavaScript

The text of every kind of tree.  Expressions are lowered without the parentheses that their place
may call for, statements without their indentation and line break; whoever puts them in their place
adds these.
-/

namespace PegScript

namespace JavaScript

open Lower

/-- What becomes of the value of the last expression of a block. -/
inductive TailUse where
  | returned
  | discarded
deriving DecidableEq, Repr

/-- The statement for the last expression of a block. -/
def tailText (use : TailUse) (text : String) : String :=
  match use with
  | .returned => s!"return {text};"
  | .discarded => statementText text

/-- An immediately called function; one that awaits is awaited. -/
def calledBlock (isAsync : Bool) (body : String) : String :=
  if isAsync then "(await (async () =>" ++ body ++ ")())" else "(() =>" ++ body ++ ")()"

/-- The part of a function before its body. -/
def functionHead (f : FunctionDef) (params : List String) : String :=
  (if f.isAsync then "async " else "")
    ++ (if f.isArrow then ""
        else "function" ++ (if f.isGenerator then "*" else "")
          ++ (match f.name with
              | some name => " " ++ name
              | none => ""))
    ++ parens (commaList params)
    ++ if f.isArrow then " =>" else ""

/-- An arrow function whose body is one expression; declarations need a block. -/
def arrowTail (text : Lower String) : Lower String := do
  let (result, names) ← inScope (indented text)
  if names.isEmpty then return " " ++ arrowResult result
  braces do return (← declarations names) ++ (← line (tailText .returned result))

/-- A guarded evaluation: the fallback runs with what was thrown, then the value is bound. -/
def guardText (isAsync : Bool) (expr : Lower String) (error : String) (fallback : Lower String)
    (binding : Lower (Option String)) : Lower String := do
  let id ← freshNumber
  let result := s!"_res{id}"
  let safe ← need (if isAsync then .safeAsync else .safe)
  let body := arrowResult (← expr)
  let call := if isAsync then s!"await {safe}(async () => {body})" else s!"{safe}(() => {body})"
  let failed ← braces do return (← line s!"const {error} = {result}.error;") ++ (← fallback)
  let start ← indentation
  let bound ← binding
  return s!"let {result} = {call};\n" ++ start ++ s!"if (!{result}.ok)" ++ failed
    ++ match bound with
      | some pattern => "\n" ++ start ++ s!"let {pattern} = {result}.value;"
      | none => ""

/-- The default value of a binding. -/
def withDefault (text : String) : Option String → String
  | some default => text ++ " = " ++ default
  | none => text

mutual

/-- The text of an expression, without parentheses around it. -/
def exprText : Expr → Lower String
  | .number text => pure (number text)
  | .str parts =>
    match singleLine? parts with
    | some text => pure (plain text)
    | none => do return "\x60" ++ String.join (← partTexts parts) ++ "\x60"
  | .rawStr text => pure (raw text)
  | .bool value => pure (if value then "true" else "false")
  | .null => pure "null"
  | .undefined => pure "undefined"
  | .this => pure "this"
  | .ident name => readAs name
  | .array items => do return "[" ++ commaList (← elementTexts items) ++ "]"
  | .object props => do return objectText (← propertyTexts props)
  | .function f => functionText f
  | .doBlock block => do return calledBlock block.awaits (← scopeText block)
  | .unary op operand => do return unaryToken op ++ asUnaryOperand operand (← exprText operand)
  | .binary op left right => do
    let l ← exprText left
    let r ← exprText right
    let l := if op = .pow then asUnaryOperand left l else asOperand left l
    return l ++ " " ++ binaryToken op ++ " " ++ asOperand right r
  | .conditional test consequent alternate => do
    let t ← exprText test
    let c ← exprText consequent
    let a ← exprText alternate
    return asOperand test t ++ " ? " ++ asOperand consequent c ++ " : " ++ asOperand alternate a
  | .call callee args optional => do
    let f ← exprText callee
    let list := commaList (← elementTexts args)
    return asTarget callee f ++ (if optional then "?." else "") ++ parens list
  | .new callee args => do
    let f ← exprText callee
    let list := commaList (← elementTexts args)
    return "new " ++ asConstructor callee f ++ parens list
  | .member object property optional => do
    let o ← exprText object
    return asTarget object o ++ (if optional then "?." else ".") ++ property
  | .index object index =>
    if isStaticIndex index then do
      let o ← exprText object
      let i ← exprText index
      return asTarget object o ++ "[" ++ grouped index i ++ "]"
    else do
      let get ← need .get
      let o ← exprText object
      let i ← exprText index
      return get ++ parens (commaList [grouped object o, grouped index i])
  | .pipeline head stages =>
    if stages.isEmpty then throw .emptyPipeline
    else do
      let id ← freshNumber
      let reference := s!"_ref{id}"
      hoist reference
      let h ← exprText head
      let values ← stageTexts reference stages
      let steps := (grouped head h :: values).map fun value => reference ++ " = " ++ value
      return parens (commaList (steps ++ [reference]))
  | .range start stop step => do
    let range ← need .range
    let a ← exprText start
    let b ← exprText stop
    let c := (← exprText? step).getD "1"
    return range ++ parens (commaList [grouped start a, grouped stop b, c])
  | .await operand => do return "await " ++ asUnaryOperand operand (← exprText operand)
  | .yield argument delegate => do
    let keyword := if delegate then "yield*" else "yield"
    match ← exprText? argument with
    | some text => return keyword ++ " " ++ text
    | none => return keyword

/-- An optional expression, with its parentheses. -/
def exprText? : Option Expr → Lower (Option String)
  | none => pure none
  | some expr => do return some (grouped expr (← exprText expr))

/-- A part of a template literal. -/
def partText : StrPart → Lower String
  | .text text => pure (templateText text)
  | .expr expr => do return "$\x7b" ++ grouped expr (← exprText expr) ++ "\x7d"

def partTexts : List StrPart → Lower (List String)
  | [] => pure []
  | part :: parts => do
    let text ← partText part
    return text :: (← partTexts parts)

def elementText : Element → Lower String
  | .expr expr => do return grouped expr (← exprText expr)
  | .spread expr => do return "..." ++ grouped expr (← exprText expr)

def elementTexts : List Element → Lower (List String)
  | [] => pure []
  | element :: elements => do
    let text ← elementText element
    return text :: (← elementTexts elements)

/-- A property.  A name that is read under another one cannot be written in short form. -/
def propertyText : Property → Lower String
  | .keyValue key value => do
    let k ← keyText key
    return k ++ ": " ++ grouped value (← exprText value)
  | .shorthand name => do
    let read ← readAs name
    return if read = name then name else name ++ ": " ++ read
  | .spread expr => do return "..." ++ grouped expr (← exprText expr)

def propertyTexts : List Property → Lower (List String)
  | [] => pure []
  | prop :: props => do
    let text ← propertyText prop
    return text :: (← propertyTexts props)

def keyText : PropertyKey → Lower String
  | .ident name => pure name
  | .str text => pure (plain text)
  | .number text => pure (number text)
  | .computed expr => do return "[" ++ grouped expr (← exprText expr) ++ "]"

/-- The value that a stage gives, with the running value in the variable `reference`. -/
def stageText (reference : String) : PipeStage → Lower String
  | .bind name expr => do
    return grouped expr (← rebinding name reference (exprText expr))
  | .call callee => do
    return asTarget callee (← exprText callee) ++ parens reference

def stageTexts (reference : String) : List PipeStage → Lower (List String)
  | [] => pure []
  | stage :: stages => do
    let text ← stageText reference stage
    return text :: (← stageTexts reference stages)

def functionText : FunctionDef → Lower String
  | ⟨name, params, body, isAsync, isGenerator, isArrow⟩ => do
    let head := functionHead ⟨name, params, body, isAsync, isGenerator, isArrow⟩
      (← paramTexts params)
    return head ++ (← if isArrow then arrowText body else scopeText body)

/-- A parameter; a rest parameter starts with dots. -/
def paramText : Param → Lower String
  | ⟨pattern, default, rest⟩ => do
    let text ← patternText pattern
    return withDefault (if rest then "..." ++ text else text) (← exprText? default)

def paramTexts : List Param → Lower (List String)
  | [] => pure []
  | param :: params => do
    let text ← paramText param
    return text :: (← paramTexts params)

def patternText : Pattern → Lower String
  | .ident name => pure name
  | .object props rest => do
    let texts ← patternPropTexts props
    return objectText (texts ++ rest.toList.map ("..." ++ ·))
  | .array items rest => do
    let texts ← arrayItemTexts items
    let last ← patternText? rest
    return "[" ++ commaList (texts ++ last.toList.map ("..." ++ ·)) ++ "]"

def patternText? : Option Pattern → Lower (Option String)
  | none => pure none
  | some pattern => do return some (← patternText pattern)

def patternPropText : PatternProp → Lower String
  | ⟨key, value, default⟩ => do
    let text :=
      match ← patternText? value with
      | some pattern => key ++ ": " ++ pattern
      | none => key
    return withDefault text (← exprText? default)

def patternPropTexts : List PatternProp → Lower (List String)
  | [] => pure []
  | prop :: props => do
    let text ← patternPropText prop
    return text :: (← patternPropTexts props)

def arrayItemText : ArrayItem → Lower String
  | ⟨pattern, default⟩ => do
    let text ← patternText pattern
    return withDefault text (← exprText? default)

def arrayItemTexts : List ArrayItem → Lower (List String)
  | [] => pure []
  | item :: items => do
    let text ← arrayItemText item
    return text :: (← arrayItemTexts items)

/-- An assignment of a value that is already lowered.  An item at an index that may be negative is
assigned by a helper; a compound assignment then reads the item first. -/
def assignText (op : AssignOp) (value : String) : AssignTarget → Lower String
  | .ident name => do
    let target ← readAs name
    return s!"{target} {op.token} {value};"
  | .member object property => do
    let o ← exprText object
    return asTarget object o ++ s!".{property} {op.token} {value};"
  | .index object index =>
    if isStaticIndex index then do
      let o ← exprText object
      let i ← exprText index
      return asTarget object o ++ "[" ++ grouped index i ++ "]" ++ s!" {op.token} {value};"
    else do
      let set ← need .set
      let o := grouped object (← exprText object)
      let i := grouped index (← exprText index)
      match op.binary? with
      | none => return set ++ parens (commaList [o, i, value]) ++ ";"
      | some binary =>
        let get ← need .get
        let item := get ++ parens (commaList [o, i])
        let result := parens (item ++ " " ++ binaryToken binary ++ " " ++ value)
        return set ++ parens (commaList [o, i, result]) ++ ";"
  | .pattern pattern =>
    if op = .assign then do
      let text := (← patternText pattern) ++ " = " ++ value
      match pattern with
      | .object .. => return parens text ++ ";"
      | _ => return text ++ ";"
    else throw .compoundDestructuring

/-- The statements of a block, each on lines of its own. -/
def blockLines (use : TailUse) : Block → Lower String
  | ⟨body, tail⟩ => do
    let lines ← stmtLines body
    return lines ++ (← tailLine use tail)

/-- The last expression of a block. -/
def tailLine (use : TailUse) : Option Expr → Lower String
  | none => pure ""
  | some expr => do line (tailText use (grouped expr (← exprText expr)))

/-- A block between braces. -/
def bodyText : Block → Lower String
  | ⟨body, tail⟩ =>
    if body.isEmpty && tail.isNone then pure " \x7b\x7d"
    else braces do
      let lines ← stmtLines body
      return lines ++ (← tailLine .discarded tail)

/-- A block as the body of a function, which returns its last expression. -/
def scopeText : Block → Lower String
  | ⟨body, tail⟩ => functionBody do
    let lines ← stmtLines body
    return lines ++ (← tailLine .returned tail)

/-- A block as the body of an arrow function, which may be a mere expression. -/
def arrowText : Block → Lower String
  | ⟨[], some tail⟩ => arrowTail do return grouped tail (← exprText tail)
  | ⟨body, tail⟩ => functionBody do
    let lines ← stmtLines body
    return lines ++ (← tailLine .returned tail)

/-- An optional block behind a keyword. -/
def bodyText? (keyword : String) : Option Block → Lower String
  | none => pure ""
  | some block => do return keyword ++ (← bodyText block)

def branchText : Branch → Lower String
  | ⟨test, body⟩ => do
    let condition ← exprText test
    return "if " ++ parens condition ++ (← bodyText body)

def branchTexts : List Branch → Lower (List String)
  | [] => pure []
  | branch :: branches => do
    let text ← branchText branch
    return text :: (← branchTexts branches)

def handlerText : Option Handler → Lower String
  | none => pure ""
  | some ⟨param, body⟩ => do
    let head :=
      match ← patternText? param with
      | some pattern => " catch " ++ parens pattern
      | none => " catch"
    return head ++ (← bodyText body)

/-- The text of a statement, from its first character to its last. -/
def stmtText : Stmt → Lower String
  | .decl kind pattern init => do
    let text ← patternText pattern
    match ← exprText? init with
    | some value => return s!"{kind.keyword} {text} = {value};"
    | none =>
      if kind = .constDecl || !isIdentPattern pattern then throw .missingInitializer
      else return s!"{kind.keyword} {text};"
  | .assign target op value => do
    let v ← exprText value
    assignText op (grouped value v) target
  | .expr expr => do return statementText (grouped expr (← exprText expr))
  | .ifElse branches otherwise => do
    let texts ← branchTexts branches
    return " else ".intercalate texts ++ (← bodyText? " else" otherwise)
  | .whileLoop test body => do
    let condition ← exprText test
    return "while " ++ parens condition ++ (← bodyText body)
  | .loop body => do return "while (true)" ++ (← bodyText body)
  | .forIn pattern iterable body => do
    let p ← patternText pattern
    let i := grouped iterable (← exprText iterable)
    return s!"for (const {p} of {i})" ++ (← bodyText body)
  | .forRange binding start stop step body => do
    let id ← freshNumber
    let a := grouped start (← exprText start)
    let b := grouped stop (← exprText stop)
    let c := (← exprText? step).getD "1"
    return countingHead id binding a b c ++ (← bodyText body)
  | .ret value => do
    match ← exprText? value with
    | some text => return s!"return {text};"
    | none => return "return;"
  | .breakLoop => pure "break;"
  | .continueLoop => pure "continue;"
  | .throw expr => do return "throw " ++ grouped expr (← exprText expr) ++ ";"
  | .tryCatch body handler finalizer => do
    let b ← bodyText body
    let h ← handlerText handler
    return "try" ++ b ++ h ++ (← bodyText? " finally" finalizer)
  | .guard pattern (.await operand) error fallback =>
    guardText true (do return grouped operand (← exprText operand)) error
      (blockLines .discarded fallback) (patternText? pattern)
  | .guard pattern expr error fallback =>
    guardText expr.awaits (do return grouped expr (← exprText expr)) error
      (blockLines .discarded fallback) (patternText? pattern)
  | .function f => if f.name.isNone then throw .anonymousDeclaration else functionText f
  | .importFrom clause => pure (importText clause)
  | .exportDecl decl => do
    if isDeclaration decl then return "export " ++ (← stmtText decl) else throw .invalidExport
  | .exportDefault expr => do
    return "export default " ++ grouped expr (← exprText expr) ++ ";"

/-- Statements, each on lines of its own. -/
def stmtLines : List Stmt → Lower String
  | [] => pure ""
  | stmt :: stmts => do
    let text ← stmtText stmt
    let first ← line text
    return first ++ (← stmtLines stmts)

/-- The texts of statements. -/
def stmtTexts : List Stmt → Lower (List String)
  | [] => pure []
  | stmt :: stmts => do
    let text ← stmtText stmt
    return text :: (← stmtTexts stmts)

end

end JavaScript

end PegScript

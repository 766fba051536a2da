import PegScript.Tree.Basic

/-!
# Where a tree awaits

An `await` turns the function around it into an asynchronous one.  Whether a piece of a program
awaits is asked for expressions and blocks that become functions of their own; an `await` inside a
nested function does not count, and binding patterns are not searched.
-/

namespace PegScript

mutual

def Expr.awaits : Expr → Bool
  | .await _ => true
  | .str parts => partsAwait parts
  | .array items => elementsAwait items
  | .object props => propertiesAwait props
  | .doBlock block => block.awaits
  | .unary _ operand => operand.awaits
  | .binary _ left right => left.awaits || right.awaits
  | .conditional test consequent alternate =>
    test.awaits || consequent.awaits || alternate.awaits
  | .call callee args _ => callee.awaits || elementsAwait args
  | .new callee args => callee.awaits || elementsAwait args
  | .member object _ _ => object.awaits
  | .index object index => object.awaits || index.awaits
  | .pipeline head stages => head.awaits || stagesAwait stages
  | .range start stop step => start.awaits || stop.awaits || exprAwaits? step
  | .yield argument _ => exprAwaits? argument
  | .number _ | .rawStr _ | .bool _ | .null | .undefined | .this | .ident _ | .function _ => false

def exprAwaits? : Option Expr → Bool
  | none => false
  | some expr => expr.awaits

def StrPart.awaits : StrPart → Bool
  | .text _ => false
  | .expr expr => expr.awaits

def partsAwait : List StrPart → Bool
  | [] => false
  | part :: parts => part.awaits || partsAwait parts

def Element.awaits : Element → Bool
  | .expr expr => expr.awaits
  | .spread expr => expr.awaits

def elementsAwait : List Element → Bool
  | [] => false
  | element :: elements => element.awaits || elementsAwait elements

def Property.awaits : Property → Bool
  | .keyValue key value => key.awaits || value.awaits
  | .shorthand _ => false
  | .spread expr => expr.awaits

def PropertyKey.awaits : PropertyKey → Bool
  | .computed expr => expr.awaits
  | .ident _ | .str _ | .number _ => false

def propertiesAwait : List Property → Bool
  | [] => false
  | prop :: props => prop.awaits || propertiesAwait props

def PipeStage.awaits : PipeStage → Bool
  | .bind _ expr => expr.awaits
  | .call callee => callee.awaits

def stagesAwait : List PipeStage → Bool
  | [] => false
  | stage :: stages => stage.awaits || stagesAwait stages

def AssignTarget.awaits : AssignTarget → Bool
  | .member object _ => object.awaits
  | .index object index => object.awaits || index.awaits
  | .ident _ | .pattern _ => false

def Block.awaits : Block → Bool
  | ⟨body, tail⟩ => stmtsAwait body || exprAwaits? tail

def blockAwaits? : Option Block → Bool
  | none => false
  | some block => block.awaits

def Branch.awaits : Branch → Bool
  | ⟨test, body⟩ => test.awaits || body.awaits

def branchesAwait : List Branch → Bool
  | [] => false
  | branch :: branches => branch.awaits || branchesAwait branches

def Handler.awaits : Handler → Bool
  | ⟨_, body⟩ => body.awaits

def handlerAwaits? : Option Handler → Bool
  | none => false
  | some handler => handler.awaits

def Stmt.awaits : Stmt → Bool
  | .decl _ _ init => exprAwaits? init
  | .assign target _ value => target.awaits || value.awaits
  | .expr expr => expr.awaits
  | .ifElse branches otherwise => branchesAwait branches || blockAwaits? otherwise
  | .whileLoop test body => test.awaits || body.awaits
  | .loop body => body.awaits
  | .forIn _ iterable body => iterable.awaits || body.awaits
  | .forRange _ start stop step body =>
    start.awaits || stop.awaits || exprAwaits? step || body.awaits
  | .ret value => exprAwaits? value
  | .throw expr => expr.awaits
  | .tryCatch body handler finalizer =>
    body.awaits || handlerAwaits? handler || blockAwaits? finalizer
  | .guard _ expr _ fallback => expr.awaits || fallback.awaits
  | .exportDecl decl => decl.awaits
  | .exportDefault expr => expr.awaits
  | .breakLoop | .continueLoop | .function _ | .importFrom _ => false

def stmtsAwait : List Stmt → Bool
  | [] => false
  | stmt :: stmts => stmt.awaits || stmtsAwait stmts

end

end PegScript

import PegScript.Text.Escape
import PegScript.Tree.Piece

/-!
# Trees in written form

An outline is a tree of records, variants, lists and texts with the names they are shown under.
Every syntax tree has an outline, and an outline is printed with one field or item to a line.
-/

namespace PegScript

/-- The shape of a value as it is shown. -/
inductive Outline where
  | text (text : String)
  | flag (value : Bool)
  | list (items : List Outline)
  | nothing
  | just (value : Outline)
  /-- A record under its name. -/
  | record (name : String) (fields : List (String × Outline))
  /-- One of several alternatives, without a value. -/
  | bare (name : String)
  /-- One of several alternatives, around a value. -/
  | wrapped (name : String) (value : Outline)
  /-- One of several alternatives, with fields. -/
  | variant (name : String) (fields : List (String × Outline))

namespace Outline

/-- Indentation for a nesting depth. -/
def indent (depth : Nat) : String :=
  String.ofList (List.replicate (4 * depth) ' ')

/-- Lines between an opening and a closing bracket; without lines the brackets stand alone. -/
def bracketed (depth : Nat) (opening closing : String) (lines : List String) : String :=
  if lines.isEmpty then opening ++ closing
  else opening ++ "\n" ++ String.join (lines.map fun line => indent (depth + 1) ++ line ++ ",\n")
    ++ indent depth ++ closing

mutual

/-- The printed form, which starts at nesting depth `depth`. -/
def render (depth : Nat) : Outline → String
  | .text s => Escape.dump.quote s
  | .flag b => if b then "true" else "false"
  | .list items => bracketed depth "[" "]" (renderItems (depth + 1) items)
  | .nothing => "None"
  | .just value => bracketed depth "Some(" ")" [render (depth + 1) value]
  | .record name fields =>
    bracketed depth (name ++ " \x7b") "\x7d" (renderFields (depth + 1) fields)
  | .bare name => name
  | .wrapped name value => bracketed depth (name ++ "(") ")" [render (depth + 1) value]
  | .variant name fields =>
    bracketed depth (name ++ " \x7b") "\x7d" (renderFields (depth + 1) fields)

/-- The printed items of a list. -/
def renderItems (depth : Nat) : List Outline → List String
  | [] => []
  | item :: items => render depth item :: renderItems depth items

/-- The printed fields of a record. -/
def renderFields (depth : Nat) : List (String × Outline) → List String
  | [] => []
  | (name, value) :: fields => (name ++ ": " ++ render depth value) :: renderFields depth fields

end

/-- The outline of an optional text. -/
def ofText? : Option String → Outline
  | none => .nothing
  | some s => .just (.text s)

end Outline

def DeclKind.outline : DeclKind → Outline
  | letDecl => .bare "Let"
  | constDecl => .bare "Const"

/-- The name an operator is shown under. -/
def BinaryOp.label : BinaryOp → String
  | add => "Add"
  | sub => "Sub"
  | mul => "Mul"
  | div => "Div"
  | rem => "Rem"
  | pow => "Pow"
  | eq => "Eq"
  | notEq => "NotEq"
  | lt => "Lt"
  | ltEq => "LtEq"
  | gt => "Gt"
  | gtEq => "GtEq"
  | instanceOf => "InstanceOf"
  | and => "And"
  | or => "Or"
  | coalesce => "Coalesce"

/-- The name an operator is shown under. -/
def UnaryOp.label : UnaryOp → String
  | not => "Not"
  | neg => "Neg"
  | plus => "Plus"
  | typeOf => "TypeOf"

/-- The name an operator is shown under. -/
def AssignOp.label : AssignOp → String
  | assign => "Assign"
  | add => "Add"
  | sub => "Sub"
  | mul => "Mul"
  | div => "Div"
  | rem => "Rem"
  | pow => "Pow"
  | coalesce => "Coalesce"
  | or => "Or"
  | and => "And"

def ImportSpec.outline (s : ImportSpec) : Outline :=
  .record "ImportSpec" [("name", .text s.name), ("alias", .ofText? s.localName)]

def Import.outline (i : Import) : Outline :=
  .record "Import" [
    ("default", .ofText? i.default),
    ("namespace", .ofText? i.namespaceName),
    ("named", .list (i.named.map ImportSpec.outline)),
    ("source", .text i.source)]

mutual

def Expr.outline : Expr → Outline
  | .number s => .wrapped "Number" (.text s)
  | .str parts => .wrapped "Str" (.list (outlineParts parts))
  | .rawStr s => .wrapped "RawStr" (.text s)
  | .bool b => .wrapped "Bool" (.flag b)
  | .null => .bare "Null"
  | .undefined => .bare "Undefined"
  | .this => .bare "This"
  | .ident name => .wrapped "Ident" (.text name)
  | .array items => .wrapped "Array" (.list (outlineElements items))
  | .object props => .wrapped "Object" (.list (outlineProperties props))
  | .function f => .wrapped "Function" f.outline
  | .doBlock block => .wrapped "Do" block.outline
  | .unary op operand => .variant "Unary" [("op", .bare op.label), ("expr", operand.outline)]
  | .binary op left right => .variant "Binary" [
      ("op", .bare op.label), ("left", left.outline), ("right", right.outline)]
  | .conditional test consequent alternate => .variant "Conditional" [
      ("test", test.outline),
      ("consequent", consequent.outline),
      ("alternate", alternate.outline)]
  | .call callee args optional => .variant "Call" [
      ("callee", callee.outline),
      ("args", .list (outlineElements args)),
      ("optional", .flag optional)]
  | .new callee args => .variant "New" [
      ("callee", callee.outline), ("args", .list (outlineElements args))]
  | .member object property optional => .variant "Member" [
      ("object", object.outline), ("property", .text property), ("optional", .flag optional)]
  | .index object index => .variant "Index" [
      ("object", object.outline), ("index", index.outline)]
  | .pipeline head stages => .variant "Pipeline" [
      ("head", head.outline), ("stages", .list (outlineStages stages))]
  | .range start stop step => .variant "Range" [
      ("start", start.outline), ("end", stop.outline), ("step", outlineExpr? step)]
  | .await operand => .wrapped "Await" operand.outline
  | .yield argument delegate => .variant "Yield" [
      ("argument", outlineExpr? argument), ("delegate", .flag delegate)]

def outlineExpr? : Option Expr → Outline
  | none => .nothing
  | some expr => .just expr.outline

def StrPart.outline : StrPart → Outline
  | .text s => .wrapped "Text" (.text s)
  | .expr expr => .wrapped "Expr" expr.outline

def outlineParts : List StrPart → List Outline
  | [] => []
  | part :: parts => part.outline :: outlineParts parts

def Element.outline : Element → Outline
  | .expr expr => .wrapped "Expr" expr.outline
  | .spread expr => .wrapped "Spread" expr.outline

def outlineElements : List Element → List Outline
  | [] => []
  | element :: elements => element.outline :: outlineElements elements

def Property.outline : Property → Outline
  | .keyValue key value => .variant "KeyValue" [("key", key.outline), ("value", value.outline)]
  | .shorthand name => .wrapped "Shorthand" (.text name)
  | .spread expr => .wrapped "Spread" expr.outline

def outlineProperties : List Property → List Outline
  | [] => []
  | prop :: props => prop.outline :: outlineProperties props

def PropertyKey.outline : PropertyKey → Outline
  | .ident name => .wrapped "Ident" (.text name)
  | .str s => .wrapped "Str" (.text s)
  | .number s => .wrapped "Number" (.text s)
  | .computed expr => .wrapped "Computed" expr.outline

def PipeStage.outline : PipeStage → Outline
  | .bind name expr => .variant "Bind" [("name", .text name), ("expr", expr.outline)]
  | .call callee => .wrapped "Call" callee.outline

def outlineStages : List PipeStage → List Outline
  | [] => []
  | stage :: stages => stage.outline :: outlineStages stages

def FunctionDef.outline : FunctionDef → Outline
  | ⟨name, params, body, isAsync, isGenerator, isArrow⟩ => .record "Function" [
      ("name", .ofText? name),
      ("params", .list (outlineParams params)),
      ("body", body.outline),
      ("is_async", .flag isAsync),
      ("is_generator", .flag isGenerator),
      ("is_arrow", .flag isArrow)]

def Param.outline : Param → Outline
  | ⟨pattern, default, rest⟩ => .record "Param" [
      ("pattern", pattern.outline), ("default", outlineExpr? default), ("rest", .flag rest)]

def outlineParams : List Param → List Outline
  | [] => []
  | param :: params => param.outline :: outlineParams params

def Pattern.outline : Pattern → Outline
  | .ident name => .wrapped "Ident" (.text name)
  | .object props rest => .variant "Object" [
      ("props", .list (outlinePatternProps props)), ("rest", .ofText? rest)]
  | .array items rest => .variant "Array" [
      ("items", .list (outlineArrayItems items)), ("rest", outlinePattern? rest)]

def outlinePattern? : Option Pattern → Outline
  | none => .nothing
  | some pattern => .just pattern.outline

def PatternProp.outline : PatternProp → Outline
  | ⟨key, value, default⟩ => .record "PatternProp" [
      ("key", .text key), ("value", outlinePattern? value), ("default", outlineExpr? default)]

def outlinePatternProps : List PatternProp → List Outline
  | [] => []
  | prop :: props => prop.outline :: outlinePatternProps props

def ArrayItem.outline : ArrayItem → Outline
  | ⟨pattern, default⟩ => .record "ArrayItem" [
      ("pattern", pattern.outline), ("default", outlineExpr? default)]

def outlineArrayItems : List ArrayItem → List Outline
  | [] => []
  | item :: items => item.outline :: outlineArrayItems items

def AssignTarget.outline : AssignTarget → Outline
  | .ident name => .wrapped "Ident" (.text name)
  | .member object property => .variant "Member" [
      ("object", object.outline), ("property", .text property)]
  | .index object index => .variant "Index" [
      ("object", object.outline), ("index", index.outline)]
  | .pattern pattern => .wrapped "Pattern" pattern.outline

def Block.outline : Block → Outline
  | ⟨body, tail⟩ => .record "Block" [
      ("body", .list (outlineStmts body)), ("tail", outlineExpr? tail)]

def outlineBlock? : Option Block → Outline
  | none => .nothing
  | some block => .just block.outline

def Branch.outline : Branch → Outline
  | ⟨test, body⟩ => .record "Branch" [("test", test.outline), ("body", body.outline)]

def outlineBranches : List Branch → List Outline
  | [] => []
  | branch :: branches => branch.outline :: outlineBranches branches

def Handler.outline : Handler → Outline
  | ⟨param, body⟩ => .record "Catch" [("param", outlinePattern? param), ("body", body.outline)]

def outlineHandler? : Option Handler → Outline
  | none => .nothing
  | some handler => .just handler.outline

def Stmt.outline : Stmt → Outline
  | .decl kind pattern init => .variant "Let" [
      ("kind", kind.outline), ("pattern", pattern.outline), ("init", outlineExpr? init)]
  | .assign target op value => .variant "Assign" [
      ("target", target.outline), ("op", .bare op.label), ("value", value.outline)]
  | .expr expr => .wrapped "Expr" expr.outline
  | .ifElse branches otherwise => .variant "If" [
      ("branches", .list (outlineBranches branches)), ("otherwise", outlineBlock? otherwise)]
  | .whileLoop test body => .variant "While" [("test", test.outline), ("body", body.outline)]
  | .loop body => .wrapped "Loop" body.outline
  | .forIn pattern iterable body => .variant "ForIn" [
      ("pattern", pattern.outline), ("iterable", iterable.outline), ("body", body.outline)]
  | .forRange binding start stop step body => .variant "ForRange" [
      ("binding", .text binding),
      ("start", start.outline),
      ("end", stop.outline),
      ("step", outlineExpr? step),
      ("body", body.outline)]
  | .ret value => .wrapped "Return" (outlineExpr? value)
  | .breakLoop => .bare "Break"
  | .continueLoop => .bare "Continue"
  | .throw expr => .wrapped "Throw" expr.outline
  | .tryCatch body handler finalizer => .variant "Try" [
      ("body", body.outline),
      ("catch", outlineHandler? handler),
      ("finally", outlineBlock? finalizer)]
  | .guard pattern expr error fallback => .variant "Guard" [
      ("pattern", outlinePattern? pattern),
      ("expr", expr.outline),
      ("error", .text error),
      ("fallback", fallback.outline)]
  | .function f => .wrapped "Function" f.outline
  | .importFrom clause => .wrapped "Import" clause.outline
  | .exportDecl decl => .wrapped "Export" decl.outline
  | .exportDefault expr => .wrapped "ExportDefault" expr.outline

def outlineStmts : List Stmt → List Outline
  | [] => []
  | stmt :: stmts => stmt.outline :: outlineStmts stmts

end

def Program.outline (p : Program) : Outline :=
  .record "Program" [("body", .list (outlineStmts p.body))]

def Suffix.outline : Suffix → Outline
  | .call args optional => .variant "Call" [
      ("args", .list (outlineElements args)), ("optional", .flag optional)]
  | .member property optional => .variant "Member" [
      ("property", .text property), ("optional", .flag optional)]
  | .index i => .wrapped "Index" i.outline

def Operand.outline (o : Operand) : Outline :=
  .record "Operand" [("op", .bare o.op.label), ("right", o.right.outline)]

def PatternElement.outline : PatternElement → Outline
  | .prop p => .wrapped "Prop" p.outline
  | .item i => .wrapped "Item" i.outline
  | .rest p => .wrapped "Rest" p.outline

def ImportClause.outline : ImportClause → Outline
  | .namespaceName name => .wrapped "Namespace" (.text name)
  | .named specs => .wrapped "Named" (.list (specs.map ImportSpec.outline))

def Piece.outline : Piece → Outline
  | .program a => .wrapped "Program" a.outline
  | .block a => .wrapped "Block" a.outline
  | .stmt a => .wrapped "Stmt" a.outline
  | .expr a => .wrapped "Expr" a.outline
  | .strPart a => .wrapped "StrPart" a.outline
  | .element a => .wrapped "Element" a.outline
  | .property a => .wrapped "Property" a.outline
  | .propertyKey a => .wrapped "PropertyKey" a.outline
  | .pipeStage a => .wrapped "PipeStage" a.outline
  | .function a => .wrapped "Function" a.outline
  | .param a => .wrapped "Param" a.outline
  | .pattern a => .wrapped "Pattern" a.outline
  | .patternElement a => .wrapped "PatternElement" a.outline
  | .assignTarget a => .wrapped "AssignTarget" a.outline
  | .branch a => .wrapped "Branch" a.outline
  | .handler a => .wrapped "Catch" a.outline
  | .importFrom a => .wrapped "Import" a.outline
  | .importSpec a => .wrapped "ImportSpec" a.outline
  | .importClause a => .wrapped "ImportClause" a.outline
  | .suffix a => .wrapped "Suffix" a.outline
  | .operand a => .wrapped "Operand" a.outline

end PegScript

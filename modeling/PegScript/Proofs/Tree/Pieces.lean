import PegScript.Tree.Piece

/-!
# All pieces of a tree

The pieces of a tree are the tree itself and everything below it, from left to right.  A property
that holds everywhere in a program is one that all of its pieces have.
-/

namespace PegScript

mutual

@[simp]
def Expr.pieces : Expr → List Piece
  | .number text => [.expr (.number text)]
  | .str parts => .expr (.str parts) :: partsPieces parts
  | .rawStr text => [.expr (.rawStr text)]
  | .bool value => [.expr (.bool value)]
  | .null => [.expr .null]
  | .undefined => [.expr .undefined]
  | .this => [.expr .this]
  | .ident name => [.expr (.ident name)]
  | .array items => .expr (.array items) :: elementsPieces items
  | .object props => .expr (.object props) :: propertiesPieces props
  | .function f => .expr (.function f) :: f.pieces
  | .doBlock block => .expr (.doBlock block) :: block.pieces
  | .unary op operand => .expr (.unary op operand) :: operand.pieces
  | .binary op left right =>
    .expr (.binary op left right) :: (left.pieces ++ right.pieces)
  | .conditional test consequent alternate =>
    .expr (.conditional test consequent alternate) ::
      (test.pieces ++ consequent.pieces ++ alternate.pieces)
  | .call callee args optional =>
    .expr (.call callee args optional) :: (callee.pieces ++ elementsPieces args)
  | .new callee args =>
    .expr (.new callee args) :: (callee.pieces ++ elementsPieces args)
  | .member object property optional =>
    .expr (.member object property optional) :: object.pieces
  | .index object index =>
    .expr (.index object index) :: (object.pieces ++ index.pieces)
  | .pipeline head stages =>
    .expr (.pipeline head stages) :: (head.pieces ++ stagesPieces stages)
  | .range start stop step =>
    .expr (.range start stop step) ::
      (start.pieces ++ stop.pieces ++ exprPieces? step)
  | .await operand => .expr (.await operand) :: operand.pieces
  | .yield argument delegate =>
    .expr (.yield argument delegate) :: exprPieces? argument

@[simp]
def exprPieces? : Option Expr → List Piece
  | none => []
  | some expr => expr.pieces

@[simp]
def StrPart.pieces : StrPart → List Piece
  | .text text => [.strPart (.text text)]
  | .expr expr => .strPart (.expr expr) :: expr.pieces

def partsPieces : List StrPart → List Piece
  | [] => []
  | part :: parts => part.pieces ++ partsPieces parts

@[simp]
def Element.pieces : Element → List Piece
  | .expr expr => .element (.expr expr) :: expr.pieces
  | .spread expr => .element (.spread expr) :: expr.pieces

def elementsPieces : List Element → List Piece
  | [] => []
  | element :: elements => element.pieces ++ elementsPieces elements

@[simp]
def Property.pieces : Property → List Piece
  | .keyValue key value =>
    .property (.keyValue key value) :: (key.pieces ++ value.pieces)
  | .shorthand name => [.property (.shorthand name)]
  | .spread expr => .property (.spread expr) :: expr.pieces

def propertiesPieces : List Property → List Piece
  | [] => []
  | prop :: props => prop.pieces ++ propertiesPieces props

@[simp]
def PropertyKey.pieces : PropertyKey → List Piece
  | .ident name => [.propertyKey (.ident name)]
  | .str text => [.propertyKey (.str text)]
  | .number text => [.propertyKey (.number text)]
  | .computed expr => .propertyKey (.computed expr) :: expr.pieces

@[simp]
def PipeStage.pieces : PipeStage → List Piece
  | .bind name expr => .pipeStage (.bind name expr) :: expr.pieces
  | .call callee => .pipeStage (.call callee) :: callee.pieces

def stagesPieces : List PipeStage → List Piece
  | [] => []
  | stage :: stages => stage.pieces ++ stagesPieces stages

@[simp]
def FunctionDef.pieces : FunctionDef → List Piece
  | ⟨name, params, body, isAsync, isGenerator, isArrow⟩ =>
    .function ⟨name, params, body, isAsync, isGenerator, isArrow⟩ ::
      (paramsPieces params ++ body.pieces)

@[simp]
def Param.pieces : Param → List Piece
  | ⟨pattern, default, rest⟩ =>
    .param ⟨pattern, default, rest⟩ :: (pattern.pieces ++ exprPieces? default)

def paramsPieces : List Param → List Piece
  | [] => []
  | param :: params => param.pieces ++ paramsPieces params

@[simp]
def Pattern.pieces : Pattern → List Piece
  | .ident name => [.pattern (.ident name)]
  | .object props rest => .pattern (.object props rest) :: patternPropsPieces props
  | .array items rest =>
    .pattern (.array items rest) :: (arrayItemsPieces items ++ patternPieces? rest)

@[simp]
def patternPieces? : Option Pattern → List Piece
  | none => []
  | some pattern => pattern.pieces

@[simp]
def PatternProp.pieces : PatternProp → List Piece
  | ⟨key, value, default⟩ =>
    .patternElement (.prop ⟨key, value, default⟩) ::
      (patternPieces? value ++ exprPieces? default)

def patternPropsPieces : List PatternProp → List Piece
  | [] => []
  | prop :: props => prop.pieces ++ patternPropsPieces props

@[simp]
def ArrayItem.pieces : ArrayItem → List Piece
  | ⟨pattern, default⟩ =>
    .patternElement (.item ⟨pattern, default⟩) ::
      (pattern.pieces ++ exprPieces? default)

def arrayItemsPieces : List ArrayItem → List Piece
  | [] => []
  | item :: items => item.pieces ++ arrayItemsPieces items

@[simp]
def AssignTarget.pieces : AssignTarget → List Piece
  | .ident name => [.assignTarget (.ident name)]
  | .member object property => .assignTarget (.member object property) :: object.pieces
  | .index object index =>
    .assignTarget (.index object index) :: (object.pieces ++ index.pieces)
  | .pattern pattern => .assignTarget (.pattern pattern) :: pattern.pieces

@[simp]
def Block.pieces : Block → List Piece
  | ⟨body, tail⟩ => .block ⟨body, tail⟩ :: (stmtsPieces body ++ exprPieces? tail)

@[simp]
def blockPieces? : Option Block → List Piece
  | none => []
  | some block => block.pieces

@[simp]
def Branch.pieces : Branch → List Piece
  | ⟨test, body⟩ => .branch ⟨test, body⟩ :: (test.pieces ++ body.pieces)

def branchesPieces : List Branch → List Piece
  | [] => []
  | branch :: branches => branch.pieces ++ branchesPieces branches

@[simp]
def Handler.pieces : Handler → List Piece
  | ⟨param, body⟩ => .handler ⟨param, body⟩ :: (patternPieces? param ++ body.pieces)

@[simp]
def handlerPieces? : Option Handler → List Piece
  | none => []
  | some handler => handler.pieces

@[simp]
def Stmt.pieces : Stmt → List Piece
  | .decl kind pattern init =>
    .stmt (.decl kind pattern init) :: (pattern.pieces ++ exprPieces? init)
  | .assign target op value =>
    .stmt (.assign target op value) :: (target.pieces ++ value.pieces)
  | .expr expr => .stmt (.expr expr) :: expr.pieces
  | .ifElse branches otherwise =>
    .stmt (.ifElse branches otherwise) ::
      (branchesPieces branches ++ blockPieces? otherwise)
  | .whileLoop test body =>
    .stmt (.whileLoop test body) :: (test.pieces ++ body.pieces)
  | .loop body => .stmt (.loop body) :: body.pieces
  | .forIn pattern iterable body =>
    .stmt (.forIn pattern iterable body) ::
      (pattern.pieces ++ iterable.pieces ++ body.pieces)
  | .forRange binding start stop step body =>
    .stmt (.forRange binding start stop step body) ::
      (start.pieces ++ stop.pieces ++ exprPieces? step ++ body.pieces)
  | .ret value => .stmt (.ret value) :: exprPieces? value
  | .breakLoop => [.stmt .breakLoop]
  | .continueLoop => [.stmt .continueLoop]
  | .throw expr => .stmt (.throw expr) :: expr.pieces
  | .tryCatch body handler finalizer =>
    .stmt (.tryCatch body handler finalizer) ::
      (body.pieces ++ handlerPieces? handler ++ blockPieces? finalizer)
  | .guard pattern expr error fallback =>
    .stmt (.guard pattern expr error fallback) ::
      (patternPieces? pattern ++ expr.pieces ++ fallback.pieces)
  | .function f => .stmt (.function f) :: f.pieces
  | .importFrom clause => [.stmt (.importFrom clause)]
  | .exportDecl decl => .stmt (.exportDecl decl) :: decl.pieces
  | .exportDefault expr => .stmt (.exportDefault expr) :: expr.pieces

def stmtsPieces : List Stmt → List Piece
  | [] => []
  | stmt :: stmts => stmt.pieces ++ stmtsPieces stmts

end

/-- All pieces of a program. -/
def Program.pieces (program : Program) : List Piece :=
  .program program :: stmtsPieces program.body

/-- The pieces of a tree that waits for the tree around it. -/
def PatternElement.pieces : PatternElement → List Piece
  | .prop p => p.pieces
  | .item i => i.pieces
  | .rest pattern => pattern.pieces

/-- The pieces of the operands of a postfix operation. -/
def Suffix.pieces : Suffix → List Piece
  | .call args _ => elementsPieces args
  | .member _ _ => []
  | .index expr => expr.pieces

/-! ## Properties of all pieces -/

/-- Every one of the pieces has the property. -/
def Everywhere (P : Piece → Prop) (pieces : List Piece) : Prop :=
  ∀ piece ∈ pieces, P piece

namespace Everywhere

variable {P : Piece → Prop}

@[simp]
theorem nil : Everywhere P [] := by
  simp [Everywhere]

@[simp]
theorem cons {piece : Piece} {pieces : List Piece} :
    Everywhere P (piece :: pieces) ↔ P piece ∧ Everywhere P pieces :=
  List.forall_mem_cons

@[simp]
theorem append {pieces pieces' : List Piece} :
    Everywhere P (pieces ++ pieces') ↔ Everywhere P pieces ∧ Everywhere P pieces' :=
  List.forall_mem_append

theorem head {piece : Piece} {pieces : List Piece} (h : Everywhere P (piece :: pieces)) : P piece :=
  (cons.mp h).1

theorem tail {piece : Piece} {pieces : List Piece} (h : Everywhere P (piece :: pieces)) :
    Everywhere P pieces :=
  (cons.mp h).2

theorem left {pieces pieces' : List Piece} (h : Everywhere P (pieces ++ pieces')) :
    Everywhere P pieces :=
  (append.mp h).1

theorem right {pieces pieces' : List Piece} (h : Everywhere P (pieces ++ pieces')) :
    Everywhere P pieces' :=
  (append.mp h).2

/-- The pieces of several trees are those of each. -/
theorem each {α : Type} {all : List α → List Piece} {one : α → List Piece}
    (hnil : all [] = []) (hcons : ∀ a as, all (a :: as) = one a ++ all as)
    (as : List α) :
    Everywhere P (all as) ↔ ∀ a ∈ as, Everywhere P (one a) := by
  induction as with
  | nil => simp [hnil]
  | cons a as ih => simp [hcons, ih]

@[simp]
theorem parts (parts : List StrPart) :
    Everywhere P (partsPieces parts) ↔ ∀ part ∈ parts, Everywhere P part.pieces :=
  each rfl (fun _ _ => rfl) parts

@[simp]
theorem elements (elements : List Element) :
    Everywhere P (elementsPieces elements) ↔
      ∀ element ∈ elements, Everywhere P element.pieces :=
  each rfl (fun _ _ => rfl) elements

@[simp]
theorem properties (props : List Property) :
    Everywhere P (propertiesPieces props) ↔ ∀ prop ∈ props, Everywhere P prop.pieces :=
  each rfl (fun _ _ => rfl) props

@[simp]
theorem stages (stages : List PipeStage) :
    Everywhere P (stagesPieces stages) ↔ ∀ stage ∈ stages, Everywhere P stage.pieces :=
  each rfl (fun _ _ => rfl) stages

@[simp]
theorem params (params : List Param) :
    Everywhere P (paramsPieces params) ↔ ∀ param ∈ params, Everywhere P param.pieces :=
  each rfl (fun _ _ => rfl) params

@[simp]
theorem patternProps (props : List PatternProp) :
    Everywhere P (patternPropsPieces props) ↔ ∀ prop ∈ props, Everywhere P prop.pieces :=
  each rfl (fun _ _ => rfl) props

@[simp]
theorem arrayItems (items : List ArrayItem) :
    Everywhere P (arrayItemsPieces items) ↔ ∀ item ∈ items, Everywhere P item.pieces :=
  each rfl (fun _ _ => rfl) items

@[simp]
theorem branches (branches : List Branch) :
    Everywhere P (branchesPieces branches) ↔
      ∀ branch ∈ branches, Everywhere P branch.pieces :=
  each rfl (fun _ _ => rfl) branches

@[simp]
theorem stmts (stmts : List Stmt) :
    Everywhere P (stmtsPieces stmts) ↔ ∀ stmt ∈ stmts, Everywhere P stmt.pieces :=
  each rfl (fun _ _ => rfl) stmts

end Everywhere

end PegScript

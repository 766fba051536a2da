import Mathlib.Logic.Basic
import PegScript.Proofs.Tree.Pieces

/-!
# Replacing a name in a tree

A name can be replaced by another one in two ways: where it occurs free, so that what binds it
inside the tree is respected, or wherever it is read or assigned by name.  What binds a name stays
as it is either way, and where the tree binds the name nowhere, the two ways are the same.
-/

namespace PegScript

/-! ## What binds a name -/

mutual

/-- Whether the pattern has the name among those it gives values to. -/
def Pattern.binds (name : String) : Pattern → Bool
  | .ident n => n == name
  | .object props rest => patternPropsBind name props || rest == some name
  | .array items rest => arrayItemsBind name items || patternBinds? name rest

def patternBinds? (name : String) : Option Pattern → Bool
  | none => false
  | some pattern => pattern.binds name

def PatternProp.binds (name : String) : PatternProp → Bool
  | ⟨key, none, _⟩ => key == name
  | ⟨_, some pattern, _⟩ => pattern.binds name

def patternPropsBind (name : String) : List PatternProp → Bool
  | [] => false
  | prop :: props => prop.binds name || patternPropsBind name props

def ArrayItem.binds (name : String) : ArrayItem → Bool
  | ⟨pattern, _⟩ => pattern.binds name

def arrayItemsBind (name : String) : List ArrayItem → Bool
  | [] => false
  | item :: items => item.binds name || arrayItemsBind name items

end

/-- Whether the import gives the name to something. -/
def Import.binds (name : String) (clause : Import) : Bool :=
  clause.default == some name || clause.namespaceName == some name ||
    clause.named.any fun spec => spec.localName.getD spec.name == name

def paramsBind (name : String) (params : List Param) : Bool :=
  params.any fun param => param.pattern.binds name

/-- Whether the statement declares the name in the block it stands in. -/
def Stmt.declares (name : String) : Stmt → Bool
  | .decl _ pattern _ => pattern.binds name
  | .guard pattern _ _ _ => patternBinds? name pattern
  | .function f => f.name == some name
  | .importFrom clause => clause.binds name
  | .exportDecl inner => inner.declares name
  | _ => false

def stmtsDeclare (name : String) (stmts : List Stmt) : Bool :=
  stmts.any fun stmt => stmt.declares name

/-! ## Replacement -/

/-- A name to be replaced, and the name to put in its place. -/
structure Replacement where
  name : String
  reference : String
  /-- Whether only free occurrences are replaced. -/
  freeOnly : Bool

namespace Replacement

/-- The replacement of free occurrences. -/
abbrev free (name reference : String) : Replacement :=
  ⟨name, reference, true⟩

/-- The replacement of all occurrences that are read or assigned by name. -/
abbrev every (name reference : String) : Replacement :=
  ⟨name, reference, false⟩

variable (r : Replacement)

/-- What stands in the place of a name that is read. -/
def read (n : String) : String :=
  if n = r.name then r.reference else n

/-- What stands in the place of a name in a pattern.  The names of an assignment occur free. -/
def target (assigned : Bool) (n : String) : String :=
  if r.freeOnly && assigned then r.read n else n

theorem target_free_of_ne {name reference n : String} (h : n ≠ name) (assigned : Bool) :
    (free name reference).target assigned n = (every name reference).target assigned n := by
  cases assigned with
  | false => rfl
  | true => exact if_neg h

end Replacement

mutual

def Expr.replace (r : Replacement) : Expr → Expr
  | .number text => .number text
  | .str parts => .str (partsReplace r parts)
  | .rawStr text => .rawStr text
  | .bool value => .bool value
  | .null => .null
  | .undefined => .undefined
  | .this => .this
  | .ident name => .ident (r.read name)
  | .array items => .array (elementsReplace r items)
  | .object props => .object (propertiesReplace r props)
  | .function f => .function (f.replace r)
  | .doBlock block => .doBlock (block.replace r)
  | .unary op operand => .unary op (operand.replace r)
  | .binary op left right => .binary op (left.replace r) (right.replace r)
  | .conditional test consequent alternate =>
    .conditional (test.replace r) (consequent.replace r) (alternate.replace r)
  | .call callee args optional => .call (callee.replace r) (elementsReplace r args) optional
  | .new callee args => .new (callee.replace r) (elementsReplace r args)
  | .member object property optional => .member (object.replace r) property optional
  | .index object index => .index (object.replace r) (index.replace r)
  | .pipeline head stages => .pipeline (head.replace r) (stagesReplace r stages)
  | .range start stop step => .range (start.replace r) (stop.replace r) (exprReplace? r step)
  | .await operand => .await (operand.replace r)
  | .yield argument delegate => .yield (exprReplace? r argument) delegate

def exprReplace? (r : Replacement) : Option Expr → Option Expr
  | none => none
  | some expr => some (expr.replace r)

def StrPart.replace (r : Replacement) : StrPart → StrPart
  | .text text => .text text
  | .expr expr => .expr (expr.replace r)

def partsReplace (r : Replacement) : List StrPart → List StrPart
  | [] => []
  | part :: parts => part.replace r :: partsReplace r parts

def Element.replace (r : Replacement) : Element → Element
  | .expr expr => .expr (expr.replace r)
  | .spread expr => .spread (expr.replace r)

def elementsReplace (r : Replacement) : List Element → List Element
  | [] => []
  | element :: elements => element.replace r :: elementsReplace r elements

/-- A property in short form keeps its key. -/
def Property.replace (r : Replacement) : Property → Property
  | .keyValue key value => .keyValue (key.replace r) (value.replace r)
  | .shorthand name =>
    if r.read name = name then .shorthand name
    else .keyValue (.ident name) (.ident (r.read name))
  | .spread expr => .spread (expr.replace r)

def propertiesReplace (r : Replacement) : List Property → List Property
  | [] => []
  | prop :: props => prop.replace r :: propertiesReplace r props

def PropertyKey.replace (r : Replacement) : PropertyKey → PropertyKey
  | .ident name => .ident name
  | .str text => .str text
  | .number text => .number text
  | .computed expr => .computed (expr.replace r)

/-- A stage that binds a name has its own replacement; only free occurrences are replaced in it. -/
def PipeStage.replace (r : Replacement) : PipeStage → PipeStage
  | .bind name expr => .bind name (if r.freeOnly && name != r.name then expr.replace r else expr)
  | .call callee => .call (callee.replace r)

def stagesReplace (r : Replacement) : List PipeStage → List PipeStage
  | [] => []
  | stage :: stages => stage.replace r :: stagesReplace r stages

/-- Parameters are bound in the whole function, as is its own name. -/
def FunctionDef.replace (r : Replacement) : FunctionDef → FunctionDef
  | ⟨name, params, body, isAsync, isGenerator, isArrow⟩ =>
    if r.freeOnly && (name == some r.name || paramsBind r.name params) then
      ⟨name, params, body, isAsync, isGenerator, isArrow⟩
    else ⟨name, paramsReplace r params, body.replace r, isAsync, isGenerator, isArrow⟩

def Param.replace (r : Replacement) : Param → Param
  | ⟨pattern, default, rest⟩ => ⟨pattern.replace r false, exprReplace? r default, rest⟩

def paramsReplace (r : Replacement) : List Param → List Param
  | [] => []
  | param :: params => param.replace r :: paramsReplace r params

def Pattern.replace (r : Replacement) (assigned : Bool) : Pattern → Pattern
  | .ident name => .ident (r.target assigned name)
  | .object props rest =>
    .object (patternPropsReplace r assigned props) (rest.map (r.target assigned))
  | .array items rest =>
    .array (arrayItemsReplace r assigned items) (patternReplace? r assigned rest)

def patternReplace? (r : Replacement) (assigned : Bool) : Option Pattern → Option Pattern
  | none => none
  | some pattern => some (pattern.replace r assigned)

/-- A property of a pattern in short form keeps its key. -/
def PatternProp.replace (r : Replacement) (assigned : Bool) : PatternProp → PatternProp
  | ⟨key, none, default⟩ =>
    ⟨key, if r.target assigned key = key then none else some (.ident (r.target assigned key)),
      exprReplace? r default⟩
  | ⟨key, some pattern, default⟩ =>
    ⟨key, some (pattern.replace r assigned), exprReplace? r default⟩

def patternPropsReplace (r : Replacement) (assigned : Bool) : List PatternProp → List PatternProp
  | [] => []
  | prop :: props => prop.replace r assigned :: patternPropsReplace r assigned props

def ArrayItem.replace (r : Replacement) (assigned : Bool) : ArrayItem → ArrayItem
  | ⟨pattern, default⟩ => ⟨pattern.replace r assigned, exprReplace? r default⟩

def arrayItemsReplace (r : Replacement) (assigned : Bool) : List ArrayItem → List ArrayItem
  | [] => []
  | item :: items => item.replace r assigned :: arrayItemsReplace r assigned items

def AssignTarget.replace (r : Replacement) : AssignTarget → AssignTarget
  | .ident name => .ident (r.read name)
  | .member object property => .member (object.replace r) property
  | .index object index => .index (object.replace r) (index.replace r)
  | .pattern pattern => .pattern (pattern.replace r true)

/-- What a block declares is bound in the whole block. -/
def Block.replace (r : Replacement) : Block → Block
  | ⟨body, tail⟩ =>
    if r.freeOnly && stmtsDeclare r.name body then ⟨body, tail⟩
    else ⟨stmtsReplace r body, exprReplace? r tail⟩

def blockReplace? (r : Replacement) : Option Block → Option Block
  | none => none
  | some block => some (block.replace r)

def Branch.replace (r : Replacement) : Branch → Branch
  | ⟨test, body⟩ => ⟨test.replace r, body.replace r⟩

def branchesReplace (r : Replacement) : List Branch → List Branch
  | [] => []
  | branch :: branches => branch.replace r :: branchesReplace r branches

def Handler.replace (r : Replacement) : Handler → Handler
  | ⟨param, body⟩ =>
    if r.freeOnly && patternBinds? r.name param then ⟨param, body⟩
    else ⟨patternReplace? r false param, body.replace r⟩

def handlerReplace? (r : Replacement) : Option Handler → Option Handler
  | none => none
  | some handler => some (handler.replace r)

def Stmt.replace (r : Replacement) : Stmt → Stmt
  | .decl kind pattern init => .decl kind (pattern.replace r false) (exprReplace? r init)
  | .assign target op value => .assign (target.replace r) op (value.replace r)
  | .expr expr => .expr (expr.replace r)
  | .ifElse branches otherwise => .ifElse (branchesReplace r branches) (blockReplace? r otherwise)
  | .whileLoop test body => .whileLoop (test.replace r) (body.replace r)
  | .loop body => .loop (body.replace r)
  | .forIn pattern iterable body =>
    if r.freeOnly && pattern.binds r.name then .forIn pattern (iterable.replace r) body
    else .forIn (pattern.replace r false) (iterable.replace r) (body.replace r)
  | .forRange binding start stop step body =>
    .forRange binding (start.replace r) (stop.replace r) (exprReplace? r step)
      (if r.freeOnly && binding == r.name then body else body.replace r)
  | .ret value => .ret (exprReplace? r value)
  | .breakLoop => .breakLoop
  | .continueLoop => .continueLoop
  | .throw expr => .throw (expr.replace r)
  | .tryCatch body handler finalizer =>
    .tryCatch (body.replace r) (handlerReplace? r handler) (blockReplace? r finalizer)
  | .guard pattern expr error fallback =>
    .guard (patternReplace? r false pattern) (expr.replace r) error
      (if r.freeOnly && error == r.name then fallback else fallback.replace r)
  | .function f => .function (f.replace r)
  | .importFrom clause => .importFrom clause
  | .exportDecl decl => .exportDecl (decl.replace r)
  | .exportDefault expr => .exportDefault (expr.replace r)

def stmtsReplace (r : Replacement) : List Stmt → List Stmt
  | [] => []
  | stmt :: stmts => stmt.replace r :: stmtsReplace r stmts

end

/-! ## Trees that do not bind the name -/

/-- The piece itself binds the name, or assigns to it by a pattern. -/
def Piece.Binds (name : String) : Piece → Prop
  | .pattern (.ident n) | .stmt (.forRange n ..) | .stmt (.guard _ _ n _) => n = name
  | .pattern (.object _ rest) => rest = some name
  | .patternElement (.prop ⟨key, none, _⟩) => key = name
  | .function f => f.name = some name
  | .stmt (.importFrom clause) => clause.binds name = true
  | _ => False

def Piece.IsPipeline : Piece → Prop
  | .expr (.pipeline ..) => True
  | _ => False

/-- The piece is no pipeline and does not bind the name. -/
def Piece.Spares (name : String) (piece : Piece) : Prop :=
  ¬ piece.IsPipeline ∧ ¬ piece.Binds name

section Spares

variable {name reference : String}

mutual

theorem binds_eq_false : ∀ pattern : Pattern, Everywhere (Piece.Spares name) pattern.pieces →
    pattern.binds name = false
  | .ident n, h => beq_eq_false_iff_ne.mpr h.head.2
  | .object props rest, h => by
      have hrest : (rest == some name) = false := beq_eq_false_iff_ne.mpr h.head.2
      rw [Pattern.binds, patternPropsBind_eq_false props h.tail, hrest, Bool.or_self]
  | .array items rest, h => by
      rw [Pattern.binds, arrayItemsBind_eq_false items h.tail.left,
        patternBinds?_eq_false rest h.tail.right, Bool.or_self]

theorem patternBinds?_eq_false : ∀ pattern : Option Pattern,
    Everywhere (Piece.Spares name) (patternPieces? pattern) → patternBinds? name pattern = false
  | none, _ => rfl
  | some pattern, h => binds_eq_false pattern h

theorem propBinds_eq_false : ∀ prop : PatternProp, Everywhere (Piece.Spares name) prop.pieces →
    prop.binds name = false
  | ⟨_, none, _⟩, h => beq_eq_false_iff_ne.mpr h.head.2
  | ⟨_, some pattern, _⟩, h => binds_eq_false pattern h.tail.left

theorem patternPropsBind_eq_false : ∀ props : List PatternProp,
    Everywhere (Piece.Spares name) (patternPropsPieces props) → patternPropsBind name props = false
  | [], _ => rfl
  | prop :: props, h => by
      rw [patternPropsBind, propBinds_eq_false prop h.left,
        patternPropsBind_eq_false props h.right, Bool.or_self]

theorem itemBinds_eq_false : ∀ item : ArrayItem, Everywhere (Piece.Spares name) item.pieces →
    item.binds name = false
  | ⟨pattern, _⟩, h => binds_eq_false pattern h.tail.left

theorem arrayItemsBind_eq_false : ∀ items : List ArrayItem,
    Everywhere (Piece.Spares name) (arrayItemsPieces items) → arrayItemsBind name items = false
  | [], _ => rfl
  | item :: items, h => by
      rw [arrayItemsBind, itemBinds_eq_false item h.left,
        arrayItemsBind_eq_false items h.right, Bool.or_self]

end

theorem paramsBind_eq_false (params : List Param)
    (h : Everywhere (Piece.Spares name) (paramsPieces params)) :
    paramsBind name params = false := by
  refine List.any_eq_false.mpr fun ⟨pattern, default, rest⟩ hparam => ?_
  have hpieces := (Everywhere.params params).mp h _ hparam
  rw [binds_eq_false pattern hpieces.tail.left]
  exact Bool.false_ne_true

theorem declares_eq_false : ∀ stmt : Stmt, Everywhere (Piece.Spares name) stmt.pieces →
    stmt.declares name = false
  | .decl _ pattern _, h => binds_eq_false pattern h.tail.left
  | .guard pattern _ _ _, h => patternBinds?_eq_false pattern h.tail.left.left
  | .function ⟨_, _, _, _, _, _⟩, h => beq_eq_false_iff_ne.mpr h.tail.head.2
  | .importFrom _, h => Bool.eq_false_iff.mpr h.head.2
  | .exportDecl inner, h => declares_eq_false inner h.tail
  | .assign .., _ | .expr _, _ | .ifElse .., _ | .whileLoop .., _ | .loop _, _ | .forIn .., _
  | .forRange .., _ | .ret _, _ | .breakLoop, _ | .continueLoop, _ | .throw _, _ | .tryCatch .., _
  | .exportDefault _, _ => rfl

theorem stmtsDeclare_eq_false (stmts : List Stmt)
    (h : Everywhere (Piece.Spares name) (stmtsPieces stmts)) : stmtsDeclare name stmts = false := by
  refine List.any_eq_false.mpr fun stmt hstmt => ?_
  rw [declares_eq_false stmt ((Everywhere.stmts stmts).mp h stmt hstmt)]
  exact Bool.false_ne_true

mutual

/-- Where nothing binds the name, all of its occurrences are free. -/
theorem replace_free_expr : ∀ e : Expr, Everywhere (Piece.Spares name) e.pieces →
    e.replace (.free name reference) = e.replace (.every name reference)
  | .number _, _ | .rawStr _, _ | .bool _, _ | .null, _ | .undefined, _ | .this, _
  | .ident _, _ => rfl
  | .str parts, h => congrArg Expr.str (replace_free_parts parts h.tail)
  | .array items, h => congrArg Expr.array (replace_free_elements items h.tail)
  | .object props, h => congrArg Expr.object (replace_free_properties props h.tail)
  | .function f, h => congrArg Expr.function (replace_free_function f h.tail)
  | .doBlock block, h => congrArg Expr.doBlock (replace_free_block block h.tail)
  | .unary op operand, h => congrArg (Expr.unary op) (replace_free_expr operand h.tail)
  | .binary op left right, h =>
      congrArg₂ (Expr.binary op) (replace_free_expr left h.tail.left)
        (replace_free_expr right h.tail.right)
  | .conditional test consequent alternate, h => by
      change Expr.conditional _ _ _ = Expr.conditional _ _ _
      rw [replace_free_expr test h.tail.left.left, replace_free_expr consequent h.tail.left.right,
        replace_free_expr alternate h.tail.right]
  | .call callee args optional, h =>
      congrArg₂ (Expr.call · · optional) (replace_free_expr callee h.tail.left)
        (replace_free_elements args h.tail.right)
  | .new callee args, h =>
      congrArg₂ Expr.new (replace_free_expr callee h.tail.left)
        (replace_free_elements args h.tail.right)
  | .member object property optional, h =>
      congrArg (Expr.member · property optional) (replace_free_expr object h.tail)
  | .index object index, h =>
      congrArg₂ Expr.index (replace_free_expr object h.tail.left)
        (replace_free_expr index h.tail.right)
  | .pipeline _ _, h => absurd trivial h.head.1
  | .range start stop step, h => by
      change Expr.range _ _ _ = Expr.range _ _ _
      rw [replace_free_expr start h.tail.left.left, replace_free_expr stop h.tail.left.right,
        replace_free_expr? step h.tail.right]
  | .await operand, h => congrArg Expr.await (replace_free_expr operand h.tail)
  | .yield argument delegate, h =>
      congrArg (Expr.yield · delegate) (replace_free_expr? argument h.tail)

theorem replace_free_expr? : ∀ e : Option Expr, Everywhere (Piece.Spares name) (exprPieces? e) →
    exprReplace? (.free name reference) e = exprReplace? (.every name reference) e
  | none, _ => rfl
  | some e, h => congrArg some (replace_free_expr e h)

theorem replace_free_parts : ∀ parts : List StrPart,
    Everywhere (Piece.Spares name) (partsPieces parts) →
      partsReplace (.free name reference) parts = partsReplace (.every name reference) parts
  | [], _ => rfl
  | .text text :: parts, h => congrArg (StrPart.text text :: ·) (replace_free_parts parts h.right)
  | .expr e :: parts, h =>
      congrArg₂ (fun e parts => StrPart.expr e :: parts) (replace_free_expr e h.left.tail)
        (replace_free_parts parts h.right)

theorem replace_free_elements : ∀ elements : List Element,
    Everywhere (Piece.Spares name) (elementsPieces elements) →
      elementsReplace (.free name reference) elements =
        elementsReplace (.every name reference) elements
  | [], _ => rfl
  | .expr e :: elements, h =>
      congrArg₂ (fun e elements => Element.expr e :: elements) (replace_free_expr e h.left.tail)
        (replace_free_elements elements h.right)
  | .spread e :: elements, h =>
      congrArg₂ (fun e elements => Element.spread e :: elements) (replace_free_expr e h.left.tail)
        (replace_free_elements elements h.right)

theorem replace_free_property : ∀ prop : Property, Everywhere (Piece.Spares name) prop.pieces →
    prop.replace (.free name reference) = prop.replace (.every name reference)
  | .keyValue key value, h =>
      congrArg₂ Property.keyValue (replace_free_key key h.tail.left)
        (replace_free_expr value h.tail.right)
  | .shorthand _, _ => rfl
  | .spread e, h => congrArg Property.spread (replace_free_expr e h.tail)

theorem replace_free_properties : ∀ props : List Property,
    Everywhere (Piece.Spares name) (propertiesPieces props) →
      propertiesReplace (.free name reference) props =
        propertiesReplace (.every name reference) props
  | [], _ => rfl
  | prop :: props, h =>
      congrArg₂ List.cons (replace_free_property prop h.left)
        (replace_free_properties props h.right)

theorem replace_free_key : ∀ key : PropertyKey, Everywhere (Piece.Spares name) key.pieces →
    key.replace (.free name reference) = key.replace (.every name reference)
  | .ident _, _ | .str _, _ | .number _, _ => rfl
  | .computed e, h => congrArg PropertyKey.computed (replace_free_expr e h.tail)

theorem replace_free_function : ∀ f : FunctionDef, Everywhere (Piece.Spares name) f.pieces →
    f.replace (.free name reference) = f.replace (.every name reference)
  | ⟨fname, params, body, isAsync, isGenerator, isArrow⟩, h => by
      have hname : (fname == some name) = false := beq_eq_false_iff_ne.mpr h.head.2
      simp only [FunctionDef.replace, hname, paramsBind_eq_false params h.tail.left,
        replace_free_params params h.tail.left, replace_free_block body h.tail.right,
        Bool.or_self, Bool.and_false]

theorem replace_free_params : ∀ params : List Param,
    Everywhere (Piece.Spares name) (paramsPieces params) →
      paramsReplace (.free name reference) params = paramsReplace (.every name reference) params
  | [], _ => rfl
  | ⟨pattern, default, rest⟩ :: params, h =>
      congrArg₂ List.cons (congrArg₂ (Param.mk · · rest)
        (replace_free_pattern false pattern h.left.tail.left)
        (replace_free_expr? default h.left.tail.right)) (replace_free_params params h.right)

theorem replace_free_pattern (assigned : Bool) : ∀ pattern : Pattern,
    Everywhere (Piece.Spares name) pattern.pieces →
      pattern.replace (.free name reference) assigned =
        pattern.replace (.every name reference) assigned
  | .ident _, h => congrArg Pattern.ident (Replacement.target_free_of_ne h.head.2 assigned)
  | .object props none, h =>
      congrArg (Pattern.object · none) (replace_free_patternProps assigned props h.tail)
  | .object props (some n), h => by
      have hn : n ≠ name := fun hn => h.head.2 (congrArg some hn)
      exact congrArg₂ (fun props n => Pattern.object props (some n))
        (replace_free_patternProps assigned props h.tail)
        (Replacement.target_free_of_ne hn assigned)
  | .array items rest, h =>
      congrArg₂ Pattern.array (replace_free_arrayItems assigned items h.tail.left)
        (replace_free_pattern? assigned rest h.tail.right)

theorem replace_free_pattern? (assigned : Bool) : ∀ pattern : Option Pattern,
    Everywhere (Piece.Spares name) (patternPieces? pattern) →
      patternReplace? (.free name reference) assigned pattern =
        patternReplace? (.every name reference) assigned pattern
  | none, _ => rfl
  | some pattern, h => congrArg some (replace_free_pattern assigned pattern h)

theorem replace_free_patternProps (assigned : Bool) : ∀ props : List PatternProp,
    Everywhere (Piece.Spares name) (patternPropsPieces props) →
      patternPropsReplace (.free name reference) assigned props =
        patternPropsReplace (.every name reference) assigned props
  | [], _ => rfl
  | ⟨key, none, default⟩ :: props, h => by
      have hkey : key ≠ name := h.left.head.2
      simp only [patternPropsReplace, PatternProp.replace, Replacement.target_free_of_ne hkey,
        replace_free_expr? default h.left.tail.right,
        replace_free_patternProps assigned props h.right]
  | ⟨key, some pattern, default⟩ :: props, h =>
      congrArg₂ List.cons (congrArg₂ (fun pattern => PatternProp.mk key (some pattern))
        (replace_free_pattern assigned pattern h.left.tail.left)
        (replace_free_expr? default h.left.tail.right))
        (replace_free_patternProps assigned props h.right)

theorem replace_free_arrayItems (assigned : Bool) : ∀ items : List ArrayItem,
    Everywhere (Piece.Spares name) (arrayItemsPieces items) →
      arrayItemsReplace (.free name reference) assigned items =
        arrayItemsReplace (.every name reference) assigned items
  | [], _ => rfl
  | ⟨pattern, default⟩ :: items, h =>
      congrArg₂ List.cons (congrArg₂ ArrayItem.mk
        (replace_free_pattern assigned pattern h.left.tail.left)
        (replace_free_expr? default h.left.tail.right))
        (replace_free_arrayItems assigned items h.right)

theorem replace_free_target : ∀ target : AssignTarget,
    Everywhere (Piece.Spares name) target.pieces →
      target.replace (.free name reference) = target.replace (.every name reference)
  | .ident _, _ => rfl
  | .member object property, h =>
      congrArg (AssignTarget.member · property) (replace_free_expr object h.tail)
  | .index object index, h =>
      congrArg₂ AssignTarget.index (replace_free_expr object h.tail.left)
        (replace_free_expr index h.tail.right)
  | .pattern pattern, h => congrArg AssignTarget.pattern (replace_free_pattern true pattern h.tail)

theorem replace_free_block : ∀ block : Block, Everywhere (Piece.Spares name) block.pieces →
    block.replace (.free name reference) = block.replace (.every name reference)
  | ⟨body, tail⟩, h => by
      simp only [Block.replace, stmtsDeclare_eq_false body h.tail.left,
        replace_free_stmts body h.tail.left, replace_free_expr? tail h.tail.right,
        Bool.and_false]

theorem replace_free_block? : ∀ block : Option Block,
    Everywhere (Piece.Spares name) (blockPieces? block) →
      blockReplace? (.free name reference) block = blockReplace? (.every name reference) block
  | none, _ => rfl
  | some block, h => congrArg some (replace_free_block block h)

theorem replace_free_branches : ∀ branches : List Branch,
    Everywhere (Piece.Spares name) (branchesPieces branches) →
      branchesReplace (.free name reference) branches =
        branchesReplace (.every name reference) branches
  | [], _ => rfl
  | ⟨test, body⟩ :: branches, h =>
      congrArg₂ List.cons (congrArg₂ Branch.mk (replace_free_expr test h.left.tail.left)
        (replace_free_block body h.left.tail.right)) (replace_free_branches branches h.right)

theorem replace_free_handler? : ∀ handler : Option Handler,
    Everywhere (Piece.Spares name) (handlerPieces? handler) →
      handlerReplace? (.free name reference) handler =
        handlerReplace? (.every name reference) handler
  | none, _ => rfl
  | some ⟨param, body⟩, h => by
      simp only [handlerReplace?, Handler.replace, patternBinds?_eq_false param h.tail.left,
        replace_free_pattern? false param h.tail.left, replace_free_block body h.tail.right,
        Bool.and_false]

theorem replace_free_stmt : ∀ stmt : Stmt, Everywhere (Piece.Spares name) stmt.pieces →
    stmt.replace (.free name reference) = stmt.replace (.every name reference)
  | .breakLoop, _ | .continueLoop, _ | .importFrom _, _ => rfl
  | .decl kind pattern init, h =>
      congrArg₂ (Stmt.decl kind) (replace_free_pattern false pattern h.tail.left)
        (replace_free_expr? init h.tail.right)
  | .assign target op value, h =>
      congrArg₂ (Stmt.assign · op) (replace_free_target target h.tail.left)
        (replace_free_expr value h.tail.right)
  | .expr e, h => congrArg Stmt.expr (replace_free_expr e h.tail)
  | .ifElse branches otherwise, h =>
      congrArg₂ Stmt.ifElse (replace_free_branches branches h.tail.left)
        (replace_free_block? otherwise h.tail.right)
  | .whileLoop test body, h =>
      congrArg₂ Stmt.whileLoop (replace_free_expr test h.tail.left)
        (replace_free_block body h.tail.right)
  | .loop body, h => congrArg Stmt.loop (replace_free_block body h.tail)
  | .forIn pattern iterable body, h => by
      simp only [Stmt.replace, binds_eq_false pattern h.tail.left.left,
        replace_free_pattern false pattern h.tail.left.left,
        replace_free_expr iterable h.tail.left.right, replace_free_block body h.tail.right,
        Bool.and_false]
  | .forRange binding start stop step body, h => by
      have hbinding : (binding == name) = false := beq_eq_false_iff_ne.mpr h.head.2
      simp only [Stmt.replace, hbinding, replace_free_expr start h.tail.left.left.left,
        replace_free_expr stop h.tail.left.left.right, replace_free_expr? step h.tail.left.right,
        replace_free_block body h.tail.right, Bool.and_false]
  | .ret value, h => congrArg Stmt.ret (replace_free_expr? value h.tail)
  | .throw e, h => congrArg Stmt.throw (replace_free_expr e h.tail)
  | .tryCatch body handler finalizer, h => by
      change Stmt.tryCatch _ _ _ = Stmt.tryCatch _ _ _
      rw [replace_free_block body h.tail.left.left, replace_free_handler? handler h.tail.left.right,
        replace_free_block? finalizer h.tail.right]
  | .guard pattern e error fallback, h => by
      have herror : (error == name) = false := beq_eq_false_iff_ne.mpr h.head.2
      simp only [Stmt.replace, herror, replace_free_pattern? false pattern h.tail.left.left,
        replace_free_expr e h.tail.left.right, replace_free_block fallback h.tail.right,
        Bool.and_false]
  | .function f, h => congrArg Stmt.function (replace_free_function f h.tail)
  | .exportDecl decl, h => congrArg Stmt.exportDecl (replace_free_stmt decl h.tail)
  | .exportDefault e, h => congrArg Stmt.exportDefault (replace_free_expr e h.tail)

theorem replace_free_stmts : ∀ stmts : List Stmt,
    Everywhere (Piece.Spares name) (stmtsPieces stmts) →
      stmtsReplace (.free name reference) stmts = stmtsReplace (.every name reference) stmts
  | [], _ => rfl
  | stmt :: stmts, h =>
      congrArg₂ List.cons (replace_free_stmt stmt h.left) (replace_free_stmts stmts h.right)

end

end Spares

end PegScript

import PegScript.Grammar.Value
import PegScript.Tree.Basic

/-!
# Pieces of a tree

The nodes that the actions of the grammar produce: the types of the syntax tree, and some pieces
that only exist until the action around them puts them together.
-/

namespace PegScript

/-- A postfix operation that waits for the expression before it. -/
inductive Suffix where
  | call (args : List Element) (optional : Bool)
  | member (property : String) (optional : Bool)
  | index (index : Expr)

/-- An operator with its right operand, which waits for the left one. -/
structure Operand where
  op : BinaryOp
  right : Expr

/-- An element of a destructuring pattern, before the rest element is known to be last. -/
inductive PatternElement where
  | prop (prop : PatternProp)
  | item (item : ArrayItem)
  | rest (pattern : Pattern)

/-- The part of an import between the default name and the source. -/
inductive ImportClause where
  | namespaceName (name : String)
  | named (specs : List ImportSpec)

/-- Every kind of node that an action can produce. -/
inductive Piece where
  | program (program : Program)
  | block (block : Block)
  | stmt (stmt : Stmt)
  | expr (expr : Expr)
  | strPart (part : StrPart)
  | element (element : Element)
  | property (property : Property)
  | propertyKey (key : PropertyKey)
  | pipeStage (stage : PipeStage)
  | function (function : FunctionDef)
  | param (param : Param)
  | pattern (pattern : Pattern)
  | patternElement (element : PatternElement)
  | assignTarget (target : AssignTarget)
  | branch (branch : Branch)
  | handler (handler : Handler)
  | importFrom (clause : Import)
  | importSpec (spec : ImportSpec)
  | importClause (clause : ImportClause)
  | suffix (suffix : Suffix)
  | operand (operand : Operand)

namespace Piece

instance : NodeKind Program Piece where
  wrap := program
  unwrap? | program a => some a | _ => none

instance : NodeKind Block Piece where
  wrap := block
  unwrap? | block a => some a | _ => none

instance : NodeKind Stmt Piece where
  wrap := stmt
  unwrap? | stmt a => some a | _ => none

instance : NodeKind Expr Piece where
  wrap := expr
  unwrap? | expr a => some a | _ => none

instance : NodeKind StrPart Piece where
  wrap := strPart
  unwrap? | strPart a => some a | _ => none

instance : NodeKind Element Piece where
  wrap := element
  unwrap? | element a => some a | _ => none

instance : NodeKind Property Piece where
  wrap := property
  unwrap? | property a => some a | _ => none

instance : NodeKind PropertyKey Piece where
  wrap := propertyKey
  unwrap? | propertyKey a => some a | _ => none

instance : NodeKind PipeStage Piece where
  wrap := pipeStage
  unwrap? | pipeStage a => some a | _ => none

instance : NodeKind FunctionDef Piece where
  wrap := function
  unwrap? | function a => some a | _ => none

instance : NodeKind Param Piece where
  wrap := param
  unwrap? | param a => some a | _ => none

instance : NodeKind Pattern Piece where
  wrap := pattern
  unwrap? | pattern a => some a | _ => none

instance : NodeKind PatternElement Piece where
  wrap := patternElement
  unwrap? | patternElement a => some a | _ => none

instance : NodeKind AssignTarget Piece where
  wrap := assignTarget
  unwrap? | assignTarget a => some a | _ => none

instance : NodeKind Branch Piece where
  wrap := branch
  unwrap? | branch a => some a | _ => none

instance : NodeKind Handler Piece where
  wrap := handler
  unwrap? | handler a => some a | _ => none

instance : NodeKind Import Piece where
  wrap := importFrom
  unwrap? | importFrom a => some a | _ => none

instance : NodeKind ImportSpec Piece where
  wrap := importSpec
  unwrap? | importSpec a => some a | _ => none

instance : NodeKind ImportClause Piece where
  wrap := importClause
  unwrap? | importClause a => some a | _ => none

instance : NodeKind Suffix Piece where
  wrap := suffix
  unwrap? | suffix a => some a | _ => none

instance : NodeKind Operand Piece where
  wrap := operand
  unwrap? | operand a => some a | _ => none

end Piece

end PegScript

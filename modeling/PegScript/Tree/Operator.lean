/-!
# Operators

The operators of the language, with the tokens they are written as.
-/

namespace PegScript

inductive BinaryOp where
  | add
  | sub
  | mul
  | div
  | rem
  | pow
  | eq
  | notEq
  | lt
  | ltEq
  | gt
  | gtEq
  | instanceOf
  | and
  | or
  | coalesce
deriving DecidableEq, Repr

/-- The operator a token stands for; two have a symbol and a word. -/
def BinaryOp.ofToken? : String → Option BinaryOp
  | "+" => some .add
  | "-" => some .sub
  | "*" => some .mul
  | "/" => some .div
  | "%" => some .rem
  | "**" => some .pow
  | "==" => some .eq
  | "!=" => some .notEq
  | "<" => some .lt
  | "<=" => some .ltEq
  | ">" => some .gt
  | ">=" => some .gtEq
  | "instanceof" => some .instanceOf
  | "&&" | "and" => some .and
  | "||" | "or" => some .or
  | "??" => some .coalesce
  | _ => none

inductive UnaryOp where
  | not
  | neg
  | plus
  | typeOf
deriving DecidableEq, Repr

/-- The operator a token stands for. -/
def UnaryOp.ofToken? : String → Option UnaryOp
  | "!" | "not" => some .not
  | "-" => some .neg
  | "+" => some .plus
  | "typeof" => some .typeOf
  | _ => none

inductive AssignOp where
  | assign
  | add
  | sub
  | mul
  | div
  | rem
  | pow
  | coalesce
  | or
  | and
deriving DecidableEq, Repr

namespace AssignOp

/-- The operator a token stands for. -/
def ofToken? : String → Option AssignOp
  | "=" => some .assign
  | "+=" => some .add
  | "-=" => some .sub
  | "*=" => some .mul
  | "/=" => some .div
  | "%=" => some .rem
  | "**=" => some .pow
  | "??=" => some .coalesce
  | "||=" => some .or
  | "&&=" => some .and
  | _ => none

/-- The token of an operator. -/
def token : AssignOp → String
  | assign => "="
  | add => "+="
  | sub => "-="
  | mul => "*="
  | div => "/="
  | rem => "%="
  | pow => "**="
  | coalesce => "??="
  | or => "||="
  | and => "&&="

/-- The operation that a compound assignment applies before it assigns. -/
def binary? : AssignOp → Option BinaryOp
  | assign => none
  | add => some .add
  | sub => some .sub
  | mul => some .mul
  | div => some .div
  | rem => some .rem
  | pow => some .pow
  | coalesce => some .coalesce
  | or => some .or
  | and => some .and

end AssignOp

end PegScript

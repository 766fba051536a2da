/-!
# Values of matched terms

A matched term has a value.  Plain terms give the matched text or a list of the values of their
parts; an action may turn these into a node of any type `ν`.
-/

namespace PegScript

/-- The value of a matched term, with nodes of type `ν`. -/
inductive Value (ν : Type) where
  /-- No value: a lookahead, or a label that took its value away. -/
  | empty
  /-- An optional term that did not match. -/
  | absent
  | text (text : String)
  | list (items : List (Value ν))
  | node (node : ν)

/-- The values of type `α` are one kind of the nodes of type `ν`. -/
class NodeKind (α ν : Type) where
  wrap : α → ν
  unwrap? : ν → Option α

namespace Value

variable {ν : Type}

/-- Whether there is a value at all. -/
def isPresent : Value ν → Bool
  | empty | absent => false
  | _ => true

/-- The node, if it is of kind `α`. -/
def toNode? {α : Type} [NodeKind α ν] : Value ν → Option α
  | node n => NodeKind.unwrap? n
  | _ => none

/-- The items of a list.  A missing value is the empty list. -/
def toList? : Value ν → Option (List (Value ν))
  | list items => some items
  | empty | absent => some []
  | _ => none

/-- The nodes of a list, if all are of kind `α`. -/
def toNodes? {α : Type} [NodeKind α ν] (v : Value ν) : Option (List α) :=
  v.toList?.bind fun items => items.mapM toNode?

def toText? : Value ν → Option String
  | text s => some s
  | _ => none

/-- The item at `index` of a list that is long enough, any other value unchanged. -/
def pick (index : Nat) : Value ν → Value ν
  | list items => items[index]?.getD (list items)
  | v => v

end Value

end PegScript

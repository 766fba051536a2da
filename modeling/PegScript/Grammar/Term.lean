import PegScript.Grammar.Action
import PegScript.Grammar.CharClass

/-!
# Terms of a parsing expression grammar

Terms refer to rules by values of a type `ρ`.  A grammar that is still being put together refers to
rules by name only, never by the number that building gives to a rule; in a finished grammar `ρ` is
a type whose every value is a rule, so a reference cannot dangle.
-/

namespace PegScript

/-- What a rule matches, with rules named by `ρ` and nodes of type `ν`. -/
inductive Term (ρ ν : Type) where
  /-- A fixed text. -/
  | literal (text : String) (ignoreCase : Bool)
  /-- One character of a class. -/
  | charIn (k : CharClass)
  /-- Any one character. -/
  | anyChar
  /-- Whatever the rule matches. -/
  | rule (r : ρ)
  /-- All terms, one after the other. -/
  | seq (terms : List (Term ρ ν))
  /-- The first term that matches. -/
  | choice (terms : List (Term ρ ν))
  /-- As many matches as possible. -/
  | star (term : Term ρ ν)
  /-- As many matches as possible, at least one. -/
  | plus (term : Term ρ ν)
  /-- A match if there is one. -/
  | opt (term : Term ρ ν)
  /-- Matches nothing, where the term does not match. -/
  | not (term : Term ρ ν)
  /-- Matches nothing, where the term matches. -/
  | and (term : Term ρ ν)
  /-- Keeps the value of the term for the action around it. -/
  | label (name : String) (term : Term ρ ν)
  /-- Lets an action build the value. -/
  | action (act : ActionM ν (Value ν)) (term : Term ρ ν)
  /-- The value is the matched text. -/
  | text (term : Term ρ ν)
  /-- The value is one item of the term's list. -/
  | pick (index : Nat) (term : Term ρ ν)

namespace Term

variable {ρ σ ν ε : Type}

/-- A fixed text, letter case included. -/
def lit (text : String) : Term ρ ν :=
  .literal text false

/-- A fixed text in which the case of ASCII letters does not count. -/
def litAnyCase (text : String) : Term ρ ν :=
  .literal text true

/-- One character out of the ranges. -/
def oneOf (ranges : List (Char × Char)) : Term ρ ν :=
  .charIn (.ofRanges ranges false)

/-- One character outside of the ranges. -/
def noneOf (ranges : List (Char × Char)) : Term ρ ν :=
  .charIn (.ofRanges ranges true)

/-- The head and the tail of a separated list, as one list. -/
def joinSeparated : ActionM ν (Value ν) := do
  let head ← ActionM.take "head"
  let tail ← ActionM.require (← ActionM.take "tail").toList?
  return .list (head :: tail)

/-- One or more items with separators between them; the value is the list of the items. -/
def separated (item : ρ) (separator : Term ρ ν) : Term ρ ν :=
  .action joinSeparated <| .seq [
    .label "head" (.rule item),
    .label "tail" (.star (.pick 1 (.seq [separator, .rule item])))]

mutual

/-- Replaces every reference to a rule, from left to right, up to the first that has no
replacement. -/
def traverse (f : ρ → Except ε σ) : Term ρ ν → Except ε (Term σ ν)
  | .literal s ignoreCase => .ok (.literal s ignoreCase)
  | .charIn k => .ok (.charIn k)
  | .anyChar => .ok .anyChar
  | .rule r => (f r).map .rule
  | .seq terms => (traverseList f terms).map .seq
  | .choice terms => (traverseList f terms).map .choice
  | .star term => (traverse f term).map .star
  | .plus term => (traverse f term).map .plus
  | .opt term => (traverse f term).map .opt
  | .not term => (traverse f term).map .not
  | .and term => (traverse f term).map .and
  | .label name term => (traverse f term).map (.label name)
  | .action act term => (traverse f term).map (.action act)
  | .text term => (traverse f term).map .text
  | .pick index term => (traverse f term).map (.pick index)

/-- Replaces the references in each term of a list. -/
def traverseList (f : ρ → Except ε σ) : List (Term ρ ν) → Except ε (List (Term σ ν))
  | [] => .ok []
  | term :: terms =>
    match traverse f term with
    | .error e => .error e
    | .ok t => (traverseList f terms).map (t :: ·)

end

end Term

end PegScript

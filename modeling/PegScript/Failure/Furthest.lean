import PegScript.Text.Escape

/-!
# What a parse expected, and where

While a parse runs, every term that fails reports what it expected and where.  Only the furthest
place counts, so a record keeps the expectations of one offset, in the order of their first report.
-/

namespace PegScript

/-- Something that would have been accepted. -/
inductive Expectation where
  | literal (text : String) (ignoreCase : Bool)
  /-- A character of the described class. -/
  | charIn (description : String)
  | anyChar
  | endOfInput
  /-- Whatever the rule with that expectation matches. -/
  | named (name : String)
  /-- Input that needs fewer rules at once. -/
  | lessNesting
deriving DecidableEq, Repr

/-- How an expectation is shown in a message. -/
def Expectation.text : Expectation → String
  | literal text ignoreCase => Escape.diagnosis.quote text ++ if ignoreCase then "i" else ""
  | charIn description => description
  | anyChar => "any character"
  | endOfInput => "end of input"
  | named name => name
  | lessNesting => "less nesting"

/-- The furthest offset at which something failed, with everything expected there. -/
structure FurthestFailure where
  offset : Nat := 0
  expected : List Expectation := []
deriving DecidableEq, Repr

/-- Takes one more failure into account.  Failures before the furthest offset are dropped, and an
expectation already listed stays where it is. -/
def FurthestFailure.add (r : FurthestFailure) (offset : Nat) (e : Expectation) : FurthestFailure :=
  if offset < r.offset then r
  else if r.offset < offset then ⟨offset, [e]⟩
  else if e ∈ r.expected then r
  else { r with expected := r.expected ++ [e] }

end PegScript

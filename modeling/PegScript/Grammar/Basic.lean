import PegScript.Grammar.Term

/-!
# Rules and grammars

A grammar assigns a rule to every value of its type `ρ` of rule references and names the rule to
start from.  How a rule takes part in diagnostics belongs to the rule, not to its term.
-/

namespace PegScript

/-- A rule of a grammar. -/
structure Rule (ρ ν : Type) where
  name : String
  /-- Reported in place of the failures at the start of the rule. -/
  expect : Option String := none
  /-- Failures inside the rule are never reported. -/
  silent : Bool := false
  body : Term ρ ν

/-- A complete set of rules with a root. -/
structure Grammar (ρ ν : Type) where
  /-- All rules, in the order of their definition. -/
  symbols : List ρ
  rule : ρ → Rule ρ ν
  root : ρ

namespace Grammar

variable {ρ ν : Type}

/-- The name of a rule. -/
def nameOf (g : Grammar ρ ν) (r : ρ) : String :=
  (g.rule r).name

/-- The rule of that name. -/
def find? (g : Grammar ρ ν) (name : String) : Option ρ :=
  g.symbols.find? fun r => g.nameOf r == name

/-- The number of rules. -/
def size (g : Grammar ρ ν) : Nat :=
  g.symbols.length

end Grammar

end PegScript

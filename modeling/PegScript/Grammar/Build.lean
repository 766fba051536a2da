import PegScript.Grammar.Basic
import PegScript.Log

/-!
# Building a grammar from named rules

Rules whose terms refer to other rules by name make a grammar if the names are distinct, every
reference names a rule, and so does the root.  In the built grammar a reference is an index into the
rules, so it always leads to a rule.
-/

namespace PegScript

/-- Why named rules do not make a grammar. -/
inductive BuildError where
  | unknownRule (name : String)
  | duplicateRule (name : String)
  | unknownRoot (name : String)
deriving DecidableEq, Repr

/-- The text of the error. -/
def BuildError.message : BuildError → String
  | unknownRule name => s!"Reference to unknown rule '{name}'"
  | duplicateRule name => s!"Rule '{name}' is defined twice"
  | unknownRoot name => s!"Root rule '{name}' does not exist"

/-- A grammar whose rules are numbered. -/
structure NumberedGrammar (ν : Type) where
  count : Nat
  grammar : Grammar (Fin count) ν

/-- The log records of building a grammar. -/
def NumberedGrammar.log {ν : Type} (g : NumberedGrammar ν) : List LogRecord :=
  [⟨.trace, s!"Built grammar with {g.count} rules"⟩]

namespace Grammar

variable {ν : Type}

/-- The first name that already occurred, before the list in `seen` or in the list itself. -/
def firstRepeated? (seen : List String) : List String → Option String
  | [] => none
  | name :: names =>
    if name ∈ seen then some name else firstRepeated? (name :: seen) names

/-- The index of the rule of that name. -/
def indexOf? (rules : List (Rule String ν)) (name : String) : Option (Fin rules.length) :=
  rules.findFinIdx? fun rule => rule.name == name

/-- The index that a reference stands for. -/
def resolveName (rules : List (Rule String ν)) (name : String) :
    Except BuildError (Fin rules.length) :=
  match indexOf? rules name with
  | some i => .ok i
  | none => .error (.unknownRule name)

/-- Replaces the references in the body of each rule. -/
def resolveRules {ρ σ : Type} (f : ρ → Except BuildError σ) :
    (rules : List (Rule ρ ν)) →
      Except BuildError { out : List (Rule σ ν) // out.length = rules.length }
  | [] => .ok ⟨[], rfl⟩
  | rule :: rules =>
    match rule.body.traverse f with
    | .error e => .error e
    | .ok body =>
      match resolveRules f rules with
      | .error e => .error e
      | .ok ⟨out, h⟩ => .ok ⟨{ rule with body } :: out, by simp [h]⟩

/-- Builds the grammar.  A repeated name is reported before an unknown reference, and that before an
unknown root.  The bodies of the rules refer to other rules by name: a body that already holds the
number of a rule, which would be kept without a check, cannot be given. -/
def build (rules : List (Rule String ν)) (root : String) :
    Except BuildError (NumberedGrammar ν) :=
  match firstRepeated? [] (rules.map (·.name)) with
  | some name => .error (.duplicateRule name)
  | none =>
    match resolveRules (resolveName rules) rules with
    | .error e => .error e
    | .ok ⟨resolved, h⟩ =>
      match indexOf? rules root with
      | none => .error (.unknownRoot root)
      | some start => .ok {
          count := rules.length
          grammar := {
            symbols := List.finRange rules.length
            rule := fun i => resolved.get (i.cast h.symm)
            root := start } }

end Grammar

end PegScript

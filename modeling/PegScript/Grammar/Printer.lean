import PegScript.Grammar.Basic
import PegScript.Text.Escape

/-!
# Grammars in written form

Terms are written in the usual notation of parsing expression grammars: `/` between alternatives,
`*`, `+` and `?` behind a term in parentheses, `!` and `&` before one.  Actions are only hinted at.
-/

namespace PegScript

namespace Term

variable {ρ ν : Type}

/-- Sequences and choices stand in parentheses inside of another sequence or choice. -/
def isCompound : Term ρ ν → Bool
  | .seq _ | .choice _ => true
  | _ => false

/-- A term between parentheses. -/
def parenthesized (text : String) : String :=
  "(" ++ text ++ ")"

mutual

/-- The written form of a term, with rules written by `nameOf`. -/
def render (nameOf : ρ → String) : Term ρ ν → String
  | .literal s ignoreCase => Escape.dump.quote s ++ if ignoreCase then "i" else ""
  | .charIn k => k.description
  | .anyChar => "."
  | .rule r => nameOf r
  | .seq terms => " ".intercalate (renderList nameOf terms)
  | .choice terms => " / ".intercalate (renderList nameOf terms)
  | .star term => parenthesized (render nameOf term) ++ "*"
  | .plus term => parenthesized (render nameOf term) ++ "+"
  | .opt term => parenthesized (render nameOf term) ++ "?"
  | .not term => "!" ++ parenthesized (render nameOf term)
  | .and term => "&" ++ parenthesized (render nameOf term)
  | .label name term => name ++ ":" ++ parenthesized (render nameOf term)
  | .action _ term => render nameOf term ++ " \x7b…\x7d"
  | .text term => "$" ++ parenthesized (render nameOf term)
  | .pick index term => s!"@{index}" ++ parenthesized (render nameOf term)

/-- The written forms of the parts of a sequence or choice. -/
def renderList (nameOf : ρ → String) : List (Term ρ ν) → List String
  | [] => []
  | term :: terms =>
    let written := render nameOf term
    (if term.isCompound then parenthesized written else written) :: renderList nameOf terms

end

end Term

namespace Grammar

variable {ρ ν : Type}

/-- One rule as a line: its name, a mark for a silent rule, the expectation it reports, its body. -/
def renderRule (g : Grammar ρ ν) (rule : Rule ρ ν) : String :=
  rule.name
    ++ (if rule.silent then " _" else "")
    ++ (match rule.expect with
        | some expect => " " ++ Escape.dump.quote expect
        | none => "")
    ++ " = " ++ rule.body.render g.nameOf ++ "\n"

/-- The rules of a grammar, one to a line. -/
def render (g : Grammar ρ ν) : String :=
  String.join (g.symbols.map fun r => g.renderRule (g.rule r))

end Grammar

end PegScript

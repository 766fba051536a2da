import PegScript.Grammar.Term
import PegScript.Language.Symbol
import PegScript.Tree.Piece

/-!
# Common shapes of rules

Shapes that the rules of the language share: words, separators and bracketed lists.
-/

namespace PegScript

namespace Language

/-- The body of a rule of the language. -/
abbrev Body := Term Symbol Piece

/-- An action of the language. -/
abbrev Build := ActionM Piece (Value Piece)

/-- A word that is not the start of a longer name. -/
def word (text : String) : Body :=
  .seq [.lit text, .not (.rule .identPart)]

/-- A comma with any layout around it. -/
def comma : Body :=
  .seq [.rule .layout, .lit ",", .rule .layout]

/-- Items between brackets, separated by commas, with one more comma allowed at the end.  The value
is the list of the items. -/
def listOf (item : Symbol) (opening closing : String) : Body :=
  .pick 2 <| .seq [
    .lit opening,
    .rule .layout,
    .opt (.separated item comma),
    .opt (.seq [.rule .layout, .lit ","]),
    .rule .layout,
    .lit closing]

end Language

end PegScript

import PegScript.JavaScript.Lower

/-!
# Generated programs

A lowered program is a list of statements.  The variables that its top level needs are declared
before the statements of the program, and no statement of the program ends in white space.
-/

namespace PegScript

namespace JavaScript

/-- The characters that Unicode counts as white space, from the first to the last of each range. -/
def whiteSpace : List (Char × Char) :=
  [('\t', '\r'), (' ', ' '), ('\u0085', '\u0085'), ('\u00a0', '\u00a0'), ('\u1680', '\u1680'),
    ('\u2000', '\u200a'), ('\u2028', '\u2029'), ('\u202f', '\u202f'), ('\u205f', '\u205f'),
    ('\u3000', '\u3000')]

def isWhiteSpace (c : Char) : Bool :=
  whiteSpace.any fun range => decide (range.1 ≤ c) && decide (c ≤ range.2)

/-- The text without the white space at its end. -/
def trimEnd (text : String) : String :=
  String.ofList (text.toList.reverse.dropWhile isWhiteSpace).reverse

/-- The outcome of lowering a program. -/
structure Generated where
  /-- Variables to declare at the top level. -/
  hoisted : List String
  /-- One text for each statement of the program. -/
  body : List String
  helpers : HelperSet
deriving DecidableEq, Repr

namespace Generated

/-- The declarations followed by the statements of the program. -/
def statements (g : Generated) : List String :=
  g.hoisted.map Lower.declaration ++ g.body

/-- Texts with a line break behind each. -/
def joinLines (texts : List String) : String :=
  String.join (texts.map (· ++ "\n"))

/-- The statements as one text. -/
def text (g : Generated) : String :=
  joinLines g.statements

end Generated

/-- Lowers a program. -/
def generate (program : Program) : Except Defect Generated := do
  let ((texts, hoisted), emitter) ← (Lower.inScope (stmtTexts program.body)).run {}
  return { hoisted, body := texts.map trimEnd, helpers := emitter.helpers }

end JavaScript

end PegScript

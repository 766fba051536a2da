import PegScript.Language.Shape

/-!
# Layout, names and literals

The rules for blanks and comments, for names and keywords, and for numbers and strings.
-/

namespace PegScript

namespace Language

/-- The words that cannot be names of variables. -/
def keywords : List String := [
  "and", "async", "await", "break", "catch", "const", "continue", "default", "do", "else",
  "export", "false", "finally", "fn", "for", "guard", "if", "import", "in", "instanceof", "let",
  "loop", "new", "not", "null", "or", "return", "this", "throw", "true", "try", "typeof",
  "undefined", "while", "yield"]

def isKeyword (text : String) : Bool :=
  keywords.contains text

namespace Lexical

/-- Blanks and comments within a line. -/
def blank : Body :=
  .star (.choice [.oneOf [(' ', ' '), ('\t', '\t')], .rule .comment])

/-- Blanks, comments and line breaks. -/
def layout : Body :=
  .star (.choice [
    .oneOf [(' ', ' '), ('\t', '\t'), ('\n', '\n'), ('\r', '\r')],
    .rule .comment])

def newline : Body :=
  .choice [.lit "\r\n", .lit "\n", .lit "\r"]

def comment : Body :=
  .choice [.rule .lineComment, .rule .blockComment]

def lineComment : Body :=
  .seq [.lit "//", .star (.noneOf [('\n', '\n'), ('\r', '\r')])]

def blockComment : Body :=
  .seq [.lit "/*", .star (.seq [.not (.lit "*/"), .anyChar]), .lit "*/"]

def identStart : Body :=
  .oneOf [('a', 'z'), ('A', 'Z'), ('_', '_'), ('$', '$')]

def identPart : Body :=
  .oneOf [('a', 'z'), ('A', 'Z'), ('0', '9'), ('_', '_'), ('$', '$')]

def keyword : Body :=
  .choice (keywords.map word)

/-- A name that may be a keyword, as for members and properties. -/
def identifierName : Body :=
  .text (.seq [.rule .identStart, .star (.rule .identPart)])

/-- A name that is not a keyword. -/
def identifier : Body :=
  .pick 1 (.seq [.not (.rule .keyword), identifierName])

/-- Whether every underscore stands between two digits; `before` is the character in front. -/
def separatesDigits (isDigit : Char → Bool) (before : Option Char) : List Char → Bool
  | [] => true
  | c :: rest =>
    (c != '_' || (before.any isDigit && rest.head?.any isDigit))
      && separatesDigits isDigit (some c) rest

/-- A digit to base sixteen. -/
def isHexDigit (c : Char) : Bool :=
  c.isDigit || ('a' ≤ c && c ≤ 'f') || ('A' ≤ c && c ≤ 'F')

/-- Whether the digit separators of a number stand between digits.  What counts as a digit depends
on whether the number starts with a mark for its base. -/
def hasGoodSeparators (text : String) : Bool :=
  match text.toList with
  | '0' :: mark :: digits =>
    if ['x', 'b', 'o'].contains mark.toLower then separatesDigits isHexDigit none digits
    else separatesDigits Char.isDigit none ('0' :: mark :: digits)
  | digits => separatesDigits Char.isDigit none digits

def buildNumber : Build := do
  let text ← ActionM.matched
  if hasGoodSeparators text then ActionM.produce (Expr.number text) else ActionM.reject

def number : Body :=
  .action buildNumber <| .seq [
    .choice [.rule .hexNumber, .rule .binaryNumber, .rule .octalNumber, .rule .decimalNumber],
    .not (.rule .identStart)]

/-- The mark of a base, a digit, and more digits and separators. -/
def markedNumber (mark : String) (digits : List (Char × Char)) : Body :=
  .seq [.litAnyCase mark, .oneOf digits, .star (.oneOf (digits ++ [('_', '_')]))]

def hexNumber : Body :=
  markedNumber "0x" [('0', '9'), ('a', 'f'), ('A', 'F')]

def binaryNumber : Body :=
  markedNumber "0b" [('0', '1')]

def octalNumber : Body :=
  markedNumber "0o" [('0', '7')]

/-- A decimal digit. -/
def digit : Body :=
  .oneOf [('0', '9')]

/-- Decimal digits and separators. -/
def moreDigits : Body :=
  .star (.oneOf [('0', '9'), ('_', '_')])

def decimalNumber : Body :=
  .seq [
    digit,
    moreDigits,
    .opt (.seq [.lit ".", digit, moreDigits]),
    .opt (.seq [
      .oneOf [('e', 'e'), ('E', 'E')],
      .opt (.oneOf [('+', '+'), ('-', '-')]),
      digit,
      moreDigits])]

def buildString : Build := do
  ActionM.produce (Expr.str (← ActionM.nodes "parts"))

def string : Body :=
  .action buildString <| .seq [
    .lit "\"",
    .label "parts" (.star (.rule .stringPart)),
    .lit "\""]

def stringPart : Body :=
  .choice [.rule .interpolation, .rule .stringText]

def buildInterpolation : Build := do
  ActionM.produce (StrPart.expr (← ActionM.node "expr"))

def interpolation : Body :=
  .action buildInterpolation <| .seq [
    .lit "#\x7b",
    .rule .layout,
    .label "expr" (.rule .expression),
    .rule .layout,
    .lit "\x7d"]

def buildStringText : Build := do
  ActionM.produce (StrPart.text (← ActionM.matched))

def stringText : Body :=
  .action buildStringText (.plus (.rule .stringChar))

/-- A backslash with the character after it, or a character that ends neither the string nor its
text. -/
def stringChar : Body :=
  .choice [
    .seq [.lit "\\", .anyChar],
    .seq [.not (.choice [.lit "\"", .lit "#\x7b"]), .anyChar]]

/-- A text without its first and last character. -/
def inner (text : String) : String :=
  String.ofList text.toList.tail.dropLast

def buildRawString : Build := do
  ActionM.produce (Expr.rawStr (inner (← ActionM.matched)))

def rawString : Body :=
  .action buildRawString <| .seq [
    .lit "'",
    .text (.star (.noneOf [('\'', '\'')])),
    .lit "'"]

/-- The text of a string without interpolation. -/
def plainText? : Expr → Option String
  | .str [] => some ""
  | .str [.text text] => some text
  | _ => none

def buildPlainString : Build := do
  return .text (← ActionM.require (plainText? (← ActionM.valueNode)))

/-- A string used as a name. -/
def plainString : Body :=
  .action buildPlainString (.rule .string)

end Lexical

end Language

end PegScript

/-!
# Quoted text

Three ways to write a text between double quotes.  They differ in which characters are written with
a backslash and in how a character is written by its code.
-/

namespace PegScript

/-- How a quoted text writes the characters that do not stand for themselves. -/
structure Escape where
  /-- Characters written as a backslash and one letter. -/
  letters : List (Char × Char)
  /-- Characters written by their code, unless they have a letter. -/
  isCoded : Char → Bool
  /-- The written code, without its backslash. -/
  code : Nat → String

namespace Escape

/-- The characters of Unicode's control category. -/
def isControl (c : Char) : Bool :=
  c.toNat < 0x20 || (0x7f ≤ c.toNat && c.toNat < 0xa0)

/-- Hexadecimal digits, at least `width` of them. -/
def hex (width n : Nat) : String :=
  let digits := Nat.toDigits 16 n
  String.ofList (List.replicate (width - digits.length) '0' ++ digits)

/-- The quoted form of one character. -/
def char (e : Escape) (c : Char) : String :=
  match e.letters.lookup c with
  | some letter => String.ofList ['\\', letter]
  | none => if e.isCoded c then "\\" ++ e.code c.toNat else c.toString

/-- The quoted form of a text, without the quotes. -/
def text (e : Escape) (s : String) : String :=
  String.join (s.toList.map e.char)

/-- A text between double quotes. -/
def quote (e : Escape) (s : String) : String :=
  "\"" ++ e.text s ++ "\""

/-- Quoting in diagnostics: control characters have two upper-case hexadecimal digits. -/
def diagnosis : Escape where
  letters := [('"', '"'), ('\\', '\\'), ('\n', 'n'), ('\r', 'r'), ('\t', 't'), ('\x00', '0')]
  isCoded := isControl
  code n := "x" ++ (hex 2 n).toUpper

/-- Quoting in dumps of grammars and trees: control characters have their code in braces. -/
def dump : Escape where
  letters := [('"', '"'), ('\\', '\\'), ('\n', 'n'), ('\r', 'r'), ('\t', 't'), ('\x00', '0')]
  isCoded := isControl
  code n := "u\x7b" ++ hex 1 n ++ "\x7d"

/-- Quoting of JSON: four hexadecimal digits, below the blank only. -/
def json : Escape where
  letters := [('"', '"'), ('\\', '\\'), ('\x08', 'b'), ('\x0c', 'f'), ('\n', 'n'), ('\r', 'r'),
    ('\t', 't')]
  isCoded c := c.toNat < 0x20
  code n := "u" ++ hex 4 n

end Escape

end PegScript

/-!
# String and number literals

The text of a string literal is kept as written, so most escapes mean the same in the generated
literal.  Only `\#`, which keeps an interpolation from starting, means nothing there.
-/

namespace PegScript

namespace JavaScript

/-- Copies an escaped text, with `other` for the characters outside of escapes; `other` also sees
what follows. -/
def copyEscapes (other : Char → List Char → List Char) : List Char → List Char
  | [] => []
  | ['\\'] => ['\\']
  | '\\' :: '#' :: rest => '#' :: copyEscapes other rest
  | '\\' :: c :: rest => '\\' :: c :: copyEscapes other rest
  | c :: rest => other c rest ++ copyEscapes other rest

/-- A line break is escaped between double quotes. -/
def plainChar (c : Char) (_ : List Char) : List Char :=
  match c with
  | '\n' => ['\\', 'n']
  | '\r' => ['\\', 'r']
  | c => [c]

/-- Text between double quotes, with the escapes of the source. -/
def plain (text : String) : String :=
  "\"" ++ String.ofList (copyEscapes plainChar text.toList) ++ "\""

/-- A template escapes what would end it or start a substitution. -/
def templateChar (c : Char) (rest : List Char) : List Char :=
  if c = '\x60' then ['\\', c]
  else if c = '$' ∧ rest.head? = some '\x7b' then ['\\', c]
  else [c]

/-- Text between the substitutions of a template, with the escapes of the source. -/
def templateText (text : String) : String :=
  String.ofList (copyEscapes templateChar text.toList)

/-- The double-quoted form of a character that stands for itself. -/
def rawChar : Char → List Char
  | '\\' => ['\\', '\\']
  | '"' => ['\\', '"']
  | '\n' => ['\\', 'n']
  | '\r' => ['\\', 'r']
  | c => [c]

/-- A text without escapes, between double quotes. -/
def raw (text : String) : String :=
  "\"" ++ String.ofList (text.toList.flatMap rawChar) ++ "\""

/-- A number without its digit separators. -/
def number (text : String) : String :=
  String.ofList (text.toList.filter (· != '_'))

end JavaScript

end PegScript

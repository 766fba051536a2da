/-!
# Places in a source text

A cursor is a place between two characters of a source text.  It keeps the byte offset of the place,
which is what reports show, together with the characters that follow, which is what matching reads.
A step forward always moves past one whole character, so a cursor that starts at the beginning of a
text never stands inside a character or past the end.
-/

namespace PegScript

/-- The characters of `cs` that start within its first `n` bytes. -/
def takeBytes : Nat → List Char → List Char
  | 0, _ => []
  | _ + 1, [] => []
  | n + 1, c :: cs => c :: takeBytes (n + 1 - c.utf8Size) cs

/-- A place between two characters: its byte offset and the text after it. -/
structure Cursor where
  offset : Nat
  rest : List Char
deriving DecidableEq, Repr

namespace Cursor

/-- The place before the first character. -/
def start (source : String) : Cursor :=
  ⟨0, source.toList⟩

/-- The next character and the place after it. -/
def next? (c : Cursor) : Option (Char × Cursor) :=
  match c.rest with
  | [] => none
  | a :: rest => some (a, ⟨c.offset + a.utf8Size, rest⟩)

/-- The text from `c` up to the later place `stop`. -/
def textTo (c stop : Cursor) : String :=
  String.ofList (takeBytes (stop.offset - c.offset) c.rest)

/-- Walks from byte `offset` over `rest` to the place at byte `target`. -/
def seek (target : Nat) : Nat → List Char → Option Cursor
  | offset, [] => if offset = target then some ⟨offset, []⟩ else none
  | offset, a :: rest =>
    if offset = target then some ⟨offset, a :: rest⟩
    else if target < offset then none
    else seek target (offset + a.utf8Size) rest

/-- The place at byte `offset`, if that is a place of the text. -/
def at? (source : String) (offset : Nat) : Option Cursor :=
  seek offset 0 source.toList

/-- The place after `text`, whose characters are compared by `same`. -/
def skip? (same : Char → Char → Bool) (c : Cursor) : List Char → Option Cursor
  | [] => some c
  | a :: text =>
    match c.next? with
    | some (b, next) => if same a b then skip? same next text else none
    | none => none

/-- The place after the literal `text`.  With `ignoreCase` an ASCII letter also stands for the same
letter of the other case. -/
def skipLiteral? (c : Cursor) (text : String) (ignoreCase : Bool) : Option Cursor :=
  if ignoreCase then c.skip? (fun a b => a.toLower == b.toLower) text.toList
  else c.skip? (· == ·) text.toList

end Cursor

end PegScript

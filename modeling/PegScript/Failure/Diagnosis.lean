import PegScript.Failure.Furthest
import PegScript.Text.LineMap

/-!
# Failed parses

A failed parse is described by the furthest place it reached, by what would have been accepted there
and by the character found instead.  It is shown as a one-line message or as a report that quotes
the source and points at the place.
-/

namespace PegScript

/-- The description of a failed parse. -/
structure Diagnosis where
  offset : Nat
  /-- In the order of their texts, each text once. -/
  expected : List Expectation
  /-- The character at the offset, nothing at the end of input. -/
  found : Option Char
deriving DecidableEq, Repr

/-- Keeps the first of neighbours with equal keys. -/
def dropRepeatedKeys {α : Type} : List (String × α) → List (String × α)
  | [] => []
  | [entry] => [entry]
  | a :: b :: rest =>
    if a.1 = b.1 then dropRepeatedKeys (a :: rest) else a :: dropRepeatedKeys (b :: rest)
termination_by entries => entries.length

/-- Sorts by text.  Of several expectations with one text the first is kept. -/
def sortExpectations (expected : List Expectation) : List Expectation :=
  let keyed := expected.map fun e => (e.text, e)
  (dropRepeatedKeys (keyed.mergeSort fun a b => decide (a.1 ≤ b.1))).map (·.2)

/-- The failure that a record describes in the source it was made for. -/
def FurthestFailure.diagnose (r : FurthestFailure) (source : String) : Diagnosis where
  offset := r.offset
  expected := sortExpectations r.expected
  found := (Cursor.at? source r.offset).bind fun c => c.rest.head?

/-- Joins all entries but the last by commas and puts `or` before the last. -/
def enumerate : List String → String
  | [] => "nothing"
  | [a] => a
  | [a, b] => a ++ " or " ++ b
  | texts => String.join (texts.dropLast.map (· ++ ", ")) ++ "or " ++ texts.getLastD ""

namespace Diagnosis

/-- What was expected and what was found, in one sentence. -/
def message (f : Diagnosis) : String :=
  "Expected " ++ enumerate (f.expected.map (·.text))
    ++ match f.found with
      | some c => " but found " ++ Escape.diagnosis.quote c.toString ++ "."
      | none => " but end of input found."

/-- Line and column of the failure. -/
def position (f : Diagnosis) (source : String) : Position :=
  LineMap.positionIn source f.offset

/-- Fills a text up with blanks on the left. -/
def padLeft (width : Nat) (text : String) : String :=
  String.ofList (List.replicate (width - text.length) ' ') ++ text

/-- A quoted source line behind its gutter. -/
def sourceLine (width : Nat) (gutter text : String) : String :=
  padLeft width gutter ++ " | " ++ text

/-- The rows that quote some lines of the source. -/
def quoteLines (width : Nat) : LineMap → List UInt32 → List String
  | _, [] => []
  | map, n :: ns =>
    let (text, map) := map.lineText n.toNat
    sourceLine width (toString n) text :: quoteLines width map ns

/-- The message, the position, the line before and the line itself, and a pointer to the column. -/
def render (f : Diagnosis) (source : String) : String :=
  let (found, map) := (LineMap.ofSource source).position f.offset
  let p := found.getD ⟨1, 1⟩
  let width := (toString p.line).length
  let shown := if 1 < p.line then [p.line - 1, p.line] else [p.line]
  let pointer := String.ofList (List.replicate (p.column.toNat - 1) '-') ++ "^"
  "\n".intercalate <|
    [f.message, p.render] ++ quoteLines width map shown ++ [sourceLine width "" pointer]

end Diagnosis

end PegScript

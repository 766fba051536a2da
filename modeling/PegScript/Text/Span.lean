import PegScript.Text.Cursor

/-!
# Stretches of a source text

A span is a pair of byte offsets.  It is plain data: whether both ends are places of some text is
asked when the text is read.
-/

namespace PegScript

/-- The bytes from `start` up to `stop`. -/
structure Span where
  start : Nat := 0
  stop : Nat := 0
deriving DecidableEq, Repr

namespace Span

/-- The empty span at one place. -/
def point (offset : Nat) : Span :=
  ⟨offset, offset⟩

/-- The number of bytes, zero for a span whose ends are the wrong way round. -/
def length (s : Span) : Nat :=
  s.stop - s.start

def isEmpty (s : Span) : Bool :=
  decide (s.stop ≤ s.start)

/-- Whether the byte at `offset` lies in the span. -/
def contains (s : Span) (offset : Nat) : Bool :=
  decide (s.start ≤ offset) && decide (offset < s.stop)

/-- The smallest span that covers both. -/
def join (s t : Span) : Span :=
  ⟨min s.start t.start, max s.stop t.stop⟩

/-- The text of the span, if both ends are places of the source in the right order. -/
def text? (s : Span) (source : String) : Option String := do
  let first ← Cursor.at? source s.start
  let last ← Cursor.at? source s.stop
  if s.start ≤ s.stop then some (first.textTo last) else none

/-- Written `start..stop`. -/
def render (s : Span) : String :=
  s!"{s.start}..{s.stop}"

end Span

end PegScript

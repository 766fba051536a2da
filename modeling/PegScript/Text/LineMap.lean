import PegScript.Text.Cursor

/-!
# Lines and columns

A line ends with a line feed, a carriage return, or the two together.  Columns count code points,
offsets count bytes.

A line map answers questions about the lines of one source and scans the source only as far as the
questions have needed so far.  It also keeps the line of the last answer: an offset in that line or
in the next one is answered without a search.  Every question gives the map for the questions after
it.
-/

namespace PegScript

/-- A line and a column, both counted from one.  They have 32 bits, and the number after the last of
them is 0; a source with fewer than 2 ^ 32 - 1 bytes does not get there. -/
structure Position where
  line : UInt32
  column : UInt32
deriving DecidableEq, Repr

/-- Written as in diagnostics. -/
def Position.render (p : Position) : String :=
  s!"line {p.line}, col {p.column}"

/-- A carriage return or a line feed. -/
def isLineBreak (c : Char) : Bool :=
  c == '\n' || c == '\r'

/-- Walks from byte `offset` to the next line break, or to the end of the text. -/
def lineStop (offset : Nat) : List Char → Cursor
  | [] => ⟨offset, []⟩
  | a :: rest =>
    if isLineBreak a then ⟨offset, a :: rest⟩ else lineStop (offset + a.utf8Size) rest

namespace Cursor

/-- The end of the line, before its line break. -/
def lineStop (c : Cursor) : Cursor :=
  PegScript.lineStop c.offset c.rest

/-- The place after the line break at the place, if there is one. -/
def afterBreak? (c : Cursor) : Option Cursor :=
  match c.rest with
  | [] => none
  | '\r' :: '\n' :: rest => some ⟨c.offset + 2, rest⟩
  | _ :: rest => some ⟨c.offset + 1, rest⟩

end Cursor

/-- A line of the source. -/
structure Line where
  start : Cursor
  /-- Before the line break. -/
  stop : Cursor
  /-- Whether all characters before the line break are ASCII. -/
  isAscii : Bool

namespace Line

/-- The line that starts at the place. -/
def startingAt (c : Cursor) : Line where
  start := c
  stop := c.lineStop
  isAscii := (takeBytes (c.lineStop.offset - c.offset) c.rest).all (·.toNat < 128)

/-- The text of the line without its line break. -/
def text (line : Line) : String :=
  line.start.textTo line.stop

/-- The number of characters of the line that start before `offset`. -/
def charsBefore (line : Line) (offset : Nat) : Nat :=
  if line.isAscii || offset ≤ line.start.offset then offset - line.start.offset
  else (takeBytes (offset - line.start.offset) line.start.rest).length

end Line

/-- The lines of one source text, as far as they were scanned. -/
structure LineMap where
  /-- Bytes in the source. -/
  size : Nat
  lines : Array Line := #[]
  /-- Start of the first line that was not scanned. -/
  scanned : Cursor
  /-- Whether the last line was scanned. -/
  done : Bool := false
  /-- Index of the line that was found last. -/
  hint : Nat := 0

namespace LineMap

def ofSource (source : String) : LineMap where
  size := source.utf8ByteSize
  scanned := Cursor.start source

/-- Scans one more line. -/
def scanLine (m : LineMap) : LineMap :=
  let line := Line.startingAt m.scanned
  match line.stop.afterBreak? with
  | some next => { m with lines := m.lines.push line, scanned := next }
  | none => { m with lines := m.lines.push line, scanned := line.stop, done := true }

/-- A bound on the number of lines to scan. -/
def unscanned (m : LineMap) : Nat :=
  if m.done then 0 else m.scanned.rest.length + 1

theorem length_lineStop_le (offset : Nat) (cs : List Char) :
    (PegScript.lineStop offset cs).rest.length ≤ cs.length := by
  induction cs generalizing offset with
  | nil => exact Nat.le_refl _
  | cons a rest ih =>
      rw [PegScript.lineStop]
      split
      · exact Nat.le_refl _
      · exact Nat.le_succ_of_le (ih _)

theorem length_afterBreak?_lt {c next : Cursor} (h : c.afterBreak? = some next) :
    next.rest.length < c.rest.length := by
  unfold Cursor.afterBreak? at h
  split at h
  case h_1 => cases h
  case h_2 rest heq =>
    cases h
    simp only [heq, List.length_cons]
    omega
  case h_3 heq =>
    cases h
    simp [heq]

theorem unscanned_scanLine_lt {m : LineMap} (h : m.done = false) :
    m.scanLine.unscanned < m.unscanned := by
  have hstop : m.scanned.lineStop.rest.length ≤ m.scanned.rest.length := length_lineStop_le _ _
  rw [scanLine, unscanned, unscanned, h]
  split
  case h_1 next hnext =>
    have hless : next.rest.length < m.scanned.lineStop.rest.length := length_afterBreak?_lt hnext
    simp only [Bool.false_eq_true, if_false]
    omega
  case h_2 => simp

/-- Scans lines as long as there are any and `more` asks for one. -/
def scanWhile (more : LineMap → Bool) (m : LineMap) : LineMap :=
  if _h : m.done = false ∧ more m = true then scanWhile more m.scanLine else m
termination_by m.unscanned
decreasing_by exact unscanned_scanLine_lt _h.1

/-- Whether `offset` is in the line at `index`, if no line after those scanned starts before. -/
def contains (m : LineMap) (index offset : Nat) : Bool :=
  match m.lines[index]? with
  | none => false
  | some line =>
    line.start.offset ≤ offset && m.lines[index + 1]?.all fun next => offset < next.start.offset

/-- The index of the line that starts at `offset`, searched from `lo` to before `hi`, or else the
index at which such a line would have to stand. -/
def search (lines : Array Line) (offset lo hi : Nat) (hhi : hi ≤ lines.size) : Except Nat Nat :=
  if h : lo < hi then
    let mid := lo + (hi - lo) / 2
    have hmid : mid < lines.size := by omega
    if lines[mid].start.offset = offset then .ok mid
    else if lines[mid].start.offset < offset then search lines offset (mid + 1) hi hhi
    else search lines offset lo mid (Nat.le_of_lt hmid)
  else .error lo
termination_by hi - lo

/-- The index of the line with `offset` among the lines scanned. -/
def indexOf (m : LineMap) (offset : Nat) : Nat :=
  if m.contains m.hint offset then m.hint
  else if m.contains (m.hint + 1) offset then m.hint + 1
  else
    match search m.lines offset 0 m.lines.size (Nat.le_refl _) with
    | .ok index => index
    | .error index => index - 1

/-- Finds the line with `offset`, which becomes the line that was found last. -/
def find (m : LineMap) (offset : Nat) : LineMap :=
  let m := m.scanWhile fun m => m.scanned.offset ≤ offset
  { m with hint := m.indexOf offset }

/-- The position of a byte offset.  An offset past the end counts as the end. -/
def position (m : LineMap) (offset : Nat) : Option Position × LineMap :=
  let offset := min offset m.size
  let m := m.find offset
  let position (line : Line) : Position :=
    ⟨UInt32.ofNat m.hint + 1, UInt32.ofNat (line.charsBefore offset) + 1⟩
  (m.lines[m.hint]?.map position, m)

/-- The position of a byte offset of a source. -/
def positionIn (source : String) (offset : Nat) : Position :=
  ((ofSource source).position offset).1.getD ⟨1, 1⟩

/-- The text of line `n` without its line break, empty if there is no such line. -/
def lineText (m : LineMap) : Nat → String × LineMap
  | 0 => ("", m)
  | n + 1 =>
    let m := m.scanWhile fun m => m.lines.size ≤ n
    ((m.lines[n]?.map Line.text).getD "", m)

/-- What a line map can be asked. -/
inductive Query where
  | position (offset : Nat)
  | lineText (line : Nat)
deriving DecidableEq, Repr

inductive Answer where
  | position (position : Position)
  | lineText (text : String)
deriving DecidableEq, Repr

/-- The answer to one question, if there is one, and the map for the next question. -/
def ask (m : LineMap) : Query → Option Answer × LineMap
  | .position offset =>
    let (position, m) := m.position offset
    (position.map .position, m)
  | .lineText line =>
    let (text, m) := m.lineText line
    (some (.lineText text), m)

/-- The answers to questions that are asked one after the other. -/
def answers (m : LineMap) : List Query → List (Option Answer)
  | [] => []
  | query :: queries =>
    let (answer, m) := m.ask query
    answer :: m.answers queries

end LineMap

end PegScript

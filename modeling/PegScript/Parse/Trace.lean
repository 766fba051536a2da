import PegScript.Text.LineMap
import PegScript.Text.Span

/-!
# Traces of a parse

A traced parse reports each rule it enters and how the rule ended.  The written trace has one line
for each rule that was entered, in that order and indented by nesting, which tells how it ended.
-/

namespace PegScript

/-- What happened to a rule. -/
inductive EventKind where
  | enter
  | matched
  | failed
deriving DecidableEq, Repr

/-- One report of a traced parse, with rules named by `ρ`. -/
structure Event (ρ : Type) where
  kind : EventKind
  rule : ρ
  /-- The matched stretch, empty where nothing was matched. -/
  span : Span
  /-- Whether the outcome came out of the memo table. -/
  cached : Bool
deriving DecidableEq, Repr

namespace Trace

variable {ρ : Type}

/-- The rows of a trace in the making: a row for each rule entered so far, and the rows whose rules
are still active, innermost first. -/
structure Rows (ρ : Type) where
  rows : Array (Nat × Event ρ) := #[]
  active : List Nat := []

/-- An enter event opens a row, indented by the number of active rules; any other event replaces the
event of the innermost open row. -/
def Rows.add (t : Rows ρ) (e : Event ρ) : Rows ρ :=
  match e.kind with
  | .enter => ⟨t.rows.push (t.active.length, e), t.rows.size :: t.active⟩
  | _ =>
    match t.active with
    | [] => t
    | row :: active => ⟨t.rows.modify row fun r => (r.1, e), active⟩

/-- The rules in the order they were entered, each with its indentation and its last event. -/
def rows (events : Array (Event ρ)) : Array (Nat × Event ρ) :=
  (events.foldl Rows.add {}).rows

/-- How a row tells the outcome of its rule. -/
def status : EventKind → String
  | .enter => " unfinished"
  | .matched => ""
  | .failed => " failed"

/-- One line of a written trace, for a row whose rule was entered at the position. -/
def renderRow (nameOf : ρ → String) (p : Position) (row : Nat × Event ρ) : String :=
  let (indent, e) := row
  String.join (List.replicate indent "  ")
    ++ s!"{nameOf e.rule} {e.span.render} @ {p.line}:{p.column}"
    ++ status e.kind ++ (if e.cached then " (cached)" else "")

/-- The lines of a written trace.  One line map gives all positions. -/
def renderRows (nameOf : ρ → String) : LineMap → List (Nat × Event ρ) → List String
  | _, [] => []
  | map, row :: rows =>
    let (p, map) := map.position row.2.span.start
    renderRow nameOf (p.getD ⟨1, 1⟩) row :: renderRows nameOf map rows

/-- The lines of a trace.  Rules that failed are left out unless `failed` asks for them. -/
def lines (nameOf : ρ → String) (source : String) (failed : Bool) (events : Array (Event ρ)) :
    List String :=
  let shown := (rows events).toList.filter fun row => failed || row.2.kind != .failed
  renderRows nameOf (LineMap.ofSource source) shown

/-- The written trace. -/
def render (nameOf : ρ → String) (source : String) (failed : Bool) (events : Array (Event ρ)) :
    String :=
  String.join ((lines nameOf source failed events).map (· ++ "\n"))

end Trace

end PegScript

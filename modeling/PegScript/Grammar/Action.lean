import PegScript.Grammar.Value
import PegScript.Text.Span

/-!
# Actions on matched terms

An action builds the value of a term from what the term matched: its own value, the values of the
labels inside it, and the matched text.  Reading a value takes it away, so a second read of the same
label finds nothing.  An action may also reject the match.
-/

namespace PegScript

/-- What an action sees of a match. -/
structure ActionInput (ν : Type) where
  /-- Labeled values, the latest first. -/
  labels : List (String × Value ν)
  value : Value ν
  start : Cursor
  stop : Cursor

/-- A computation on what an action sees, which may reject the match.  An action is one that gives a
value. -/
abbrev ActionM (ν : Type) := StateT (ActionInput ν) Option

/-- Takes the value of the first entry with that name, leaving no value in its place. -/
def takeLabel {ν : Type} (name : String) :
    List (String × Value ν) → Value ν × List (String × Value ν)
  | [] => (.empty, [])
  | entry :: rest =>
    if entry.1 = name then (entry.2, (entry.1, .empty) :: rest)
    else
      let (v, rest) := takeLabel name rest
      (v, entry :: rest)

namespace ActionM

variable {ν : Type}

/-- Takes the value of a label.  Of several values under one label the latest counts. -/
def take (name : String) : ActionM ν (Value ν) := fun c =>
  let (v, labels) := takeLabel name c.labels
  some (v, { c with labels })

/-- Takes the value of the whole term. -/
def takeValue : ActionM ν (Value ν) := fun c =>
  some (c.value, { c with value := .empty })

/-- Rejects the match. -/
def reject {α : Type} : ActionM ν α := fun _ => none

/-- Goes on with a result that has to be there. -/
def require {α : Type} : Option α → ActionM ν α
  | some a => pure a
  | none => reject

/-- The stretch of source that the term matched. -/
def span : ActionM ν Span := fun c =>
  some (⟨c.start.offset, c.stop.offset⟩, c)

/-- The source text that the term matched. -/
def matched : ActionM ν String := fun c =>
  some (c.start.textTo c.stop, c)

/-- The node under a label. -/
def node {α : Type} [NodeKind α ν] (name : String) : ActionM ν α := do
  require (← take name).toNode?

/-- The node under a label, or nothing if the label has no value. -/
def node? {α : Type} [NodeKind α ν] (name : String) : ActionM ν (Option α) := do
  let v ← take name
  if v.isPresent then some <$> require v.toNode? else pure none

/-- The nodes of the list under a label. -/
def nodes {α : Type} [NodeKind α ν] (name : String) : ActionM ν (List α) := do
  require (← take name).toNodes?

/-- The text under a label. -/
def text (name : String) : ActionM ν String := do
  require (← take name).toText?

/-- The text under a label, or nothing if the label has no text. -/
def text? (name : String) : ActionM ν (Option String) := do
  return (← take name).toText?

/-- Whether a label has a value. -/
def flag (name : String) : ActionM ν Bool := do
  return (← take name).isPresent

/-- The node that is the value of the whole term. -/
def valueNode {α : Type} [NodeKind α ν] : ActionM ν α := do
  require (← takeValue).toNode?

/-- The text that is the value of the whole term. -/
def valueText : ActionM ν String := do
  require (← takeValue).toText?

/-- A node as the value of the match. -/
def produce {α : Type} [NodeKind α ν] (a : α) : ActionM ν (Value ν) :=
  pure (.node (NodeKind.wrap a))

end ActionM

end PegScript

import PegScript.Text.Escape

/-!
# Helper functions of generated programs

Some constructs of the language have no direct counterpart in JavaScript.  Generated code calls one
of five small functions for them, and a compilation notes which of them it needs.
-/

namespace PegScript

inductive Helper where
  /-- Calls a function and reports what it returned or threw. -/
  | safe
  /-- The same for an asynchronous function. -/
  | safeAsync
  /-- The list of the numbers of a range. -/
  | range
  /-- Reads an item, counting from the end for negative indices. -/
  | get
  /-- Writes an item, counting from the end for negative indices. -/
  | set
deriving DecidableEq, Repr

namespace Helper

/-- All helpers, in the order in which they are listed. -/
def all : List Helper :=
  [safe, safeAsync, range, get, set]

/-- The name that generated code calls. -/
def name : Helper → String
  | safe => "_safe"
  | safeAsync => "_safe_async"
  | range => "_range"
  | get => "_get"
  | set => "_set"

/-- The helper of that name. -/
def ofName? (name : String) : Option Helper :=
  all.find? fun h => h.name == name

end Helper

/-- A set of helpers. -/
structure HelperSet where
  /-- The members, in the order of their insertion. -/
  members : List Helper := []
deriving DecidableEq, Repr

namespace HelperSet

def contains (s : HelperSet) (h : Helper) : Bool :=
  s.members.contains h

/-- Adds a helper, once. -/
def insert (s : HelperSet) (h : Helper) : HelperSet :=
  if s.contains h then s else ⟨s.members ++ [h]⟩

def ofList (helpers : List Helper) : HelperSet :=
  helpers.foldl insert {}

/-- The members in the order in which helpers are listed. -/
def toList (s : HelperSet) : List Helper :=
  Helper.all.filter s.contains

/-- The names of the members. -/
def names (s : HelperSet) : List String :=
  s.toList.map Helper.name

def size (s : HelperSet) : Nat :=
  s.toList.length

def isEmpty (s : HelperSet) : Bool :=
  s.toList.isEmpty

/-- Written as the quoted names between braces. -/
def render (s : HelperSet) : String :=
  "\x7b" ++ ", ".intercalate (s.names.map Escape.dump.quote) ++ "\x7d"

end HelperSet

end PegScript

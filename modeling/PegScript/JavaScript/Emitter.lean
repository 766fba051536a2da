import PegScript.JavaScript.Helper

/-!
# The state of lowering

Lowering walks over a tree and gives JavaScript text.  On its way it notes the helpers it needs and
the variables that the enclosing function has to declare, gives out numbers for fresh names, and
knows the indentation and the name that the current pipeline stage reads under another one.
-/

namespace PegScript

/-- A tree that has no meaning in JavaScript. -/
inductive Defect where
  | emptyPipeline
  /-- A function statement needs a name. -/
  | anonymousDeclaration
  /-- Only declarations can be exported by name. -/
  | invalidExport
  /-- Destructuring needs a plain assignment. -/
  | compoundDestructuring
  /-- Constants and destructuring declarations need an initial value. -/
  | missingInitializer
deriving DecidableEq, Repr

/-- The text of the defect. -/
def Defect.message : Defect → String
  | emptyPipeline => "pipeline without stages"
  | anonymousDeclaration => "function declaration without a name"
  | invalidExport => "export of something other than a declaration"
  | compoundDestructuring => "compound assignment to a destructuring pattern"
  | missingInitializer => "declaration without a required initializer"

namespace JavaScript

/-- A name that is read under another one. -/
structure Rebind where
  name : String
  reference : String
deriving DecidableEq, Repr

structure Emitter where
  helpers : HelperSet := {}
  /-- For each function around the current place, innermost first, the names to declare in it. -/
  scopes : List (List String) := []
  rebind : Option Rebind := none
  /-- The last number given out.  A counter of 32 bits counts the same while fewer than `2 ^ 32`
  numbers are given out. -/
  counter : Nat := 0
  /-- Indentation of the current statement, in steps. -/
  level : Nat := 0
deriving DecidableEq, Repr

/-- A lowering that may find a defect. -/
abbrev Lower := StateT Emitter (Except Defect)

namespace Lower

variable {α : Type}

/-- Notes that a helper is needed, and gives its name. -/
def need (helper : Helper) : Lower String := do
  modify fun e => { e with helpers := e.helpers.insert helper }
  return helper.name

/-- A number that was not given out before. -/
def freshNumber : Lower Nat := do
  modify fun e => { e with counter := e.counter + 1 }
  return (← get).counter

/-- Adds a name at the end of the innermost scope. -/
def addToScope (name : String) : List (List String) → List (List String)
  | [] => []
  | scope :: scopes => (scope ++ [name]) :: scopes

/-- Has the enclosing function declare a variable. -/
def hoist (name : String) : Lower Unit :=
  modify fun e => { e with scopes := addToScope name e.scopes }

/-- The name under which a variable is read at the current place. -/
def readAs (name : String) : Lower String := do
  match (← get).rebind with
  | some rebind => return if rebind.name = name then rebind.reference else name
  | none => return name

/-- Lowers one step further to the right. -/
def indented (inner : Lower α) : Lower α := do
  modify fun e => { e with level := e.level + 1 }
  let a ← inner
  modify fun e => { e with level := e.level - 1 }
  return a

/-- Lowers the inside of a function, and gives the names to declare in it. -/
def inScope (inner : Lower α) : Lower (α × List String) := do
  modify fun e => { e with scopes := [] :: e.scopes }
  let a ← inner
  let names := (← get).scopes.headD []
  modify fun e => { e with scopes := e.scopes.tail }
  return (a, names)

/-- Lowers with a name read under another one, which replaces an outer replacement. -/
def rebinding (name reference : String) (inner : Lower α) : Lower α := do
  let outer := (← get).rebind
  modify fun e => { e with rebind := some ⟨name, reference⟩ }
  let a ← inner
  modify fun e => { e with rebind := outer }
  return a

/-- The blanks before the current statement. -/
def indentation : Lower String := do
  return String.ofList (List.replicate (2 * (← get).level) ' ')

/-- A statement on lines of its own. -/
def line (text : String) : Lower String := do
  return (← indentation) ++ text ++ "\n"

/-- The declaration of a variable without a value. -/
def declaration (name : String) : String :=
  s!"let {name};"

/-- Declarations, one to a line. -/
def declarations (names : List String) : Lower String := do
  return String.join (← names.mapM fun name => line (declaration name))

/-- Lines one step further to the right, between braces. -/
def braces (lines : Lower String) : Lower String := do
  let text ← indented lines
  return " \x7b\n" ++ text ++ (← indentation) ++ "\x7d"

/-- The body of a function: its lines after the declarations they need. -/
def functionBody (lines : Lower String) : Lower String := do
  let (text, names) ← inScope (indented lines)
  if text.isEmpty && names.isEmpty then return " \x7b\x7d"
  braces do return (← declarations names) ++ text

end Lower

end JavaScript

end PegScript

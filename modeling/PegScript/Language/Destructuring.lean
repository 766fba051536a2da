import PegScript.Language.Lexical

/-!
# Patterns and parameters

The rules for destructuring patterns and for the parameters of functions.  A rest element or a rest
parameter has to come last; the grammar accepts it anywhere and the actions reject the others.
-/

namespace PegScript

namespace Language

namespace Destructuring

def buildIdentPattern : Build := do
  ActionM.produce (Pattern.ident (← ActionM.valueText))

def pattern : Body :=
  .choice [
    .rule .objectPattern,
    .rule .arrayPattern,
    .action buildIdentPattern (.rule .identifier)]

/-- Whether the element is a rest element. -/
def isRest : PatternElement → Bool
  | .rest _ => true
  | _ => false

/-- The elements before the rest element, and its pattern.  A rest element before the last element
is refused. -/
def splitRest? (elements : List PatternElement) :
    Option (List PatternElement × Option Pattern) :=
  let (front, last) : List PatternElement × Option Pattern :=
    match elements.getLast? with
    | some (.rest pattern) => (elements.dropLast, some pattern)
    | _ => (elements, none)
  if front.any isRest then none else some (front, last)

/-- The property of an element that is one. -/
def toProp? : PatternElement → Option PatternProp
  | .prop prop => some prop
  | _ => none

/-- The array item of an element that is one. -/
def toItem? : PatternElement → Option ArrayItem
  | .item item => some item
  | _ => none

/-- An object pattern has properties only, and its rest is a name. -/
def objectPattern? (elements : List PatternElement) : Option Pattern := do
  let (front, last) ← splitRest? elements
  let props ← front.mapM toProp?
  match last with
  | some (.ident name) => some (.object props (some name))
  | some _ => none
  | none => some (.object props none)

/-- An array pattern has items only. -/
def arrayPattern? (elements : List PatternElement) : Option Pattern := do
  let (front, last) ← splitRest? elements
  let items ← front.mapM toItem?
  some (.array items last)

def buildObjectPattern : Build := do
  let elements ← ActionM.nodes "elements"
  ActionM.produce (← ActionM.require (objectPattern? elements))

def objectPattern : Body :=
  .action buildObjectPattern (.label "elements" (listOf .objectPatternElement "\x7b" "\x7d"))

def buildRestName : Build := do
  ActionM.produce (PatternElement.rest (.ident (← ActionM.text "name")))

/-- A property without a pattern binds its key, which then cannot be a keyword. -/
def buildPatternProp : Build := do
  let key ← ActionM.text "key"
  let value : Option Pattern ← ActionM.node? "value"
  let default ← ActionM.node? "default"
  if value.isNone && isKeyword key then ActionM.reject
  else ActionM.produce (PatternElement.prop { key, value, default })

def objectPatternElement : Body :=
  .choice [
    .action buildRestName <| .seq [
      .lit "...", .rule .blank, .label "name" (.rule .identifier)],
    .action buildPatternProp <| .seq [
      .label "key" (.rule .identifierName),
      .label "value" <| .opt <| .pick 3 <| .seq [
        .rule .blank, .lit ":", .rule .layout, .rule .pattern],
      .label "default" (.opt (.rule .defaultValue))]]

def buildArrayPattern : Build := do
  let elements ← ActionM.nodes "elements"
  ActionM.produce (← ActionM.require (arrayPattern? elements))

def arrayPattern : Body :=
  .action buildArrayPattern (.label "elements" (listOf .arrayPatternElement "[" "]"))

def buildRestPattern : Build := do
  ActionM.produce (PatternElement.rest (← ActionM.node "pattern"))

def buildArrayItem : Build := do
  let pattern ← ActionM.node "pattern"
  let default ← ActionM.node? "default"
  ActionM.produce (PatternElement.item { pattern, default })

/-- Three dots and a pattern. -/
def restPattern : Body :=
  .seq [.lit "...", .rule .blank, .label "pattern" (.rule .pattern)]

/-- A pattern with an optional default. -/
def patternWithDefault : Body :=
  .seq [.label "pattern" (.rule .pattern), .label "default" (.opt (.rule .defaultValue))]

def arrayPatternElement : Body :=
  .choice [.action buildRestPattern restPattern, .action buildArrayItem patternWithDefault]

def defaultValue : Body :=
  .pick 4 <| .seq [
    .rule .blank, .lit "=", .not (.lit "="), .rule .layout, .rule .expression]

/-- Whether no parameter but the last is a rest parameter. -/
def restIsLast (params : List Param) : Bool :=
  params.dropLast.all fun p => !p.rest

def buildParamList : Build := do
  let params : List Param ← ActionM.require (← ActionM.takeValue).toNodes?
  if restIsLast params then return .list (params.map fun p => .node (.param p))
  else ActionM.reject

def paramList : Body :=
  .action buildParamList (listOf .param "(" ")")

def buildRestParam : Build := do
  ActionM.produce ({ pattern := ← ActionM.node "pattern", default := none, rest := true } : Param)

def buildParam : Build := do
  let pattern ← ActionM.node "pattern"
  let default ← ActionM.node? "default"
  ActionM.produce ({ pattern, default, rest := false } : Param)

def param : Body :=
  .choice [.action buildRestParam restPattern, .action buildParam patternWithDefault]

end Destructuring

end Language

end PegScript

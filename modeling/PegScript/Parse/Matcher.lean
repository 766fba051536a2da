import PegScript.Parse.Session

/-!
# Matching, one operator at a time

A matcher tries to match at a place of the source and says where the match stops.  Each operator of
the grammar notation is a matcher of its own or turns matchers into a matcher.  A failed matcher
leaves the labels as they were, and no matcher moves backwards.

An operator that has to put something of the session back first reads it and then hands it to a
function that finishes the outcome, so that no older session is kept while a match runs.
-/

namespace PegScript

/-- What a matcher gives: a match or none, and the session after it. -/
abbrev Outcome (ρ ν : Type) [BEq ρ] [Hashable ρ] :=
  Option (Match ν) × Session ρ ν

/-- Tries to match at a place, in a session. -/
abbrev Matcher (ρ ν : Type) [BEq ρ] [Hashable ρ] :=
  Cursor → Session ρ ν → Outcome ρ ν

namespace Matcher

variable {ρ ν : Type} [BEq ρ] [Hashable ρ]

/-- A fixed text. -/
def literal (text : String) (ignoreCase : Bool) : Matcher ρ ν := fun c s =>
  match c.skipLiteral? text ignoreCase with
  | some stop => (some ⟨stop, .text (c.textTo stop)⟩, s)
  | none => (none, s.fail c.offset (.literal text ignoreCase))

/-- One character of a class. -/
def charIn (k : CharClass) : Matcher ρ ν := fun c s =>
  match c.next? with
  | some (a, stop) =>
    if k.contains a then (some ⟨stop, .text (String.singleton a)⟩, s)
    else (none, s.fail c.offset (.charIn k.description))
  | none => (none, s.fail c.offset (.charIn k.description))

/-- Any one character. -/
def anyChar : Matcher ρ ν := fun c s =>
  match c.next? with
  | some (a, stop) => (some ⟨stop, .text (String.singleton a)⟩, s)
  | none => (none, s.fail c.offset .anyChar)

/-- Puts the labels of an outcome back. -/
@[noinline]
def restoreLabels (labels : List (String × Value ν)) : Outcome ρ ν → Outcome ρ ν
  | (result, s) => (result, { s with labels })

/-- Keeps the labels bound in a match to itself. -/
def dropLabels (p : Matcher ρ ν) : Matcher ρ ν := fun c s =>
  restoreLabels s.labels (p c s)

/-- Ends a silent stretch. -/
def endSilence : Outcome ρ ν → Outcome ρ ν
  | (result, s) => (result, { s with silent := s.silent - 1 })

/-- Records no failure. -/
def silently (p : Matcher ρ ν) : Matcher ρ ν := fun c s =>
  endSilence (p c { s with silent := s.silent + 1 })

/-- Puts the start of the named rule around back, and reports a failed match under its name. -/
@[noinline]
def endNamed (expect : String) (offset : Nat) (namedStart : Option Nat) :
    Outcome ρ ν → Outcome ρ ν
  | (some m, s) => (some m, { s with namedStart })
  | (none, s) => (none, { s with namedStart }.fail offset (.named expect))

/-- Reports one expectation in place of all failures at the start of the match. -/
def expecting (expect : String) (p : Matcher ρ ν) : Matcher ρ ν := fun c s =>
  endNamed expect c.offset s.namedStart (p c { s with namedStart := some c.offset })

/-- Matches over and over, up to `bound` times, until there is no match or one that takes no
input.  Gives the values of the matches after those in `done`, which are in reverse order. -/
def repeatFrom (p : Matcher ρ ν) :
    Nat → List (Value ν) → Cursor → Session ρ ν → (List (Value ν) × Cursor) × Session ρ ν
  | 0, done, c, s => ((done.reverse, c), s)
  | bound + 1, done, c, s =>
    match p c s with
    | (none, s') => ((done.reverse, c), s')
    | (some m, s') =>
      if m.stop.offset = c.offset then (((m.value :: done).reverse, c), s')
      else repeatFrom p bound (m.value :: done) m.stop s'

/-- As many matches as possible in a source of `size` bytes.  Every match but the last takes input,
so the bytes left bound their number. -/
def star (size : Nat) (p : Matcher ρ ν) : Matcher ρ ν := fun c s =>
  match repeatFrom p (size - c.offset + 1) [] c s with
  | ((values, stop), s') => (some ⟨stop, .list values⟩, s')

/-- As many matches as possible, at least one. -/
def plus (size : Nat) (p : Matcher ρ ν) : Matcher ρ ν := fun c s =>
  match repeatFrom p (size - c.offset + 1) [] c s with
  | (([], _), s') => (none, s')
  | ((values, stop), s') => (some ⟨stop, .list values⟩, s')

/-- A match if there is one. -/
def opt (p : Matcher ρ ν) : Matcher ρ ν := fun c s =>
  match p c s with
  | (some m, s') => (some m, s')
  | (none, s') => (some ⟨c, .absent⟩, s')

/-- Tells whether there is a match, without taking input, binding labels or recording failures. -/
def lookahead (positive : Bool) (p : Matcher ρ ν) : Matcher ρ ν := fun c s =>
  match dropLabels (silently p) c s with
  | (result, s') => (if result.isSome = positive then some ⟨c, .empty⟩ else none, s')

/-- Binds the value of the match to a label. -/
def label (name : String) (p : Matcher ρ ν) : Matcher ρ ν := fun c s =>
  match p c s with
  | (some m, s') => (some ⟨m.stop, .empty⟩, { s' with labels := (name, m.value) :: s'.labels })
  | (none, s') => (none, s')

/-- Hands a match from `start` and the labels bound in it to an action, and puts the labels around
back. -/
@[noinline]
def applyAction (act : ActionM ν (Value ν)) (start : Cursor) (labels : List (String × Value ν)) :
    Outcome ρ ν → Outcome ρ ν
  | (some m, s) =>
    ((act ⟨s.labels, m.value, start, m.stop⟩).map fun built => ⟨m.stop, built.1⟩,
      { s with labels })
  | (none, s) => (none, { s with labels })

/-- Lets an action build the value out of the match and of the labels bound in it. -/
def action (act : ActionM ν (Value ν)) (p : Matcher ρ ν) : Matcher ρ ν := fun c s =>
  applyAction act c s.labels (p c { s with labels := [] })

/-- The matched text as value. -/
def text (p : Matcher ρ ν) : Matcher ρ ν := fun c s =>
  match p c s with
  | (some m, s') => (some ⟨m.stop, .text (c.textTo m.stop)⟩, s')
  | (none, s') => (none, s')

/-- One item of the list as value. -/
def pick (index : Nat) (p : Matcher ρ ν) : Matcher ρ ν := fun c s =>
  match p c s with
  | (some m, s') => (some ⟨m.stop, m.value.pick index⟩, s')
  | (none, s') => (none, s')

/-- The values of a sequence as one list; a sequence that failed half-way loses its labels. -/
@[noinline]
def endSeq (labels : List (String × Value ν)) :
    Option (Cursor × List (Value ν)) × Session ρ ν → Outcome ρ ν
  | (some (stop, values), s) => (some ⟨stop, .list values⟩, s)
  | (none, s) => (none, { s with labels })

end Matcher

namespace Term

variable {ρ ν : Type} [BEq ρ] [Hashable ρ]

mutual

/-- Matches a term in a source of `size` bytes, with `call` to match rules. -/
def run (size : Nat) (call : ρ → Matcher ρ ν) : Term ρ ν → Matcher ρ ν
  | .literal s ignoreCase => Matcher.literal s ignoreCase
  | .charIn k => Matcher.charIn k
  | .anyChar => Matcher.anyChar
  | .rule r => call r
  | .seq terms => fun c s => Matcher.endSeq s.labels (runSeq size call terms c s)
  | .choice terms => runChoice size call terms
  | .star term => Matcher.star size (run size call term)
  | .plus term => Matcher.plus size (run size call term)
  | .opt term => Matcher.opt (run size call term)
  | .not term => Matcher.lookahead false (run size call term)
  | .and term => Matcher.lookahead true (run size call term)
  | .label name term => Matcher.label name (run size call term)
  | .action act term => Matcher.action act (run size call term)
  | .text term => Matcher.text (run size call term)
  | .pick index term => Matcher.pick index (run size call term)

/-- Matches all terms, one after the other. -/
def runSeq (size : Nat) (call : ρ → Matcher ρ ν) :
    List (Term ρ ν) → Cursor → Session ρ ν → Option (Cursor × List (Value ν)) × Session ρ ν
  | [], c, s => (some (c, []), s)
  | term :: terms, c, s =>
    match run size call term c s with
    | (none, s') => (none, s')
    | (some m, s') =>
      match runSeq size call terms m.stop s' with
      | (none, s'') => (none, s'')
      | (some (stop, values), s'') => (some (stop, m.value :: values), s'')

/-- Matches the first term that does. -/
def runChoice (size : Nat) (call : ρ → Matcher ρ ν) : List (Term ρ ν) → Matcher ρ ν
  | [], _, s => (none, s)
  | term :: terms, c, s =>
    match run size call term c s with
    | (some m, s') => (some m, s')
    | (none, s') => runChoice size call terms c s'

end

end Term

end PegScript

import PegScript.Failure.Furthest
import PegScript.Grammar.Basic
import PegScript.Parse.Trace
import Std.Data.HashMap

/-!
# The state of a running parse

A session belongs to one parse of one source text.  It holds the memo table, the labels bound for
the action around the current term, the failures recorded so far, and what decides whether a failure
is recorded at all.
-/

namespace PegScript

/-- How a parse is run. -/
structure Settings where
  /-- Whether the outcome of a rule at an offset is kept and used again. -/
  memoize : Bool := true
  /-- How many rules may be active at once. -/
  maxDepth : Nat := 512
  /-- Whether events are reported. -/
  traced : Bool := false
deriving DecidableEq, Repr

/-- A successful match: where it stops, and its value. -/
structure Match (ν : Type) where
  stop : Cursor
  value : Value ν

/-- The state of a parse with rules named by `ρ` and nodes of type `ν`. -/
structure Session (ρ ν : Type) [BEq ρ] [Hashable ρ] where
  /-- Outcomes of rules by rule and offset. -/
  memo : Std.HashMap (ρ × Nat) (Option (Match ν)) := ∅
  /-- Labels bound for the enclosing action, the latest first. -/
  labels : List (String × Value ν) := []
  failures : FurthestFailure := {}
  /-- The number of lookaheads and silent rules around the current term. -/
  silent : Nat := 0
  /-- Where the innermost rule with an expectation of its own started. -/
  namedStart : Option Nat := none
  /-- Where too many rules were active; no rule matches any more. -/
  overflow : Option Nat := none
  /-- How often the memo table had an outcome.  Like `misses` it is only reported; counters of 32
  bits report the same while they stay below `2 ^ 32`. -/
  hits : Nat := 0
  /-- How often it had none. -/
  misses : Nat := 0
  events : Array (Event ρ) := #[]

namespace Session

variable {ρ ν : Type} [BEq ρ] [Hashable ρ]

/-- Records a failure, unless the place is silent or a rule that starts there reports its own
expectation. -/
def fail (s : Session ρ ν) (offset : Nat) (e : Expectation) : Session ρ ν :=
  if s.silent = 0 ∧ s.namedStart ≠ some offset then
    { s with failures := s.failures.add offset e }
  else s

/-- Reports an event in a traced parse. -/
def report (s : Session ρ ν) (traced : Bool) (e : Event ρ) : Session ρ ν :=
  if traced then { s with events := s.events.push e } else s

/-- Reports that a rule is entered. -/
def reportEnter (s : Session ρ ν) (traced : Bool) (r : ρ) (start : Cursor) : Session ρ ν :=
  s.report traced ⟨.enter, r, .point start.offset, false⟩

/-- Reports how a rule ended. -/
def reportResult (s : Session ρ ν) (traced : Bool) (r : ρ) (start : Cursor)
    (result : Option (Match ν)) (cached : Bool) : Session ρ ν :=
  match result with
  | some m => s.report traced ⟨.matched, r, ⟨start.offset, m.stop.offset⟩, cached⟩
  | none => s.report traced ⟨.failed, r, .point start.offset, cached⟩

/-- The kept outcome of a rule. -/
def memoized? (s : Session ρ ν) (memoize : Bool) (r : ρ) (offset : Nat) :
    Option (Option (Match ν)) :=
  if memoize then s.memo[(r, offset)]? else none

/-- Keeps the outcome of a rule.  Once too many rules were active, outcomes mean nothing. -/
def remember (s : Session ρ ν) (memoize : Bool) (r : ρ) (offset : Nat)
    (result : Option (Match ν)) : Session ρ ν :=
  if memoize && s.overflow.isNone then { s with memo := s.memo.insert (r, offset) result } else s

/-- Counts an outcome found in the memo table. -/
def countHit (s : Session ρ ν) : Session ρ ν :=
  { s with hits := s.hits + 1 }

/-- Counts an outcome that the memo table did not have. -/
def countMiss (s : Session ρ ν) (memoize : Bool) : Session ρ ν :=
  if memoize then { s with misses := s.misses + 1 } else s

end Session

end PegScript

import PegScript.Failure.Diagnosis
import PegScript.Log
import PegScript.Parse.Matcher

/-!
# Parsing with a grammar

A rule is matched by its body, within an allowance for further rules to become active; an allowance
that is used up ends the whole parse.  The outcome of a rule at an offset goes to the memo table.
A parse succeeds if the rule it starts from matches all of the source.
-/

namespace PegScript

namespace Grammar

variable {ρ ν : Type} [BEq ρ] [Hashable ρ]

/-- Matches the body of a rule.  A silent rule records no failures, a rule with an expectation of
its own reports that one at its start, and labels do not leave a rule. -/
def runBody (size : Nat) (call : ρ → Matcher ρ ν) (rule : Rule ρ ν) : Matcher ρ ν :=
  let body := Matcher.dropLabels (rule.body.run size call)
  let body := if rule.silent then Matcher.silently body else body
  match rule.expect with
  | some expect => Matcher.expecting expect body
  | none => body

/-- Matches a rule where at most `allowance` more rules may become active, this one included. -/
def runRule (g : Grammar ρ ν) (settings : Settings) (size : Nat) : Nat → ρ → Matcher ρ ν
  | 0, _, c, s =>
    match s.overflow with
    | some _ => (none, s)
    | none => (none, { s with overflow := some c.offset })
  | allowance + 1, r, c, s =>
    match s.overflow with
    | some _ => (none, s)
    | none =>
      let s := s.reportEnter settings.traced r c
      match s.memoized? settings.memoize r c.offset with
      | some result => (result, s.countHit.reportResult settings.traced r c result true)
      | none =>
        let s := s.countMiss settings.memoize
        match runBody size (runRule g settings size allowance) (g.rule r) c s with
        | (result, s') =>
          (result, (s'.remember settings.memoize r c.offset result).reportResult
            settings.traced r c result false)

/-- The outcome of a parse together with the session it ended in. -/
structure Run (ρ ν : Type) [BEq ρ] [Hashable ρ] where
  outcome : Except Diagnosis (Value ν)
  session : Session ρ ν

/-- What the end of a session says about the source.  A parse in which too many rules were active
fails for that reason only. -/
def conclude (source : String) (result : Option (Match ν)) (s : Session ρ ν) :
    Except Diagnosis (Value ν) :=
  match s.overflow with
  | some offset => .error ((({} : FurthestFailure).add offset .lessNesting).diagnose source)
  | none =>
    match result with
    | none => .error (s.failures.diagnose source)
    | some m =>
      if m.stop.offset = source.utf8ByteSize then .ok m.value
      else .error ((s.failures.add m.stop.offset .endOfInput).diagnose source)

/-- Parses all of the source, starting from a rule. -/
def parseFrom (g : Grammar ρ ν) (settings : Settings) (start : ρ) (source : String) : Run ρ ν :=
  let (result, s) :=
    g.runRule settings source.utf8ByteSize settings.maxDepth start (Cursor.start source) {}
  ⟨conclude source result s, s⟩

/-- Parses all of the source, starting from the root. -/
def parse (g : Grammar ρ ν) (settings : Settings) (source : String) : Run ρ ν :=
  g.parseFrom settings g.root source

/-- The log records of a parse. -/
def Run.log (run : Run ρ ν) (settings : Settings) (source : String) : List LogRecord :=
  let s := run.session
  ⟨.trace, s!"Parsed {source.utf8ByteSize} bytes, memo hits {s.hits} misses {s.misses} "
      ++ s!"entries {s.memo.size}"⟩ ::
    match s.overflow with
    | some offset =>
      [⟨.debug, s!"Nesting limit of {settings.maxDepth} rules reached at byte {offset}"⟩]
    | none => []

end Grammar

end PegScript

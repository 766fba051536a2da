import PegScript.Parse.Engine
import PegScript.Proofs.Semantics.Derivation

/-!
# What one run of a term does

`Runs` says case by case how a term takes a session from one state to the next: which terms it runs
in turn, in which sessions, and how it finishes.  Nothing is left out, so it also covers runs in
which too many rules become active.  Whatever holds of every run is proved by one induction over it.

A run that starts at a place of the source in a session that knows only places of the source stays
among these places (`Runs.placed`).  At such a place the engine follows `Runs`
(`Grammar.runs_evaluate`), and a run has only one end (`Runs.functional`).
-/

namespace PegScript

variable {ρ ν : Type} [BEq ρ] [Hashable ρ]

/-! ## What bookkeeping leaves alone -/

namespace Session

variable (s : Session ρ ν)

@[simp] theorem fail_memo (offset : Nat) (e : Expectation) :
    (s.fail offset e).memo = s.memo := by
  unfold fail
  split <;> rfl

@[simp] theorem fail_labels (offset : Nat) (e : Expectation) :
    (s.fail offset e).labels = s.labels := by
  unfold fail
  split <;> rfl

@[simp] theorem fail_overflow (offset : Nat) (e : Expectation) :
    (s.fail offset e).overflow = s.overflow := by
  unfold fail
  split <;> rfl

@[simp] theorem report_memo (traced : Bool) (e : Event ρ) :
    (s.report traced e).memo = s.memo := by
  unfold report
  split <;> rfl

@[simp] theorem report_labels (traced : Bool) (e : Event ρ) :
    (s.report traced e).labels = s.labels := by
  unfold report
  split <;> rfl

@[simp] theorem report_overflow (traced : Bool) (e : Event ρ) :
    (s.report traced e).overflow = s.overflow := by
  unfold report
  split <;> rfl

@[simp] theorem reportEnter_memo (traced : Bool) (r : ρ) (start : Cursor) :
    (s.reportEnter traced r start).memo = s.memo :=
  s.report_memo traced _

@[simp] theorem reportEnter_labels (traced : Bool) (r : ρ) (start : Cursor) :
    (s.reportEnter traced r start).labels = s.labels :=
  s.report_labels traced _

@[simp] theorem reportEnter_overflow (traced : Bool) (r : ρ) (start : Cursor) :
    (s.reportEnter traced r start).overflow = s.overflow :=
  s.report_overflow traced _

@[simp] theorem reportResult_memo (traced : Bool) (r : ρ) (start : Cursor)
    (result : Option (Match ν)) (cached : Bool) :
    (s.reportResult traced r start result cached).memo = s.memo := by
  cases result <;> exact s.report_memo traced _

@[simp] theorem reportResult_labels (traced : Bool) (r : ρ) (start : Cursor)
    (result : Option (Match ν)) (cached : Bool) :
    (s.reportResult traced r start result cached).labels = s.labels := by
  cases result <;> exact s.report_labels traced _

@[simp] theorem reportResult_overflow (traced : Bool) (r : ρ) (start : Cursor)
    (result : Option (Match ν)) (cached : Bool) :
    (s.reportResult traced r start result cached).overflow = s.overflow := by
  cases result <;> exact s.report_overflow traced _

@[simp] theorem countMiss_memo (memoize : Bool) :
    (s.countMiss memoize).memo = s.memo := by
  unfold countMiss
  split <;> rfl

@[simp] theorem countMiss_labels (memoize : Bool) :
    (s.countMiss memoize).labels = s.labels := by
  unfold countMiss
  split <;> rfl

@[simp] theorem countMiss_overflow (memoize : Bool) :
    (s.countMiss memoize).overflow = s.overflow := by
  unfold countMiss
  split <;> rfl

@[simp] theorem countHit_memo : s.countHit.memo = s.memo := rfl

@[simp] theorem countHit_labels : s.countHit.labels = s.labels := rfl

@[simp] theorem remember_labels (memoize : Bool) (r : ρ) (offset : Nat)
    (result : Option (Match ν)) :
    (s.remember memoize r offset result).labels = s.labels := by
  unfold remember
  split <;> rfl

@[simp] theorem remember_overflow (memoize : Bool) (r : ρ) (offset : Nat)
    (result : Option (Match ν)) :
    (s.remember memoize r offset result).overflow = s.overflow := by
  unfold remember
  split <;> rfl

end Session

/-! ## Entering and leaving a rule -/

namespace Session

/-- The session in which the body of a rule is run. -/
def openRule (s : Session ρ ν) (rule : Rule ρ ν) (c : Cursor) : Session ρ ν :=
  { s with
    namedStart := if rule.expect.isSome then some c.offset else s.namedStart
    silent := if rule.silent then s.silent + 1 else s.silent }

/-- Ends the body of a rule: what the session had around the rule is put back, and a failed rule
reports its own expectation. -/
def closeRule (outer : Session ρ ν) (rule : Rule ρ ν) (c : Cursor) (result : Option (Match ν))
    (s : Session ρ ν) : Session ρ ν :=
  let s : Session ρ ν := { s with
    labels := outer.labels
    namedStart := if rule.expect.isSome then outer.namedStart else s.namedStart
    silent := if rule.silent then s.silent - 1 else s.silent }
  match rule.expect, result with
  | some expect, none => s.fail c.offset (.named expect)
  | _, _ => s

/-- The session in which a rule that has no outcome yet is run. -/
def enterRule (s : Session ρ ν) (settings : Settings) (g : Grammar ρ ν) (r : ρ) (c : Cursor) :
    Session ρ ν :=
  ((s.reportEnter settings.traced r c).countMiss settings.memoize).openRule (g.rule r) c

/-- The session after a rule whose body ended in the session `s`. -/
def leaveRule (outer : Session ρ ν) (settings : Settings) (g : Grammar ρ ν) (r : ρ) (c : Cursor)
    (result : Option (Match ν)) (s : Session ρ ν) : Session ρ ν :=
  ((outer.closeRule (g.rule r) c result s).remember settings.memoize r c.offset
    result).reportResult settings.traced r c result false

end Session

/-- Only the labels and the named rule around are put back. -/
theorem Session.closeRule_congr (outer outer' : Session ρ ν)
    (hlabels : outer.labels = outer'.labels) (hnamed : outer.namedStart = outer'.namedStart)
    (rule : Rule ρ ν) (c : Cursor) (result : Option (Match ν)) (s : Session ρ ν) :
    outer.closeRule rule c result s = outer'.closeRule rule c result s := by
  unfold closeRule
  rw [hlabels, hnamed]

@[simp] theorem Session.reportEnter_namedStart (s : Session ρ ν) (traced : Bool) (r : ρ)
    (c : Cursor) : (s.reportEnter traced r c).namedStart = s.namedStart := by
  unfold reportEnter report
  split <;> rfl

@[simp] theorem Session.countMiss_namedStart (s : Session ρ ν) (memoize : Bool) :
    (s.countMiss memoize).namedStart = s.namedStart := by
  unfold countMiss
  split <;> rfl

@[simp] theorem Session.enterRule_memo (s : Session ρ ν) (settings : Settings) (g : Grammar ρ ν)
    (r : ρ) (c : Cursor) : (s.enterRule settings g r c).memo = s.memo := by
  simp [enterRule, openRule]

@[simp] theorem Session.enterRule_overflow (s : Session ρ ν) (settings : Settings)
    (g : Grammar ρ ν) (r : ρ) (c : Cursor) :
    (s.enterRule settings g r c).overflow = s.overflow := by
  simp [enterRule, openRule]

@[simp] theorem Session.closeRule_memo (outer : Session ρ ν) (rule : Rule ρ ν) (c : Cursor)
    (result : Option (Match ν)) (s : Session ρ ν) :
    (outer.closeRule rule c result s).memo = s.memo := by
  obtain ⟨name, expect, silent, body⟩ := rule
  cases expect <;> cases result <;> simp [closeRule]

@[simp] theorem Session.closeRule_overflow (outer : Session ρ ν) (rule : Rule ρ ν) (c : Cursor)
    (result : Option (Match ν)) (s : Session ρ ν) :
    (outer.closeRule rule c result s).overflow = s.overflow := by
  obtain ⟨name, expect, silent, body⟩ := rule
  cases expect <;> cases result <;> simp [closeRule]

@[simp] theorem Session.leaveRule_overflow (outer : Session ρ ν) (settings : Settings)
    (g : Grammar ρ ν) (r : ρ) (c : Cursor) (result : Option (Match ν)) (s : Session ρ ν) :
    (outer.leaveRule settings g r c result s).overflow = s.overflow := by
  simp [leaveRule]

@[simp] theorem Session.leaveRule_labels (outer : Session ρ ν) (settings : Settings)
    (g : Grammar ρ ν) (r : ρ) (c : Cursor) (result : Option (Match ν)) (s : Session ρ ν) :
    (outer.leaveRule settings g r c result s).labels = outer.labels := by
  have hclosed : (outer.closeRule (g.rule r) c result s).labels = outer.labels := by
    obtain ⟨name, expect, silent, body⟩ := g.rule r
    cases expect <;> cases result <;> simp [closeRule]
  simp [leaveRule, hclosed]

/-- Running the body of a rule is running its term between the two adjustments. -/
theorem Grammar.runBody_eq (size : Nat) (call : ρ → Matcher ρ ν) (rule : Rule ρ ν) (c : Cursor)
    (s : Session ρ ν) :
    runBody size call rule c s =
      ((rule.body.run size call c (s.openRule rule c)).1,
        s.closeRule rule c (rule.body.run size call c (s.openRule rule c)).1
          (rule.body.run size call c (s.openRule rule c)).2) := by
  obtain ⟨name, expect, silent, body⟩ := rule
  cases expect with
  | none => cases silent <;> rfl
  | some expect =>
      have hfinish : ∀ (out : Outcome ρ ν),
          Matcher.endNamed expect c.offset s.namedStart out =
            (out.1, if out.1.isNone then
              { out.2 with namedStart := s.namedStart }.fail c.offset (.named expect)
            else { out.2 with namedStart := s.namedStart }) := by
        rintro ⟨result, s'⟩
        cases result <;> rfl
      cases silent <;>
        simp only [runBody, Matcher.expecting, hfinish, if_true, Bool.false_eq_true, if_false,
          Matcher.silently, Matcher.endSilence, Matcher.dropLabels, Matcher.restoreLabels,
          Session.openRule, Session.closeRule, Option.isSome_some] <;>
        cases (body.run size call c _).1 <;> rfl

/-! ## Runs -/

/-- `Runs g settings n t c s result s'`: where at most `n` more rules may become active, the term
`t` at the place `c` ends with `result` and takes the session from `s` to `s'`. -/
inductive Runs (g : Grammar ρ ν) (settings : Settings) :
    Nat → Term ρ ν → Cursor → Session ρ ν → Option (Match ν) → Session ρ ν → Prop where
  | literal {n : Nat} {text : String} {ignoreCase : Bool} {c stop : Cursor} {s : Session ρ ν}
      (h : c.skipLiteral? text ignoreCase = some stop) :
      Runs g settings n (.literal text ignoreCase) c s
        (some ⟨stop, .text (c.textTo stop)⟩) s
  | literalFail {n : Nat} {text : String} {ignoreCase : Bool} {c : Cursor} {s : Session ρ ν}
      (h : c.skipLiteral? text ignoreCase = none) :
      Runs g settings n (.literal text ignoreCase) c s none
        (s.fail c.offset (.literal text ignoreCase))
  | charIn {n : Nat} {k : CharClass} {c stop : Cursor} {a : Char} {s : Session ρ ν}
      (hnext : c.next? = some (a, stop)) (hmem : k.contains a = true) :
      Runs g settings n (.charIn k) c s (some ⟨stop, .text (String.singleton a)⟩) s
  | charInFail {n : Nat} {k : CharClass} {c : Cursor} {s : Session ρ ν}
      (h : ∀ a stop, c.next? = some (a, stop) → k.contains a = false) :
      Runs g settings n (.charIn k) c s none (s.fail c.offset (.charIn k.description))
  | anyChar {n : Nat} {c stop : Cursor} {a : Char} {s : Session ρ ν}
      (hnext : c.next? = some (a, stop)) :
      Runs g settings n .anyChar c s (some ⟨stop, .text (String.singleton a)⟩) s
  | anyCharFail {n : Nat} {c : Cursor} {s : Session ρ ν} (hnext : c.next? = none) :
      Runs g settings n .anyChar c s none (s.fail c.offset .anyChar)
  /-- Once too many rules were active no rule matches. -/
  | ruleRefused {n : Nat} {r : ρ} {c : Cursor} {s : Session ρ ν} {offset : Nat}
      (hover : s.overflow = some offset) :
      Runs g settings n (.rule r) c s none s
  | ruleLimit {r : ρ} {c : Cursor} {s : Session ρ ν} (hover : s.overflow = none) :
      Runs g settings 0 (.rule r) c s none { s with overflow := some c.offset }
  | ruleKept {n : Nat} {r : ρ} {c : Cursor} {s : Session ρ ν} {result : Option (Match ν)}
      (hover : s.overflow = none)
      (hkept : s.memoized? settings.memoize r c.offset = some result) :
      Runs g settings (n + 1) (.rule r) c s result
        ((s.reportEnter settings.traced r c).countHit.reportResult settings.traced r c
          result true)
  | ruleBody {n : Nat} {r : ρ} {c : Cursor} {s s₁ : Session ρ ν} {result : Option (Match ν)}
      (hover : s.overflow = none)
      (hnew : s.memoized? settings.memoize r c.offset = none)
      (hbody : Runs g settings n (g.rule r).body c (s.enterRule settings g r c) result s₁) :
      Runs g settings (n + 1) (.rule r) c s result (s.leaveRule settings g r c result s₁)
  | seqNil {n : Nat} {c : Cursor} {s : Session ρ ν} :
      Runs g settings n (.seq []) c s (some ⟨c, .list []⟩) s
  | seqCons {n : Nat} {t : Term ρ ν} {ts : List (Term ρ ν)} {c stop : Cursor}
      {s s₁ s₂ : Session ρ ν} {m : Match ν} {values : List (Value ν)}
      (hhead : Runs g settings n t c s (some m) s₁)
      (htail : Runs g settings n (.seq ts) m.stop s₁ (some ⟨stop, .list values⟩) s₂) :
      Runs g settings n (.seq (t :: ts)) c s (some ⟨stop, .list (m.value :: values)⟩) s₂
  | seqFail {n : Nat} {t : Term ρ ν} {ts : List (Term ρ ν)} {c : Cursor} {s s₁ : Session ρ ν}
      (hhead : Runs g settings n t c s none s₁) :
      Runs g settings n (.seq (t :: ts)) c s none { s₁ with labels := s.labels }
  | seqTailFail {n : Nat} {t : Term ρ ν} {ts : List (Term ρ ν)} {c : Cursor}
      {s s₁ s₂ : Session ρ ν} {m : Match ν}
      (hhead : Runs g settings n t c s (some m) s₁)
      (htail : Runs g settings n (.seq ts) m.stop s₁ none s₂) :
      Runs g settings n (.seq (t :: ts)) c s none { s₂ with labels := s.labels }
  | choiceNil {n : Nat} {c : Cursor} {s : Session ρ ν} :
      Runs g settings n (.choice []) c s none s
  | choiceHere {n : Nat} {t : Term ρ ν} {ts : List (Term ρ ν)} {c : Cursor}
      {s s₁ : Session ρ ν} {m : Match ν}
      (h : Runs g settings n t c s (some m) s₁) :
      Runs g settings n (.choice (t :: ts)) c s (some m) s₁
  | choiceLater {n : Nat} {t : Term ρ ν} {ts : List (Term ρ ν)} {c : Cursor}
      {s s₁ s₂ : Session ρ ν} {result : Option (Match ν)}
      (hfail : Runs g settings n t c s none s₁)
      (h : Runs g settings n (.choice ts) c s₁ result s₂) :
      Runs g settings n (.choice (t :: ts)) c s result s₂
  | starStop {n : Nat} {t : Term ρ ν} {c : Cursor} {s s₁ : Session ρ ν}
      (h : Runs g settings n t c s none s₁) :
      Runs g settings n (.star t) c s (some ⟨c, .list []⟩) s₁
  | starEmpty {n : Nat} {t : Term ρ ν} {c : Cursor} {s s₁ : Session ρ ν} {m : Match ν}
      (h : Runs g settings n t c s (some m) s₁) (hstays : m.stop.offset = c.offset) :
      Runs g settings n (.star t) c s (some ⟨c, .list [m.value]⟩) s₁
  | starMore {n : Nat} {t : Term ρ ν} {c stop : Cursor} {s s₁ s₂ : Session ρ ν} {m : Match ν}
      {values : List (Value ν)}
      (h : Runs g settings n t c s (some m) s₁) (hmoved : m.stop.offset ≠ c.offset)
      (hrest : Runs g settings n (.star t) m.stop s₁ (some ⟨stop, .list values⟩) s₂) :
      Runs g settings n (.star t) c s (some ⟨stop, .list (m.value :: values)⟩) s₂
  | plus {n : Nat} {t : Term ρ ν} {c stop : Cursor} {s s₁ : Session ρ ν} {value : Value ν}
      {values : List (Value ν)}
      (h : Runs g settings n (.star t) c s (some ⟨stop, .list (value :: values)⟩) s₁) :
      Runs g settings n (.plus t) c s (some ⟨stop, .list (value :: values)⟩) s₁
  | plusFail {n : Nat} {t : Term ρ ν} {c stop : Cursor} {s s₁ : Session ρ ν}
      (h : Runs g settings n (.star t) c s (some ⟨stop, .list []⟩) s₁) :
      Runs g settings n (.plus t) c s none s₁
  | opt {n : Nat} {t : Term ρ ν} {c : Cursor} {s s₁ : Session ρ ν} {m : Match ν}
      (h : Runs g settings n t c s (some m) s₁) :
      Runs g settings n (.opt t) c s (some m) s₁
  | optAbsent {n : Nat} {t : Term ρ ν} {c : Cursor} {s s₁ : Session ρ ν}
      (h : Runs g settings n t c s none s₁) :
      Runs g settings n (.opt t) c s (some ⟨c, .absent⟩) s₁
  | not {n : Nat} {t : Term ρ ν} {c : Cursor} {s s₁ : Session ρ ν}
      (h : Runs g settings n t c { s with silent := s.silent + 1 } none s₁) :
      Runs g settings n (.not t) c s (some ⟨c, .empty⟩)
        { s₁ with silent := s₁.silent - 1, labels := s.labels }
  | notFail {n : Nat} {t : Term ρ ν} {c : Cursor} {s s₁ : Session ρ ν} {m : Match ν}
      (h : Runs g settings n t c { s with silent := s.silent + 1 } (some m) s₁) :
      Runs g settings n (.not t) c s none
        { s₁ with silent := s₁.silent - 1, labels := s.labels }
  | and {n : Nat} {t : Term ρ ν} {c : Cursor} {s s₁ : Session ρ ν} {m : Match ν}
      (h : Runs g settings n t c { s with silent := s.silent + 1 } (some m) s₁) :
      Runs g settings n (.and t) c s (some ⟨c, .empty⟩)
        { s₁ with silent := s₁.silent - 1, labels := s.labels }
  | andFail {n : Nat} {t : Term ρ ν} {c : Cursor} {s s₁ : Session ρ ν}
      (h : Runs g settings n t c { s with silent := s.silent + 1 } none s₁) :
      Runs g settings n (.and t) c s none
        { s₁ with silent := s₁.silent - 1, labels := s.labels }
  | label {n : Nat} {name : String} {t : Term ρ ν} {c : Cursor} {s s₁ : Session ρ ν}
      {m : Match ν} (h : Runs g settings n t c s (some m) s₁) :
      Runs g settings n (.label name t) c s (some ⟨m.stop, .empty⟩)
        { s₁ with labels := (name, m.value) :: s₁.labels }
  | labelFail {n : Nat} {name : String} {t : Term ρ ν} {c : Cursor} {s s₁ : Session ρ ν}
      (h : Runs g settings n t c s none s₁) :
      Runs g settings n (.label name t) c s none s₁
  | action {n : Nat} {act : ActionM ν (Value ν)} {t : Term ρ ν} {c : Cursor}
      {s s₁ : Session ρ ν} {m : Match ν} {value : Value ν} {left : ActionInput ν}
      (h : Runs g settings n t c { s with labels := [] } (some m) s₁)
      (hact : act ⟨s₁.labels, m.value, c, m.stop⟩ = some (value, left)) :
      Runs g settings n (.action act t) c s (some ⟨m.stop, value⟩)
        { s₁ with labels := s.labels }
  | actionReject {n : Nat} {act : ActionM ν (Value ν)} {t : Term ρ ν} {c : Cursor}
      {s s₁ : Session ρ ν} {m : Match ν}
      (h : Runs g settings n t c { s with labels := [] } (some m) s₁)
      (hact : act ⟨s₁.labels, m.value, c, m.stop⟩ = none) :
      Runs g settings n (.action act t) c s none { s₁ with labels := s.labels }
  | actionFail {n : Nat} {act : ActionM ν (Value ν)} {t : Term ρ ν} {c : Cursor}
      {s s₁ : Session ρ ν}
      (h : Runs g settings n t c { s with labels := [] } none s₁) :
      Runs g settings n (.action act t) c s none { s₁ with labels := s.labels }
  | text {n : Nat} {t : Term ρ ν} {c : Cursor} {s s₁ : Session ρ ν} {m : Match ν}
      (h : Runs g settings n t c s (some m) s₁) :
      Runs g settings n (.text t) c s (some ⟨m.stop, .text (c.textTo m.stop)⟩) s₁
  | textFail {n : Nat} {t : Term ρ ν} {c : Cursor} {s s₁ : Session ρ ν}
      (h : Runs g settings n t c s none s₁) :
      Runs g settings n (.text t) c s none s₁
  | pick {n : Nat} {index : Nat} {t : Term ρ ν} {c : Cursor} {s s₁ : Session ρ ν}
      {m : Match ν} (h : Runs g settings n t c s (some m) s₁) :
      Runs g settings n (.pick index t) c s (some ⟨m.stop, m.value.pick index⟩) s₁
  | pickFail {n : Nat} {index : Nat} {t : Term ρ ν} {c : Cursor} {s s₁ : Session ρ ν}
      (h : Runs g settings n t c s none s₁) :
      Runs g settings n (.pick index t) c s none s₁

/-! ## Runs stay at places of the source -/

/-- The offset is that of a place of the source. -/
def IsOffsetOf (offset : Nat) (source : String) : Prop :=
  ∃ c : Cursor, c.IsPlaceOf source ∧ c.offset = offset

theorem Cursor.IsPlaceOf.isOffsetOf {c : Cursor} {source : String} (h : c.IsPlaceOf source) :
    IsOffsetOf c.offset source :=
  ⟨c, h, rfl⟩

/-- The memo table has outcomes of rules at places of the source, which do not stop before they
start. -/
def Session.KeepsPlaces (source : String) (s : Session ρ ν) : Prop :=
  ∀ (r : ρ) (offset : Nat) (result : Option (Match ν)), s.memo[(r, offset)]? = some result →
    ∃ c : Cursor, c.IsPlaceOf source ∧ c.offset = offset ∧
      ∀ m, result = some m → c.Reaches m.stop

/-- Whatever the session knows of the source are places of it: the memo table keeps places, and
failures, the nesting limit and the reported events are noted at places. -/
structure Session.Placed (source : String) (s : Session ρ ν) : Prop where
  memo : s.KeepsPlaces source
  failures : IsOffsetOf s.failures.offset source
  overflow : ∀ offset, s.overflow = some offset → IsOffsetOf offset source
  events : ∀ e ∈ s.events, ∃ c d : Cursor, c.IsPlaceOf source ∧ c.Reaches d ∧
    e.span = ⟨c.offset, d.offset⟩

namespace Session

variable {source : String} {s s' : Session ρ ν} {c : Cursor}

theorem keepsPlaces_of_memo_empty (source : String) (hempty : s.memo = ∅) :
    s.KeepsPlaces source := by
  intro r offset result hentry
  rw [hempty] at hentry
  simp at hentry

theorem KeepsPlaces.of_memo_eq (h : s.KeepsPlaces source) (hmemo : s'.memo = s.memo) :
    s'.KeepsPlaces source := by
  intro r offset result hentry
  rw [hmemo] at hentry
  exact h r offset result hentry

theorem KeepsPlaces.remember [LawfulBEq ρ] [LawfulHashable ρ] (h : s.KeepsPlaces source)
    (memoize : Bool) (r : ρ) (hplace : c.IsPlaceOf source) {result : Option (Match ν)}
    (hresult : ∀ m, result = some m → c.Reaches m.stop) :
    (s.remember memoize r c.offset result).KeepsPlaces source := by
  unfold Session.remember
  split
  · intro r' offset result' hentry
    simp only [Std.HashMap.getElem?_insert] at hentry
    split at hentry
    · rename_i hkey
      obtain ⟨-, rfl⟩ := Prod.mk.inj (LawfulBEq.eq_of_beq hkey)
      cases hentry
      exact ⟨c, hplace, rfl, hresult⟩
    · exact h r' offset result' hentry
  · exact h

/-- A kept outcome belongs to the place that is asked for, so it does not stop before that. -/
theorem KeepsPlaces.reaches_of_kept (h : s.KeepsPlaces source) (hplace : c.IsPlaceOf source)
    {memoize : Bool} {r : ρ} {m : Match ν}
    (hkept : s.memoized? memoize r c.offset = some (some m)) : c.Reaches m.stop := by
  unfold Session.memoized? at hkept
  split at hkept
  · obtain ⟨c', hplace', hoffset, hstop⟩ := h r c.offset _ hkept
    obtain rfl := hplace'.eq_of_offset_eq hplace hoffset
    exact hstop m rfl
  · cases hkept

/-- A new session knows the start of the source only. -/
theorem placed_empty : ({} : Session ρ ν).Placed source where
  memo := keepsPlaces_of_memo_empty source rfl
  failures := (Cursor.start_isPlaceOf source).isOffsetOf
  overflow offset h := by cases h
  events e h := by simp at h

theorem Placed.of_eq (h : s.Placed source) (hmemo : s'.memo = s.memo)
    (hfailures : s'.failures = s.failures) (hoverflow : s'.overflow = s.overflow)
    (hevents : s'.events = s.events) : s'.Placed source where
  memo := h.memo.of_memo_eq hmemo
  failures := by rw [hfailures]; exact h.failures
  overflow := by rw [hoverflow]; exact h.overflow
  events := by rw [hevents]; exact h.events

theorem offset_add_cases (r : FurthestFailure) (offset : Nat) (e : Expectation) :
    (r.add offset e).offset = r.offset ∨ (r.add offset e).offset = offset := by
  unfold FurthestFailure.add
  split
  · exact .inl rfl
  · split
    · exact .inr rfl
    · split
      · exact .inl rfl
      · exact .inl rfl

theorem Placed.fail (h : s.Placed source) (hplace : c.IsPlaceOf source) (e : Expectation) :
    (s.fail c.offset e).Placed source := by
  unfold Session.fail
  split
  · refine ⟨h.memo, ?_, h.overflow, h.events⟩
    rcases offset_add_cases s.failures c.offset e with hsame | hhere
    · simpa only [hsame] using h.failures
    · simpa only [hhere] using hplace.isOffsetOf
  · exact h

theorem Placed.report (h : s.Placed source) (traced : Bool) (kind : EventKind) (r : ρ)
    (hplace : c.IsPlaceOf source) {d : Cursor} (hmove : c.Reaches d) (cached : Bool) :
    (s.report traced ⟨kind, r, ⟨c.offset, d.offset⟩, cached⟩).Placed source := by
  unfold Session.report
  split
  · refine ⟨h.memo, h.failures, h.overflow, fun e he => ?_⟩
    rcases Array.mem_push.mp he with hold | rfl
    · exact h.events e hold
    · exact ⟨c, d, hplace, hmove, rfl⟩
  · exact h

theorem Placed.reportEnter (h : s.Placed source) (traced : Bool) (r : ρ)
    (hplace : c.IsPlaceOf source) : (s.reportEnter traced r c).Placed source :=
  h.report traced .enter r hplace (.refl c) false

theorem Placed.reportResult (h : s.Placed source) (traced : Bool) (r : ρ)
    (hplace : c.IsPlaceOf source) {result : Option (Match ν)}
    (hresult : ∀ m, result = some m → c.Reaches m.stop) (cached : Bool) :
    (s.reportResult traced r c result cached).Placed source := by
  cases result with
  | none => exact h.report traced .failed r hplace (.refl c) cached
  | some m => exact h.report traced .matched r hplace (hresult m rfl) cached

theorem Placed.countMiss (h : s.Placed source) (memoize : Bool) :
    (s.countMiss memoize).Placed source := by
  unfold Session.countMiss
  split
  · exact h.of_eq rfl rfl rfl rfl
  · exact h

theorem Placed.enterRule (h : s.Placed source) (settings : Settings) (g : Grammar ρ ν) (r : ρ)
    (hplace : c.IsPlaceOf source) : (s.enterRule settings g r c).Placed source :=
  ((h.reportEnter settings.traced r hplace).countMiss settings.memoize).of_eq rfl rfl rfl rfl

theorem Placed.closeRule (h : s.Placed source) (outer : Session ρ ν) (rule : Rule ρ ν)
    (hplace : c.IsPlaceOf source) (result : Option (Match ν)) :
    (outer.closeRule rule c result s).Placed source := by
  obtain ⟨name, expect, silent, body⟩ := rule
  cases expect with
  | none => exact h.of_eq rfl rfl rfl rfl
  | some expect =>
      cases result with
      | none =>
          have hclosed : Placed source
              { s with
                labels := outer.labels
                namedStart := outer.namedStart
                silent := if silent then s.silent - 1 else s.silent } :=
            h.of_eq rfl rfl rfl rfl
          exact hclosed.fail hplace (.named expect)
      | some m => exact h.of_eq rfl rfl rfl rfl

theorem Placed.remember [LawfulBEq ρ] [LawfulHashable ρ] (h : s.Placed source) (memoize : Bool)
    (r : ρ) (hplace : c.IsPlaceOf source) {result : Option (Match ν)}
    (hresult : ∀ m, result = some m → c.Reaches m.stop) :
    (s.remember memoize r c.offset result).Placed source := by
  refine ⟨h.memo.remember memoize r hplace hresult, ?_, by simpa using h.overflow, ?_⟩
  · unfold Session.remember
    split <;> exact h.failures
  · unfold Session.remember
    split <;> exact h.events

theorem Placed.leaveRule [LawfulBEq ρ] [LawfulHashable ρ] (h : s.Placed source)
    (outer : Session ρ ν) (settings : Settings) (g : Grammar ρ ν) (r : ρ)
    (hplace : c.IsPlaceOf source) {result : Option (Match ν)}
    (hresult : ∀ m, result = some m → c.Reaches m.stop) :
    (outer.leaveRule settings g r c result s).Placed source :=
  ((h.closeRule outer (g.rule r) hplace result).remember settings.memoize r hplace
    hresult).reportResult settings.traced r hplace hresult false

end Session

namespace Runs

variable {g : Grammar ρ ν} {settings : Settings} {source : String} {n : Nat} {t : Term ρ ν}
  {c : Cursor} {s s' : Session ρ ν} {result : Option (Match ν)}

/-- A run that starts at a place of the source keeps places of the source only and does not stop
before it starts. -/
theorem keepsPlaces [LawfulBEq ρ] [LawfulHashable ρ] (h : Runs g settings n t c s result s')
    (hplace : c.IsPlaceOf source) (hs : s.KeepsPlaces source) :
    s'.KeepsPlaces source ∧ ∀ m, result = some m → c.Reaches m.stop := by
  induction h with
  | literal h =>
      refine ⟨hs, ?_⟩
      rintro m ⟨⟩
      exact Cursor.reaches_of_skipLiteral? h
  | charIn hnext hmem | anyChar hnext =>
      refine ⟨hs, ?_⟩
      rintro m ⟨⟩
      exact Cursor.reaches_of_next? hnext
  | literalFail h | charInFail h | anyCharFail h =>
      refine ⟨hs.of_memo_eq (by simp), ?_⟩
      rintro m ⟨⟩
  | ruleRefused hover | ruleLimit hover | choiceNil =>
      refine ⟨hs, ?_⟩
      rintro m ⟨⟩
  | ruleKept hover hkept =>
      refine ⟨hs.of_memo_eq (by simp), ?_⟩
      rintro m rfl
      exact hs.reaches_of_kept hplace hkept
  | ruleBody hover hnew hbody ih =>
      obtain ⟨hs₁, hstop⟩ := ih hplace (hs.of_memo_eq (by simp))
      refine ⟨Session.KeepsPlaces.of_memo_eq ?_ (Session.reportResult_memo ..), hstop⟩
      exact Session.KeepsPlaces.remember (hs₁.of_memo_eq (by simp)) _ _ hplace hstop
  | seqNil =>
      refine ⟨hs, ?_⟩
      rintro m ⟨⟩
      exact .refl _
  | seqCons hhead htail ihhead ihtail =>
      obtain ⟨hs₁, hfirst⟩ := ihhead hplace hs
      obtain ⟨hs₂, hlast⟩ := ihtail (hplace.move (hfirst _ rfl)) hs₁
      refine ⟨hs₂, ?_⟩
      rintro m ⟨⟩
      have hend := hlast _ rfl
      exact (hfirst _ rfl).trans hend
  | seqTailFail hhead htail ihhead ihtail =>
      obtain ⟨hs₁, hfirst⟩ := ihhead hplace hs
      obtain ⟨hs₂, -⟩ := ihtail (hplace.move (hfirst _ rfl)) hs₁
      refine ⟨hs₂, ?_⟩
      rintro m ⟨⟩
  | choiceLater hfail h ihfail ih => exact ih hplace (ihfail hplace hs).1
  | starMore h hmoved hrest ih ihrest =>
      obtain ⟨hs₁, hfirst⟩ := ih hplace hs
      obtain ⟨hs₂, hlast⟩ := ihrest (hplace.move (hfirst _ rfl)) hs₁
      refine ⟨hs₂, ?_⟩
      rintro m ⟨⟩
      have hend := hlast _ rfl
      exact (hfirst _ rfl).trans hend
  | starStop h ih | starEmpty h hstays ih | optAbsent h ih | not h ih | and h ih =>
      refine ⟨(ih hplace hs).1, ?_⟩
      rintro m ⟨⟩
      exact .refl _
  | notFail h ih | andFail h ih | actionReject h hact ih | actionFail h ih | seqFail h ih
  | plusFail h ih | labelFail h ih | textFail h ih | pickFail h ih =>
      refine ⟨(ih hplace hs).1, ?_⟩
      rintro m ⟨⟩
  | choiceHere h ih | plus h ih | opt h ih | label h ih | text h ih | pick h ih
  | action h hact ih =>
      obtain ⟨hs₁, hstop⟩ := ih hplace hs
      refine ⟨hs₁, ?_⟩
      rintro m ⟨⟩
      have hend := hstop _ rfl
      exact hend

/-- A run that starts at a place of the source stays among the places of the source and does not
stop before it starts. -/
theorem placed [LawfulBEq ρ] [LawfulHashable ρ] (h : Runs g settings n t c s result s')
    (hplace : c.IsPlaceOf source) (hs : s.Placed source) :
    s'.Placed source ∧ ∀ m, result = some m → c.Reaches m.stop := by
  refine ⟨?_, (h.keepsPlaces hplace hs.memo).2⟩
  induction h with
  | literal h | charIn hnext hmem | anyChar hnext | ruleRefused hover | seqNil | choiceNil =>
      exact hs
  | literalFail h | charInFail h | anyCharFail h => exact hs.fail hplace _
  | ruleLimit hover =>
      refine ⟨hs.memo, hs.failures, ?_, hs.events⟩
      rintro offset ⟨⟩
      exact hplace.isOffsetOf
  | @ruleKept n r c s result hover hkept =>
      have hstop : ∀ m, result = some m → c.Reaches m.stop := by
        rintro m rfl
        exact hs.memo.reaches_of_kept hplace hkept
      have hhit : (s.reportEnter settings.traced r c).countHit.Placed source :=
        (hs.reportEnter settings.traced r hplace).of_eq rfl rfl rfl rfl
      exact hhit.reportResult settings.traced r hplace hstop true
  | @ruleBody n r c s s₁ result hover hnew hbody ih =>
      have hentered := hs.enterRule settings g r hplace
      have hstop := (hbody.keepsPlaces hplace hentered.memo).2
      exact (ih hplace hentered).leaveRule _ settings g _ hplace hstop
  | seqCons hhead htail ihhead ihtail | seqTailFail hhead htail ihhead ihtail
  | starMore hhead hmoved htail ihhead ihtail =>
      have hstop := (hhead.keepsPlaces hplace hs.memo).2 _ rfl
      exact (ihtail (hplace.move hstop) (ihhead hplace hs)).of_eq rfl rfl rfl rfl
  | choiceLater hfail h ihfail ih => exact ih hplace (ihfail hplace hs)
  | not h ih | notFail h ih | and h ih | andFail h ih | action h hact ih | actionReject h hact ih
  | actionFail h ih => exact (ih hplace (hs.of_eq rfl rfl rfl rfl)).of_eq rfl rfl rfl rfl
  | starEmpty h hstays ih => exact ih hplace hs
  | _ h ih => exact (ih hplace hs).of_eq rfl rfl rfl rfl

/-- A run has only one end. -/
theorem functional {result' : Option (Match ν)} {s'' : Session ρ ν}
    (h : Runs g settings n t c s result s') (h' : Runs g settings n t c s result' s'') :
    result = result' ∧ s' = s'' := by
  -- Two steps from one session either take the same case, where the runs of the parts agree by
  -- induction, or take cases that exclude each other.
  induction h generalizing result' s'' with
  | _ => cases h' <;> grind

end Runs

/-! ## The engine follows these runs -/

/-- At places of the source, the matcher runs the term. -/
def Matcher.Performs (g : Grammar ρ ν) (settings : Settings) (source : String) (n : Nat)
    (t : Term ρ ν) (p : Matcher ρ ν) : Prop :=
  ∀ (c : Cursor) (s : Session ρ ν), c.IsPlaceOf source → s.KeepsPlaces source →
    Runs g settings n t c s (p c s).1 (p c s).2

namespace Matcher

variable {g : Grammar ρ ν} {settings : Settings} {source : String} {n : Nat} {t : Term ρ ν}
  {p : Matcher ρ ν}

theorem performs_literal (text : String) (ignoreCase : Bool) :
    Performs g settings source n (.literal text ignoreCase) (literal text ignoreCase) := by
  intro c s _ _
  unfold literal
  split
  case h_1 stop hskip => exact .literal hskip
  case h_2 hskip => exact .literalFail hskip

theorem performs_charIn (k : CharClass) :
    Performs g settings source n (.charIn k) (charIn k) := by
  intro c s _ _
  unfold charIn
  split
  case h_1 a stop hnext =>
    split
    case isTrue hmem => exact .charIn hnext hmem
    case isFalse hmem =>
      refine .charInFail fun b stop' hnext' => ?_
      cases hnext.symm.trans hnext'
      exact Bool.eq_false_iff.mpr hmem
  case h_2 hnext =>
    refine .charInFail fun b stop' hnext' => ?_
    cases hnext.symm.trans hnext'

theorem performs_anyChar : Performs g settings source n .anyChar anyChar := by
  intro c s _ _
  unfold anyChar
  split
  case h_1 a stop hnext => exact .anyChar hnext
  case h_2 hnext => exact .anyCharFail hnext

theorem Performs.opt (h : Performs g settings source n t p) :
    Performs g settings source n (.opt t) (opt p) := by
  intro c s hplace hs
  have hterm := h c s hplace hs
  unfold Matcher.opt
  generalize p c s = out at hterm ⊢
  obtain ⟨_ | m, s₁⟩ := out
  · exact .optAbsent hterm
  · exact .opt hterm

theorem Performs.not (h : Performs g settings source n t p) :
    Performs g settings source n (.not t) (lookahead false p) := by
  intro c s hplace hs
  have hterm := h c { s with silent := s.silent + 1 } hplace hs
  unfold lookahead dropLabels silently
  generalize p c _ = out at hterm ⊢
  obtain ⟨_ | m, s₁⟩ := out
  · exact .not hterm
  · exact .notFail hterm

theorem Performs.and (h : Performs g settings source n t p) :
    Performs g settings source n (.and t) (lookahead true p) := by
  intro c s hplace hs
  have hterm := h c { s with silent := s.silent + 1 } hplace hs
  unfold lookahead dropLabels silently
  generalize p c _ = out at hterm ⊢
  obtain ⟨_ | m, s₁⟩ := out
  · exact .andFail hterm
  · exact .and hterm

theorem Performs.label (h : Performs g settings source n t p) (name : String) :
    Performs g settings source n (.label name t) (label name p) := by
  intro c s hplace hs
  have hterm := h c s hplace hs
  unfold Matcher.label
  generalize p c s = out at hterm ⊢
  obtain ⟨_ | m, s₁⟩ := out
  · exact .labelFail hterm
  · exact .label hterm

theorem Performs.action (h : Performs g settings source n t p) (act : ActionM ν (Value ν)) :
    Performs g settings source n (.action act t) (action act p) := by
  intro c s hplace hs
  have hterm := h c { s with labels := [] } hplace hs
  unfold Matcher.action
  generalize p c _ = out at hterm ⊢
  obtain ⟨_ | m, s₁⟩ := out
  · exact .actionFail hterm
  · simp only [applyAction]
    cases hact : act ⟨s₁.labels, m.value, c, m.stop⟩ with
    | none => exact .actionReject hterm hact
    | some built => exact .action hterm hact

theorem Performs.text (h : Performs g settings source n t p) :
    Performs g settings source n (.text t) (text p) := by
  intro c s hplace hs
  have hterm := h c s hplace hs
  unfold Matcher.text
  generalize p c s = out at hterm ⊢
  obtain ⟨_ | m, s₁⟩ := out
  · exact .textFail hterm
  · exact .text hterm

theorem Performs.pick (h : Performs g settings source n t p) (index : Nat) :
    Performs g settings source n (.pick index t) (pick index p) := by
  intro c s hplace hs
  have hterm := h c s hplace hs
  unfold Matcher.pick
  generalize p c s = out at hterm ⊢
  obtain ⟨_ | m, s₁⟩ := out
  · exact .pickFail hterm
  · exact .pick hterm

/-- At a place of the source the bound of a repetition is larger than what is left. -/
theorem byteLength_rest_lt_bound {c : Cursor} (hplace : c.IsPlaceOf source) :
    byteLength c.rest < source.utf8ByteSize - c.offset + 1 := by
  rw [hplace.byteLength_rest]
  exact Nat.lt_succ_self _

variable [LawfulBEq ρ] [LawfulHashable ρ]

/-- The loop of a repetition runs the repetition.  Its bound is larger than what is left of the
source, and every round but the last takes some of that. -/
theorem Performs.repeatFrom (h : Performs g settings source n t p) (bound : Nat)
    (collected : List (Value ν)) (c : Cursor) (s : Session ρ ν)
    (hbound : byteLength c.rest < bound) (hplace : c.IsPlaceOf source)
    (hs : s.KeepsPlaces source) :
    ∃ items stop s', repeatFrom p bound collected c s = ((collected.reverse ++ items, stop), s') ∧
      Runs g settings n (.star t) c s (some ⟨stop, .list items⟩) s' := by
  induction bound generalizing collected c s with
  | zero => exact absurd hbound (Nat.not_lt_zero _)
  | succ bound ih =>
      have hround := h c s hplace hs
      unfold Matcher.repeatFrom
      generalize p c s = out at hround ⊢
      obtain ⟨_ | m, s₁⟩ := out
      · exact ⟨[], c, s₁, by simp, .starStop hround⟩
      · dsimp only
        split
        case isTrue hstays => exact ⟨[m.value], c, s₁, by simp, .starEmpty hround hstays⟩
        case isFalse hmoved =>
          obtain ⟨hs₁, hstop⟩ := hround.keepsPlaces hplace hs
          have hreaches := hstop m rfl
          have hbytes := hreaches.byteLength_lt fun heq => hmoved (by rw [heq])
          obtain ⟨items, stop, s', hrest, hruns⟩ :=
            ih (m.value :: collected) m.stop s₁ (by omega) (hplace.move hreaches) hs₁
          refine ⟨m.value :: items, stop, s', ?_, .starMore hround hmoved hruns⟩
          rw [hrest]
          simp

theorem Performs.star (h : Performs g settings source n t p) :
    Performs g settings source n (.star t) (star source.utf8ByteSize p) := by
  intro c s hplace hs
  obtain ⟨items, stop, s', hloop, hruns⟩ :=
    h.repeatFrom _ [] c s (byteLength_rest_lt_bound hplace) hplace hs
  unfold Matcher.star
  rw [hloop]
  exact hruns

theorem Performs.plus (h : Performs g settings source n t p) :
    Performs g settings source n (.plus t) (plus source.utf8ByteSize p) := by
  intro c s hplace hs
  obtain ⟨items, stop, s', hloop, hruns⟩ :=
    h.repeatFrom _ [] c s (byteLength_rest_lt_bound hplace) hplace hs
  unfold Matcher.plus
  rw [hloop]
  cases items with
  | nil => exact .plusFail hruns
  | cons value values => exact .plus hruns

end Matcher

namespace Term

variable {g : Grammar ρ ν} {settings : Settings} {source : String} {n : Nat}
  {call : ρ → Matcher ρ ν} [LawfulBEq ρ] [LawfulHashable ρ]

mutual

/-- With matchers that run the rules, every term is run. -/
theorem run_performs
    (hcall : ∀ r, Matcher.Performs g settings source n (.rule r) (call r)) :
    ∀ t : Term ρ ν, Matcher.Performs g settings source n t (t.run source.utf8ByteSize call)
  | .literal word ignoreCase => by
      unfold run
      exact Matcher.performs_literal word ignoreCase
  | .charIn k => by
      unfold run
      exact Matcher.performs_charIn k
  | .anyChar => by
      unfold run
      exact Matcher.performs_anyChar
  | .rule r => by
      unfold run
      exact hcall r
  | .seq ts => by
      unfold run
      exact runSeq_performs hcall ts
  | .choice ts => by
      unfold run
      exact runChoice_performs hcall ts
  | .star t => by
      unfold run
      exact (run_performs hcall t).star
  | .plus t => by
      unfold run
      exact (run_performs hcall t).plus
  | .opt t => by
      unfold run
      exact (run_performs hcall t).opt
  | .not t => by
      unfold run
      exact (run_performs hcall t).not
  | .and t => by
      unfold run
      exact (run_performs hcall t).and
  | .label name t => by
      unfold run
      exact (run_performs hcall t).label name
  | .action act t => by
      unfold run
      exact (run_performs hcall t).action act
  | .text t => by
      unfold run
      exact (run_performs hcall t).text
  | .pick index t => by
      unfold run
      exact (run_performs hcall t).pick index

/-- The rest of a sequence is run as a sequence of its own; where that fails, the labels are put
back once more. -/
theorem runSeq_performs
    (hcall : ∀ r, Matcher.Performs g settings source n (.rule r) (call r)) :
    ∀ ts : List (Term ρ ν), Matcher.Performs g settings source n (.seq ts) fun c s =>
      Matcher.endSeq s.labels (runSeq source.utf8ByteSize call ts c s)
  | [], c, s, hplace, hs => .seqNil
  | t :: ts, c, s, hplace, hs => by
      have hhead := run_performs hcall t c s hplace hs
      unfold runSeq
      dsimp only
      generalize t.run source.utf8ByteSize call c s = out at hhead ⊢
      obtain ⟨_ | m, s₁⟩ := out
      · exact .seqFail hhead
      · obtain ⟨hs₁, hstop⟩ := hhead.keepsPlaces hplace hs
        have htail := runSeq_performs hcall ts m.stop s₁ (hplace.move (hstop m rfl)) hs₁
        dsimp only at htail ⊢
        generalize runSeq source.utf8ByteSize call ts m.stop s₁ = ended at htail ⊢
        obtain ⟨_ | reached, s₂⟩ := ended
        · have hfails := Runs.seqTailFail hhead htail
          exact hfails
        · exact .seqCons hhead htail

theorem runChoice_performs
    (hcall : ∀ r, Matcher.Performs g settings source n (.rule r) (call r)) :
    ∀ ts : List (Term ρ ν),
      Matcher.Performs g settings source n (.choice ts) (runChoice source.utf8ByteSize call ts)
  | [], c, s, hplace, hs => .choiceNil
  | t :: ts, c, s, hplace, hs => by
      have hhead := run_performs hcall t c s hplace hs
      unfold runChoice
      generalize t.run source.utf8ByteSize call c s = out at hhead ⊢
      obtain ⟨_ | m, s₁⟩ := out
      · exact .choiceLater hhead
          (runChoice_performs hcall ts c s₁ hplace (hhead.keepsPlaces hplace hs).1)
      · exact .choiceHere hhead

end

end Term

namespace Grammar

variable {g : Grammar ρ ν} {source : String} [LawfulBEq ρ] [LawfulHashable ρ]

/-- Every rule is run.  The induction is on the allowance, of which the body of a rule has one
less. -/
theorem runRule_performs (settings : Settings) (n : Nat) :
    ∀ r, Matcher.Performs g settings source n (.rule r)
      (g.runRule settings source.utf8ByteSize n r) := by
  induction n with
  | zero =>
      intro r c s _ _
      unfold runRule
      split
      case h_1 offset hover => exact .ruleRefused hover
      case h_2 hover => exact .ruleLimit hover
  | succ n ih =>
      intro r c s hplace hs
      unfold runRule
      split
      case h_1 offset hover => exact .ruleRefused hover
      case h_2 hover =>
        have hsame : (s.reportEnter settings.traced r c).memoized? settings.memoize r c.offset =
            s.memoized? settings.memoize r c.offset := by
          simp [Session.memoized?]
        simp only [hsame, runBody_eq]
        cases hentry : s.memoized? settings.memoize r c.offset with
        | some kept => exact .ruleKept hover hentry
        | none =>
            dsimp only
            rw [Session.closeRule_congr _ s (by simp) (by simp)]
            exact .ruleBody hover hentry
              (Term.run_performs ih (g.rule r).body c _ hplace (hs.of_memo_eq (by simp)))

end Grammar

end PegScript

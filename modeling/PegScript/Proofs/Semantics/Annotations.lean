import PegScript.Proofs.Semantics.MemoBound
import PegScript.Proofs.Semantics.Simulation

/-!
# Annotations for diagnostics do not change what is parsed

The expectation of a rule and its silence belong to diagnostics: they decide which failures are
recorded.  Two grammars that differ in nothing else (`Grammar.DiffersInAnnotations`) run in step: at
any time their sessions are the same up to the record of failures and what decides about it
(`Session.plain`).  So the parses report the same events, hit the nesting limit at the same place,
and succeed with the same value or fail together (`Grammar.parseFrom_annotations`).
-/

namespace PegScript

variable {ρ ν : Type} [BEq ρ] [Hashable ρ]

/-! ## Sessions without diagnostics -/

namespace Session

/-- The session without the record of failures and what decides whether one is recorded. -/
def plain (s : Session ρ ν) : Session ρ ν :=
  { s with failures := {}, silent := 0, namedStart := none }

variable (s outer : Session ρ ν)

@[simp] theorem plain_memo : s.plain.memo = s.memo := rfl

@[simp] theorem plain_labels : s.plain.labels = s.labels := rfl

@[simp] theorem plain_overflow : s.plain.overflow = s.overflow := rfl

@[simp] theorem plain_events : s.plain.events = s.events := rfl

@[simp] theorem plain_fail (offset : Nat) (e : Expectation) :
    (s.fail offset e).plain = s.plain := by
  unfold fail
  split <;> rfl

@[simp] theorem plain_report (traced : Bool) (e : Event ρ) :
    (s.report traced e).plain = s.plain.report traced e := by
  unfold report
  split <;> rfl

@[simp] theorem plain_reportEnter (traced : Bool) (r : ρ) (c : Cursor) :
    (s.reportEnter traced r c).plain = s.plain.reportEnter traced r c :=
  s.plain_report traced _

@[simp] theorem plain_reportResult (traced : Bool) (r : ρ) (c : Cursor)
    (result : Option (Match ν)) (cached : Bool) :
    (s.reportResult traced r c result cached).plain =
      s.plain.reportResult traced r c result cached := by
  cases result with
  | none => exact s.plain_report traced _
  | some m => exact s.plain_report traced _

@[simp] theorem plain_countHit : s.countHit.plain = s.plain.countHit := rfl

@[simp] theorem plain_countMiss (memoize : Bool) :
    (s.countMiss memoize).plain = s.plain.countMiss memoize := by
  unfold countMiss
  split <;> rfl

@[simp] theorem plain_remember (memoize : Bool) (r : ρ) (offset : Nat)
    (result : Option (Match ν)) :
    (s.remember memoize r offset result).plain = s.plain.remember memoize r offset result := by
  unfold remember
  rw [plain_overflow]
  split <;> rfl

@[simp] theorem plain_closeRule (rule : Rule ρ ν) (c : Cursor) (result : Option (Match ν)) :
    (outer.closeRule rule c result s).plain = { s.plain with labels := outer.plain.labels } := by
  obtain ⟨failures, -, hclose⟩ := outer.closeRule_eq rule c result s
  rw [hclose]
  rfl

/-- Entering a rule, only its annotations can make a difference. -/
theorem plain_enterRule (settings : Settings) (g : Grammar ρ ν) (r : ρ) (c : Cursor) :
    (s.enterRule settings g r c).plain =
      (s.plain.reportEnter settings.traced r c).countMiss settings.memoize := by
  have hopen : (s.enterRule settings g r c).plain =
      ((s.reportEnter settings.traced r c).countMiss settings.memoize).plain := rfl
  rw [hopen, plain_countMiss, plain_reportEnter]

theorem plain_leaveRule (settings : Settings) (g : Grammar ρ ν) (r : ρ) (c : Cursor)
    (result : Option (Match ν)) :
    (outer.leaveRule settings g r c result s).plain =
      (({ s.plain with labels := outer.plain.labels } : Session ρ ν).remember settings.memoize r
        c.offset result).reportResult settings.traced r c result false := by
  rw [leaveRule, plain_reportResult, plain_remember, plain_closeRule]

section

variable {s s₁ : Session ρ ν} (h : s₁.plain = s.plain)
include h

theorem labels_of_plain_eq : s₁.labels = s.labels := by
  rw [← s₁.plain_labels, h, plain_labels]

theorem overflow_of_plain_eq : s₁.overflow = s.overflow := by
  rw [← s₁.plain_overflow, h, plain_overflow]

theorem events_of_plain_eq : s₁.events = s.events := by
  rw [← s₁.plain_events, h, plain_events]

theorem memoized?_of_plain_eq (memoize : Bool) (r : ρ) (offset : Nat) :
    s₁.memoized? memoize r offset = s.memoized? memoize r offset := by
  rw [memoized?, memoized?, ← s₁.plain_memo, h, plain_memo]

end

end Session

namespace Grammar

/-! ## Grammars that differ in annotations -/

/-- The two grammars have the same rules but for the expectations and the silence of the rules. -/
structure DiffersInAnnotations (g g' : Grammar ρ ν) : Prop where
  symbols : g'.symbols = g.symbols
  root : g'.root = g.root
  name : ∀ r, (g'.rule r).name = (g.rule r).name
  body : ∀ r, (g'.rule r).body = (g.rule r).body

variable {g g' : Grammar ρ ν} {source : String}

omit [BEq ρ] [Hashable ρ] in
theorem DiffersInAnnotations.nameOf (h : g.DiffersInAnnotations g') : g'.nameOf = g.nameOf :=
  funext h.name

/-- Sessions of the two parses are the same up to diagnostics, and stay so. -/
theorem DiffersInAnnotations.simulation [LawfulBEq ρ] [LawfulHashable ρ]
    (h : g.DiffersInAnnotations g') (settings : Settings) (source : String) :
    Simulation g g' settings settings source False
      (fun s s₁ => s.Placed source ∧ s₁.plain = s.plain) where
  placed hs := hs.1
  labels hs := Session.labels_of_plain_eq hs.2
  relabel labels hs := by
    refine ⟨hs.1.of_eq rfl rfl rfl rfl, ?_⟩
    exact congrArg (fun s : Session ρ ν => { s with labels }) hs.2
  silence hs := ⟨hs.1.of_eq rfl rfl rfl rfl, hs.2⟩
  endSilence hs := ⟨hs.1.of_eq rfl rfl rfl rfl, hs.2⟩
  fail e hs hplace := by
    refine ⟨hs.1.fail hplace e, ?_⟩
    rw [Session.plain_fail, Session.plain_fail, hs.2]
  refused _ hs hover := by
    have hover' := (Session.overflow_of_plain_eq hs.2).trans hover
    exact ⟨_, .ruleRefused hover', hs⟩
  limit {r c s s₁} _ hplace hs hover := by
    have hover' := (Session.overflow_of_plain_eq hs.2).trans hover
    refine ⟨_, .ruleLimit hover', ⟨hs.1.memo, hs.1.failures, ?_, hs.1.events⟩, ?_⟩
    · rintro offset ⟨⟩
      exact hplace.isOffsetOf
    · exact congrArg (fun s : Session ρ ν => { s with overflow := some c.offset }) hs.2
  kept {n r c s s₁ result} hplace hs hover hkept := by
    have hover' := (Session.overflow_of_plain_eq hs.2).trans hover
    have hkept' := (Session.memoized?_of_plain_eq hs.2 _ _ _).trans hkept
    have hrun : Runs g settings (n + 1) (.rule r) c s result _ := .ruleKept hover hkept
    refine ⟨_, .ruleKept hover' hkept', (hrun.placed hplace hs.1).1, ?_⟩
    simp only [Session.plain_reportResult, Session.plain_countHit, Session.plain_reportEnter, hs.2]
  body {n r c s s' s₁ result} hplace hs hover hnew hbody _ hfollow := by
    have hover' := (Session.overflow_of_plain_eq hs.2).trans hover
    have hnew' := (Session.memoized?_of_plain_eq hs.2 _ _ _).trans hnew
    have hentered : (s₁.enterRule settings g' r c).plain = (s.enterRule settings g r c).plain := by
      rw [Session.plain_enterRule, Session.plain_enterRule, hs.2]
    obtain ⟨s₂, hbody', hplaced, hplain⟩ :=
      hfollow ⟨hs.1.enterRule settings g r hplace, hentered⟩
    rw [← h.body] at hbody'
    have hrun : Runs g settings (n + 1) (.rule r) c s result _ := .ruleBody hover hnew hbody
    refine ⟨_, .ruleBody hover' hnew' hbody', (hrun.placed hplace hs.1).1, ?_⟩
    rw [Session.plain_leaveRule, Session.plain_leaveRule, hplain, hs.2]

/-- Annotations for diagnostics do not change what is parsed.  Under any settings, two grammars that
differ in nothing else report the same events from every rule and every source, so their written
traces are the same.  They hit the nesting limit at the same offset or not at all, and succeed with
the same value or both fail. -/
theorem parseFrom_annotations [LawfulBEq ρ] [LawfulHashable ρ] (h : g.DiffersInAnnotations g')
    (settings : Settings) (start : ρ) (source : String) :
    (g'.parseFrom settings start source).session.events =
        (g.parseFrom settings start source).session.events ∧
      (∀ failed,
        Trace.render g'.nameOf source failed (g'.parseFrom settings start source).session.events =
          Trace.render g.nameOf source failed (g.parseFrom settings start source).session.events) ∧
      (g'.parseFrom settings start source).session.overflow =
        (g.parseFrom settings start source).session.overflow ∧
      ((∃ value,
          (g.parseFrom settings start source).outcome = .ok value ∧
          (g'.parseFrom settings start source).outcome = .ok value) ∨
        ∃ d d',
          (g.parseFrom settings start source).outcome = .error d ∧
          (g'.parseFrom settings start source).outcome = .error d') := by
  obtain ⟨result, s, s₁, ⟨-, hplain⟩, hparse, hparse'⟩ :=
    (h.simulation settings source).parseFrom rfl ⟨Session.placed_empty, rfl⟩ start False.elim
  have hevents := Session.events_of_plain_eq hplain
  have hover := Session.overflow_of_plain_eq hplain
  rw [hparse, hparse']
  refine ⟨hevents, fun failed => ?_, hover, conclude_together hover⟩
  rw [hevents, h.nameOf]

/-- A digit, or a letter that no other one follows. -/
def digitOrLetter : Grammar Bool Unit where
  symbols := [false, true]
  rule
    | false => { name := "Item", body := .choice [.lit "1", .seq [.rule true, .not (.rule true)]] }
    | true => { name := "Letter", body := .lit "x" }
  root := false

/-- The same with expectations, and the letter is silent. -/
def annotatedDigitOrLetter : Grammar Bool Unit where
  symbols := [false, true]
  rule
    | false => {
        name := "Item"
        expect := some "an item"
        body := .choice [.lit "1", .seq [.rule true, .not (.rule true)]] }
    | true => { name := "Letter", expect := some "a letter", silent := true, body := .lit "x" }
  root := false

/-- Two letters are no item.  Both parses report the same six events, and only what they ask for
instead is different. -/
theorem digitOrLetter_annotations :
    digitOrLetter.DiffersInAnnotations annotatedDigitOrLetter ∧
      (annotatedDigitOrLetter.parseFrom { memoize := false, traced := true } false
          "xx").session.events =
        (digitOrLetter.parseFrom { memoize := false, traced := true } false "xx").session.events ∧
      (digitOrLetter.parseFrom { memoize := false, traced := true } false
        "xx").session.events.size = 6 ∧
      ∃ d d', (digitOrLetter.parseFrom { memoize := false, traced := true } false "xx").outcome =
          .error d ∧
        (annotatedDigitOrLetter.parseFrom { memoize := false, traced := true } false
          "xx").outcome = .error d' ∧
        d.expected = [.literal "1" false] ∧ d'.expected = [.named "an item"] := by
  have hdiffers : digitOrLetter.DiffersInAnnotations annotatedDigitOrLetter := by
    refine ⟨rfl, rfl, ?_, ?_⟩
    · decide
    · intro r
      cases r <;> rfl
  obtain ⟨hevents, -, hover, -⟩ :=
    parseFrom_annotations hdiffers { memoize := false, traced := true } false "xx"
  have hdone : (digitOrLetter.parseFrom { memoize := false, traced := true } false
      "xx").session.overflow = none := by decide +kernel
  refine ⟨hdiffers, hevents, by decide +kernel, _, _,
    outcome_of_none hdone (Option.isNone_iff_eq_none.mp (by decide +kernel)),
    outcome_of_none (hover.trans hdone) (Option.isNone_iff_eq_none.mp (by decide +kernel)), ?_, ?_⟩
  · decide +kernel
  · decide +kernel

end Grammar

end PegScript

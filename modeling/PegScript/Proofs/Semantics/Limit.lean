import PegScript.Proofs.Semantics.Reentry
import PegScript.Proofs.Semantics.Reports

/-!
# The nesting limit

A parse hits its nesting limit if it comes to a rule while no more rules may become active
(`Evaluation.AtLimit`).  As long as that does not happen the limit does not show: a run within the
limit is the same run under every higher one (`Runs.raise`).

The session knows the place of the first such rule.  It is none exactly as long as the limit has not
been hit (`Runs.hitsAt`, `Grammar.exists_atLimit_before`), and from then on it does not
change, so a parse that hits its limit fails there, for that reason only.  The main statement is
`Grammar.parseFrom_nestingLimit`.
-/

namespace PegScript

variable {ρ ν : Type} [BEq ρ] [Hashable ρ]

/-- A rule is to be matched, and no more rules may become active. -/
def Evaluation.AtLimit (e : Evaluation ρ ν) : Prop :=
  e.allowance = 0 ∧ ∃ r, e.term = .rule r

/-! ## Runs within the limit -/

namespace Runs

variable [LawfulBEq ρ] [LawfulHashable ρ] {g : Grammar ρ ν} {settings : Settings}
  {source : String} {n : Nat} {t : Term ρ ν} {c : Cursor} {s s' : Session ρ ν}
  {result : Option (Match ν)}

/-- A run within the limit is a run under every higher limit.  The settings show in a run only by
whether outcomes are kept and events reported. -/
theorem raise (h : Runs g settings n t c s result s') (hdone : s'.overflow = none)
    {n' : Nat} (hle : n ≤ n') (maxDepth : Nat) :
    Runs g { settings with maxDepth } n' t c s result s' := by
  induction h generalizing n' with
  | literal h => exact .literal h
  | literalFail h => exact .literalFail h
  | charIn hnext hmem => exact .charIn hnext hmem
  | charInFail h => exact .charInFail h
  | anyChar hnext => exact .anyChar hnext
  | anyCharFail hnext => exact .anyCharFail hnext
  | ruleRefused hover =>
      rw [hover] at hdone
      cases hdone
  | ruleLimit hover => cases hdone
  | @ruleKept n r c s result hover hkept =>
      obtain ⟨n', rfl⟩ : ∃ k, n' = k + 1 := ⟨n' - 1, by omega⟩
      exact .ruleKept hover hkept
  | @ruleBody n r c s s₁ result hover hnew hbody ih =>
      obtain ⟨n', rfl⟩ : ∃ k, n' = k + 1 := ⟨n' - 1, by omega⟩
      rw [Session.leaveRule_overflow] at hdone
      exact .ruleBody hover hnew (ih hdone (by omega))
  | seqNil => exact .seqNil
  | seqCons hhead htail ihhead ihtail =>
      exact .seqCons (ihhead (htail.overflow_eq_none hdone) hle) (ihtail hdone hle)
  | seqFail hhead ih => exact .seqFail (ih hdone hle)
  | seqTailFail hhead htail ihhead ihtail =>
      exact .seqTailFail (ihhead (htail.overflow_eq_none hdone) hle) (ihtail hdone hle)
  | choiceNil => exact .choiceNil
  | choiceHere h ih => exact .choiceHere (ih hdone hle)
  | choiceLater hfail h ihfail ih =>
      exact .choiceLater (ihfail (h.overflow_eq_none hdone) hle) (ih hdone hle)
  | starStop h ih => exact .starStop (ih hdone hle)
  | starEmpty h hstays ih => exact .starEmpty (ih hdone hle) hstays
  | starMore h hmoved hrest ih ihrest =>
      exact .starMore (ih (hrest.overflow_eq_none hdone) hle) hmoved (ihrest hdone hle)
  | plus h ih => exact .plus (ih hdone hle)
  | plusFail h ih => exact .plusFail (ih hdone hle)
  | opt h ih => exact .opt (ih hdone hle)
  | optAbsent h ih => exact .optAbsent (ih hdone hle)
  | not h ih => exact .not (ih hdone hle)
  | notFail h ih => exact .notFail (ih hdone hle)
  | and h ih => exact .and (ih hdone hle)
  | andFail h ih => exact .andFail (ih hdone hle)
  | label h ih => exact .label (ih hdone hle)
  | labelFail h ih => exact .labelFail (ih hdone hle)
  | action h hact ih => exact .action (ih hdone hle) hact
  | actionReject h hact ih => exact .actionReject (ih hdone hle) hact
  | actionFail h ih => exact .actionFail (ih hdone hle)
  | text h ih => exact .text (ih hdone hle)
  | textFail h ih => exact .textFail (ih hdone hle)
  | pick h ih => exact .pick (ih hdone hle)
  | pickFail h ih => exact .pickFail (ih hdone hle)

end Runs

/-! ## Where the limit is hit -/

namespace Grammar

variable {g : Grammar ρ ν} {settings : Settings} {source : String} {e e' : Evaluation ρ ν}
  {offset : Nat}

/-- In the course of `e` the limit is hit at the offset, and it was not hit before. -/
def HitsAt (g : Grammar ρ ν) (settings : Settings) (source : String) (e : Evaluation ρ ν)
    (offset : Nat) : Prop :=
  ∃ e', g.Reached settings source e e' ∧ e'.AtLimit ∧ e'.session.overflow = none ∧
    e'.place.offset = offset

theorem HitsAt.of_calls (h : g.HitsAt settings source e' offset)
    (hcall : g.Calls settings source.utf8ByteSize e e') : g.HitsAt settings source e offset := by
  obtain ⟨hit, hreached, hlimit⟩ := h
  exact ⟨hit, .head hcall hreached, hlimit⟩

end Grammar

/-- A run that goes beyond the limit hits it at the place that the session then knows.  The
induction is on the run.  Of two runs in turn, the first one hits the limit or the second one
starts within it. -/
theorem Runs.hitsAt [LawfulBEq ρ] [LawfulHashable ρ] {g : Grammar ρ ν} {settings : Settings}
    {source : String} {n : Nat} {t : Term ρ ν} {c : Cursor} {s s' : Session ρ ν}
    {result : Option (Match ν)} {offset : Nat} (h : Runs g settings n t c s result s')
    (hplace : c.IsPlaceOf source) (hs : s.Placed source) (hover : s.overflow = none)
    (hhit : s'.overflow = some offset) : g.HitsAt settings source ⟨n, t, c, s⟩ offset := by
  induction h with
  | literal h | charIn hnext hmem | anyChar hnext | ruleRefused hover' | seqNil | choiceNil =>
      rw [hover] at hhit
      cases hhit
  | literalFail h | charInFail h | anyCharFail h =>
      rw [Session.fail_overflow, hover] at hhit
      cases hhit
  | ruleLimit hover' =>
      cases hhit
      exact ⟨_, .refl, ⟨rfl, _, rfl⟩, hover, rfl⟩
  | @ruleKept n r c s result hover' hkept =>
      obtain ⟨events, hits, heq⟩ := s.kept_eq settings.traced r c result
      rw [heq, hover] at hhit
      cases hhit
  | @ruleBody n r c s s₁ result hover' hnew hbody ih =>
      rw [Session.leaveRule_overflow] at hhit
      have henter : (s.enterRule settings g r c).overflow = none := by
        rw [Session.enterRule_overflow, hover]
      exact (ih hplace (hs.enterRule settings g r hplace) henter hhit).of_calls (.rule hover hnew)
  | @seqCons n t ts c stop s s₁ s₂ m values hhead htail ihhead ihtail
  | @seqTailFail n t ts c s s₁ s₂ m hhead htail ihhead ihtail =>
      obtain ⟨hs₁, hstop⟩ := hhead.placed hplace hs
      cases hmiddle : s₁.overflow with
      | none =>
          exact (ihtail (hplace.move (hstop _ rfl)) hs₁ hmiddle hhit).of_calls
            (.seqTail (hhead.evaluate_eq hplace hs))
      | some first =>
          cases (htail.growsTo.overflow first hmiddle).symm.trans hhit
          exact (ihhead hplace hs hover hmiddle).of_calls .seqHead
  | seqFail h ih => exact (ih hplace hs hover hhit).of_calls .seqHead
  | choiceHere h ih => exact (ih hplace hs hover hhit).of_calls .choiceHead
  | @choiceLater n t ts c s s₁ s₂ result hfail h ihfail ih =>
      cases hmiddle : s₁.overflow with
      | none =>
          exact (ih hplace (hfail.placed hplace hs).1 hmiddle hhit).of_calls
            (.choiceTail (hfail.evaluate_eq hplace hs))
      | some first =>
          cases (h.growsTo.overflow first hmiddle).symm.trans hhit
          exact (ihfail hplace hs hover hmiddle).of_calls .choiceHead
  | starStop h ih | starEmpty h hstays ih =>
      exact (ih hplace hs hover hhit).of_calls .starRound
  | @starMore n t c stop s s₁ s₂ m values h hmoved hrest ih ihrest =>
      obtain ⟨hs₁, hstop⟩ := h.placed hplace hs
      cases hmiddle : s₁.overflow with
      | none =>
          exact (ihrest (hplace.move (hstop _ rfl)) hs₁ hmiddle hhit).of_calls
            (.starAgain (h.evaluate_eq hplace hs) hmoved)
      | some first =>
          cases (hrest.growsTo.overflow first hmiddle).symm.trans hhit
          exact (ih hplace hs hover hmiddle).of_calls .starRound
  | plus h ih | plusFail h ih => exact (ih hplace hs hover hhit).of_calls .plus
  | opt h ih | optAbsent h ih => exact (ih hplace hs hover hhit).of_calls .opt
  | not h ih | notFail h ih =>
      exact (ih hplace (hs.of_eq rfl rfl rfl rfl) hover hhit).of_calls .not
  | and h ih | andFail h ih =>
      exact (ih hplace (hs.of_eq rfl rfl rfl rfl) hover hhit).of_calls .and
  | label h ih | labelFail h ih => exact (ih hplace hs hover hhit).of_calls .label
  | action h hact ih | actionReject h hact ih | actionFail h ih =>
      exact (ih hplace (hs.of_eq rfl rfl rfl rfl) hover hhit).of_calls .action
  | text h ih | textFail h ih => exact (ih hplace hs hover hhit).of_calls .text
  | pick h ih | pickFail h ih => exact (ih hplace hs hover hhit).of_calls .pick

/-! ## The first hit -/

namespace Grammar

variable [LawfulBEq ρ] [LawfulHashable ρ] {g : Grammar ρ ν} {settings : Settings}
  {source : String} {start : ρ} {e e' : Evaluation ρ ν}

/-- At the limit the session takes down the place, unless it knows one already. -/
theorem overflow_evaluate_of_atLimit (g : Grammar ρ ν) (settings : Settings)
    (he : e.Placed source) (hlimit : e.AtLimit) :
    (g.evaluate settings source.utf8ByteSize e).2.overflow =
      some (e.session.overflow.getD e.place.offset) := by
  obtain ⟨n, t, c, s⟩ := e
  obtain ⟨rfl, r, rfl⟩ := hlimit
  have hrun := runs_evaluate g settings he
  generalize (g.evaluate settings source.utf8ByteSize ⟨0, .rule r, c, s⟩).1 = result at hrun
  generalize (g.evaluate settings source.utf8ByteSize ⟨0, .rule r, c, s⟩).2 = s' at hrun ⊢
  cases hrun with
  | ruleRefused hover => rw [hover, Option.getD_some]
  | ruleLimit hover => rw [hover, Option.getD_none]

/-- If the limit was hit before an evaluation begins, then by an earlier evaluation.  Along the
calls, the limit can only turn from not hit to hit between the two of a pair carried out in
turn. -/
theorem exists_atLimit_before (h : g.Reached settings source e e') (he : e.Placed source)
    (hover : e.session.overflow = none) (hhit : e'.session.overflow ≠ none) :
    ∃ hit, g.Before settings source e hit e' ∧ hit.AtLimit := by
  induction h with
  | refl => exact absurd hover hhit
  | @tail caller called hcaller hcall ih =>
      have hplaced := placed_of_reached hcaller he
      by_cases hcaller' : caller.session.overflow = none
      · rcases hcall.same_or_second with ⟨-, hsame⟩ | ⟨first, hturn⟩
        · rw [hsame] at hhit
          exact absurd hcaller' hhit
        · obtain ⟨offset, hoffset⟩ := Option.ne_none_iff_exists'.mp hhit
          rw [hturn.session_second] at hoffset
          have hfirst := hturn.calls_first.placed hplaced
          obtain ⟨hit, hreached, hlimit, -⟩ := (runs_evaluate g settings hfirst).hitsAt
            hfirst.place hfirst.session (hturn.session_first ▸ hcaller') hoffset
          exact ⟨hit, ⟨caller, first, called, hcaller, hturn, hreached, .refl⟩, hlimit⟩
      · obtain ⟨hit, hbefore, hlimit⟩ := ih hcaller'
        exact ⟨hit, hbefore.of_reached (.single hcall), hlimit⟩

/-- The parse comes to `e`, which is at the limit, and to no such evaluation before. -/
structure FirstHit (g : Grammar ρ ν) (settings : Settings) (start : ρ) (source : String)
    (e : Evaluation ρ ν) : Prop where
  reached : g.Reached settings source (startEvaluation settings start source) e
  atLimit : e.AtLimit
  first : ∀ e', g.Before settings source (startEvaluation settings start source) e' e → ¬ e'.AtLimit

theorem FirstHit.overflow_eq_none (h : g.FirstHit settings start source e) :
    e.session.overflow = none := by
  by_cases hover : e.session.overflow = none
  · exact hover
  · obtain ⟨hit, hbefore, hlimit⟩ :=
      exists_atLimit_before h.reached (placed_startEvaluation settings start source) rfl hover
    exact absurd hlimit (h.first hit hbefore)

/-- The session of a parse knows the place of a first hit. -/
theorem FirstHit.overflow_eq_some (h : g.FirstHit settings start source e) :
    (g.parseFrom settings start source).session.overflow = some e.place.offset := by
  have hstart := placed_startEvaluation (ν := ν) settings start source
  have hhit := overflow_evaluate_of_atLimit g settings (placed_of_reached h.reached hstart)
    h.atLimit
  rw [h.overflow_eq_none, Option.getD_none] at hhit
  rw [parseFrom_eq_evaluate]
  exact (growsTo_of_reached h.reached hstart).2.overflow _ hhit

/-- A parse beyond the limit has a first hit. -/
theorem exists_firstHit
    (h : (g.parseFrom settings start source).session.overflow ≠ none) :
    ∃ e, g.FirstHit settings start source e := by
  have hstart := placed_startEvaluation (ν := ν) settings start source
  obtain ⟨offset, hoffset⟩ := Option.ne_none_iff_exists'.mp h
  rw [parseFrom_eq_evaluate] at hoffset
  obtain ⟨e, hreached, hlimit, hover, -⟩ :=
    (runs_evaluate g settings hstart).hitsAt hstart.place hstart.session rfl hoffset
  refine ⟨e, hreached, hlimit, fun e' hbefore hlimit' => ?_⟩
  have hearlier := (hbefore.growsTo hstart).overflow_eq_none hover
  have hplaced := placed_of_reached hbefore.reached_first hstart
  rw [overflow_evaluate_of_atLimit g settings hplaced hlimit'] at hearlier
  cases hearlier

/-- The session of a parse knows no place if and only if the parse never comes to the limit. -/
theorem overflow_eq_none_iff :
    (g.parseFrom settings start source).session.overflow = none ↔
      ∀ e, g.Reached settings source (startEvaluation settings start source) e → ¬ e.AtLimit := by
  have hstart := placed_startEvaluation (ν := ν) settings start source
  constructor
  · intro hdone e hreached hlimit
    rw [parseFrom_eq_evaluate] at hdone
    have hended := (growsTo_of_reached hreached hstart).2.overflow_eq_none hdone
    rw [overflow_evaluate_of_atLimit g settings (placed_of_reached hreached hstart) hlimit]
      at hended
    cases hended
  · intro hnever
    by_cases hdone : (g.parseFrom settings start source).session.overflow = none
    · exact hdone
    · obtain ⟨e, hfirst⟩ := exists_firstHit hdone
      exact absurd hfirst.atLimit (hnever e hfirst.reached)

/-- A parse fails for nesting exactly at the place that its session knows. -/
theorem overflow_eq_some_iff {offset : Nat} :
    (g.parseFrom settings start source).session.overflow = some offset ↔
      ∃ d, (g.parseFrom settings start source).outcome = .error d ∧
        .lessNesting ∈ d.expected ∧ d.offset = offset := by
  constructor
  · intro hover
    obtain ⟨hoffset, hexpected⟩ :=
      FurthestFailure.diagnose_empty_add offset .lessNesting source
    refine ⟨_, outcome_of_overflow hover, ?_, hoffset⟩
    rw [hexpected]
    exact List.mem_singleton.mpr rfl
  · rintro ⟨d, herror, hmem, rfl⟩
    have hasks := lessNesting_not_mem g settings start source
    rw [parseFrom_eq_evaluate] at hasks
    cases hover : (g.parseFrom settings start source).session.overflow with
    | some first =>
        cases (outcome_of_overflow hover).symm.trans herror
        rw [(FurthestFailure.diagnose_empty_add first .lessNesting source).1]
    | none =>
        rw [parseFrom_eq_evaluate] at hover herror
        rcases (conclude_eq_error_iff hover).mp herror with ⟨-, rfl⟩ | ⟨m, -, -, rfl⟩
        · exact absurd (mem_of_mem_sortExpectations hmem) hasks
        · rcases FurthestFailure.mem_expected_of_mem_add (mem_of_mem_sortExpectations hmem)
            with hold | hend
          · exact absurd hold hasks
          · cases hend

/-- A parse within the limit is the same parse under every higher limit. -/
theorem parseFrom_raise (hdone : (g.parseFrom settings start source).session.overflow = none)
    {maxDepth : Nat} (hle : settings.maxDepth ≤ maxDepth) :
    g.parseFrom { settings with maxDepth } start source =
      g.parseFrom settings start source := by
  obtain ⟨result, s', hrun, heq⟩ := exists_runs_parseFrom g settings start source
  rw [heq] at hdone ⊢
  exact (hrun.raise hdone hle maxDepth).parseFrom_eq

/-- The nesting limit shows only in parses that hit it.  A parse that does not come to a rule at the
limit is the same parse under every higher limit: it has the same outcome and ends in the same
session, with the same events.  A parse that does fails where this happens first, and all that its
diagnosis says is that less nesting was expected there. -/
theorem parseFrom_nestingLimit (g : Grammar ρ ν) (settings : Settings) (start : ρ)
    (source : String) :
    ((∀ e, g.Reached settings source (startEvaluation settings start source) e → ¬ e.AtLimit) →
        ∀ maxDepth, settings.maxDepth ≤ maxDepth →
          g.parseFrom { settings with maxDepth } start source =
            g.parseFrom settings start source) ∧
      ((∃ e, g.Reached settings source (startEvaluation settings start source) e ∧ e.AtLimit) →
        ∃ d, (g.parseFrom settings start source).outcome = .error d ∧
          d.expected = [.lessNesting] ∧ (∃ e, g.FirstHit settings start source e) ∧
          ∀ e, g.FirstHit settings start source e → d.offset = e.place.offset) := by
  constructor
  · intro hnever maxDepth hle
    exact parseFrom_raise (overflow_eq_none_iff.mpr hnever) hle
  · rintro ⟨e, hreached, hlimit⟩
    have hover : (g.parseFrom settings start source).session.overflow ≠ none :=
      fun hdone => overflow_eq_none_iff.mp hdone e hreached hlimit
    obtain ⟨first, hfirst⟩ := exists_firstHit hover
    obtain ⟨hoffset, hexpected⟩ :=
      FurthestFailure.diagnose_empty_add first.place.offset .lessNesting source
    refine ⟨_, outcome_of_overflow hfirst.overflow_eq_some, hexpected, ⟨first, hfirst⟩, ?_⟩
    intro e' hfirst'
    rw [hoffset]
    exact Option.some.inj (hfirst.overflow_eq_some.symm.trans hfirst'.overflow_eq_some)

/-- A letter in parentheses. -/
def parentheses : Grammar Unit Unit where
  symbols := [()]
  rule _ := { name := "Nest", body := .choice [.seq [.lit "(", .rule (), .lit ")"], .lit "x"] }
  root := ()

/-- Two pairs of parentheses need a limit of three rules.  Under a limit of two, the parse fails
after both have been opened. -/
theorem parentheses_nestingLimit :
    (∀ maxDepth, 3 ≤ maxDepth →
        parentheses.parseFrom { memoize := false, maxDepth } () "((x))" =
          parentheses.parseFrom { memoize := false, maxDepth := 3 } () "((x))") ∧
      ∃ d, (parentheses.parseFrom { memoize := false, maxDepth := 2 } () "((x))").outcome =
        .error d ∧ d.expected = [.lessNesting] ∧ d.offset = 2 := by
  have hwithin : (parentheses.parseFrom { memoize := false, maxDepth := 3 } ()
      "((x))").session.overflow = none := by decide +kernel
  have hbeyond : (parentheses.parseFrom { memoize := false, maxDepth := 2 } ()
      "((x))").session.overflow = some 2 := by decide +kernel
  obtain ⟨hraise, -⟩ :=
    parseFrom_nestingLimit parentheses { memoize := false, maxDepth := 3 } () "((x))"
  obtain ⟨-, hfails⟩ :=
    parseFrom_nestingLimit parentheses { memoize := false, maxDepth := 2 } () "((x))"
  obtain ⟨hit, hhit⟩ := exists_firstHit (Option.ne_none_iff_exists'.mpr ⟨2, hbeyond⟩)
  obtain ⟨d, hd, hexpected, -, hoffset⟩ := hfails ⟨hit, hhit.reached, hhit.atLimit⟩
  have htwo : hit.place.offset = 2 := Option.some.inj (hhit.overflow_eq_some.symm.trans hbeyond)
  exact ⟨hraise (overflow_eq_none_iff.mp hwithin), d, hd, hexpected, (hoffset hit hhit).trans htwo⟩

end Grammar

end PegScript

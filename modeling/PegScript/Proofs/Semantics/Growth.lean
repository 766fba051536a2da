import PegScript.Proofs.Failure.Furthest
import PegScript.Proofs.Semantics.Evaluations

/-!
# What a run adds to its session, and what it puts back

In the course of a run the session only gains: the nesting limit stays reached, the record of
failures says more and more, and kept outcomes stay in the memo table (`Session.GrowsTo`).  What
decides whether a failure is recorded is the same after a run as before it (`Runs.restores`).

The session of an evaluation grows into those of the evaluations in its course, and what these end
in grows into what it ends in (`Grammar.growsTo_of_reached`).  Of two evaluations in the course of a
third one, `Grammar.Before` says which comes first.
-/

namespace PegScript

variable {ρ ν : Type} [BEq ρ] [Hashable ρ]

/-! ## What bookkeeping changes -/

namespace Session

theorem fail_eq (s : Session ρ ν) (offset : Nat) (e : Expectation) :
    ∃ failures, s.failures ≤ failures ∧ s.fail offset e = { s with failures } := by
  unfold fail
  split
  · exact ⟨_, s.failures.le_add offset e, rfl⟩
  · exact ⟨s.failures, le_refl _, rfl⟩

theorem report_eq (s : Session ρ ν) (traced : Bool) (e : Event ρ) :
    ∃ events, s.report traced e = { s with events } := by
  unfold report
  split
  · exact ⟨_, rfl⟩
  · exact ⟨s.events, rfl⟩

theorem reportResult_eq (s : Session ρ ν) (traced : Bool) (r : ρ) (c : Cursor)
    (result : Option (Match ν)) (cached : Bool) :
    ∃ events, s.reportResult traced r c result cached = { s with events } := by
  cases result with
  | none => exact s.report_eq traced _
  | some m => exact s.report_eq traced _

theorem countMiss_eq (s : Session ρ ν) (memoize : Bool) :
    ∃ misses, s.countMiss memoize = { s with misses } := by
  unfold countMiss
  split
  · exact ⟨_, rfl⟩
  · exact ⟨s.misses, rfl⟩

/-- The table gets at most one entry, and loses none. -/
theorem remember_eq [LawfulBEq ρ] [LawfulHashable ρ] (s : Session ρ ν) (memoize : Bool) (r : ρ)
    (offset : Nat) (result : Option (Match ν)) :
    ∃ memo, (∀ key ∈ s.memo, key ∈ memo) ∧
      (∀ key ∈ memo, key ∈ s.memo ∨ key = (r, offset)) ∧
      s.remember memoize r offset result = { s with memo } := by
  unfold remember
  split
  · refine ⟨_, fun key hkey => Std.HashMap.mem_insert.mpr (.inr hkey), fun key hkey => ?_, rfl⟩
    rcases Std.HashMap.mem_insert.mp hkey with hnew | hold
    · exact .inr (eq_of_beq hnew).symm
    · exact .inl hold
  · exact ⟨s.memo, fun key hkey => hkey, fun key hkey => .inl hkey, rfl⟩

/-- Using a kept outcome counts and reports only. -/
theorem kept_eq (s : Session ρ ν) (traced : Bool) (r : ρ) (c : Cursor)
    (result : Option (Match ν)) :
    ∃ events hits, (s.reportEnter traced r c).countHit.reportResult traced r c result true =
      { s with events, hits } := by
  obtain ⟨events, henter⟩ := s.report_eq traced ⟨.enter, r, .point c.offset, false⟩
  obtain ⟨events', hresult⟩ :=
    (s.reportEnter traced r c).countHit.reportResult_eq traced r c result true
  rw [hresult, reportEnter, henter]
  exact ⟨events', s.hits + 1, rfl⟩

/-- Entering a rule changes what decides whether a failure is recorded. -/
theorem enterRule_eq (s : Session ρ ν) (settings : Settings) (g : Grammar ρ ν) (r : ρ)
    (c : Cursor) :
    ∃ events misses, s.enterRule settings g r c = { s with
      events, misses
      namedStart := if (g.rule r).expect.isSome then some c.offset else s.namedStart
      silent := if (g.rule r).silent then s.silent + 1 else s.silent } := by
  obtain ⟨events, henter⟩ := s.report_eq settings.traced ⟨.enter, r, .point c.offset, false⟩
  obtain ⟨misses, hmiss⟩ := (s.reportEnter settings.traced r c).countMiss_eq settings.memoize
  rw [enterRule, hmiss, reportEnter, henter]
  exact ⟨events, misses, rfl⟩

theorem closeRule_eq (outer : Session ρ ν) (rule : Rule ρ ν) (c : Cursor)
    (result : Option (Match ν)) (s : Session ρ ν) :
    ∃ failures, s.failures ≤ failures ∧ outer.closeRule rule c result s = { s with
      failures
      labels := outer.labels
      namedStart := if rule.expect.isSome then outer.namedStart else s.namedStart
      silent := if rule.silent then s.silent - 1 else s.silent } := by
  obtain ⟨name, expect, silent, body⟩ := rule
  cases expect with
  | none => exact ⟨s.failures, le_refl _, rfl⟩
  | some expect =>
      cases result with
      | some m => exact ⟨s.failures, le_refl _, rfl⟩
      | none =>
          exact fail_eq { s with
            labels := outer.labels
            namedStart := outer.namedStart
            silent := if silent then s.silent - 1 else s.silent } c.offset (.named expect)

/-- After its body, the rule may be kept and is reported. -/
theorem leaveRule_eq_closeRule [LawfulBEq ρ] [LawfulHashable ρ] (outer : Session ρ ν)
    (settings : Settings) (g : Grammar ρ ν) (r : ρ) (c : Cursor) (result : Option (Match ν))
    (s : Session ρ ν) :
    ∃ memo events, (∀ key ∈ s.memo, key ∈ memo) ∧
      (∀ key ∈ memo, key ∈ s.memo ∨ key = (r, c.offset)) ∧
      outer.leaveRule settings g r c result s =
        { outer.closeRule (g.rule r) c result s with memo, events } := by
  obtain ⟨memo, hold, hnew, hremember⟩ :=
    (outer.closeRule (g.rule r) c result s).remember_eq settings.memoize r c.offset result
  obtain ⟨events, hreport⟩ := ((outer.closeRule (g.rule r) c result s).remember
    settings.memoize r c.offset result).reportResult_eq settings.traced r c result false
  rw [closeRule_memo] at hold hnew
  refine ⟨memo, events, hold, hnew, ?_⟩
  rw [leaveRule, hreport, hremember]

/-- Leaving a rule puts back what entering it has changed. -/
theorem leaveRule_eq [LawfulBEq ρ] [LawfulHashable ρ] (outer : Session ρ ν) (settings : Settings)
    (g : Grammar ρ ν) (r : ρ) (c : Cursor) (result : Option (Match ν)) (s : Session ρ ν) :
    ∃ memo failures events, (∀ key ∈ s.memo, key ∈ memo) ∧ s.failures ≤ failures ∧
      outer.leaveRule settings g r c result s = { s with
        memo, failures, events
        labels := outer.labels
        namedStart := if (g.rule r).expect.isSome then outer.namedStart else s.namedStart
        silent := if (g.rule r).silent then s.silent - 1 else s.silent } := by
  obtain ⟨failures, hfailures, hclose⟩ := outer.closeRule_eq (g.rule r) c result s
  obtain ⟨memo, events, hmemo, -, hleave⟩ :=
    outer.leaveRule_eq_closeRule settings g r c result s
  refine ⟨memo, failures, events, hmemo, hfailures, ?_⟩
  rw [hleave, hclose]

end Session

/-! ## Growing sessions -/

namespace Session

/-- Nothing of what `s` has found gets lost in `s'`. -/
structure GrowsTo (s s' : Session ρ ν) : Prop where
  overflow : ∀ offset, s.overflow = some offset → s'.overflow = some offset
  failures : s.failures ≤ s'.failures
  memo : ∀ key ∈ s.memo, key ∈ s'.memo

variable {s s' s'' : Session ρ ν}

theorem GrowsTo.of_eq (hoverflow : s'.overflow = s.overflow)
    (hfailures : s'.failures = s.failures) (hmemo : s'.memo = s.memo) : s.GrowsTo s' where
  overflow offset h := hoverflow.trans h
  failures := le_of_eq hfailures.symm
  memo key hkey := by rwa [hmemo]

theorem GrowsTo.refl (s : Session ρ ν) : s.GrowsTo s :=
  .of_eq rfl rfl rfl

theorem GrowsTo.trans (h : s.GrowsTo s') (h' : s'.GrowsTo s'') : s.GrowsTo s'' where
  overflow offset hover := h'.overflow offset (h.overflow offset hover)
  failures := le_trans h.failures h'.failures
  memo key hkey := h'.memo key (h.memo key hkey)

/-- A session that grows to one within the nesting limit is within it. -/
theorem GrowsTo.overflow_eq_none (h : s.GrowsTo s') (hdone : s'.overflow = none) :
    s.overflow = none := by
  cases hover : s.overflow with
  | none => rfl
  | some offset =>
      rw [h.overflow offset hover] at hdone
      cases hdone

theorem growsTo_fail (s : Session ρ ν) (offset : Nat) (e : Expectation) :
    s.GrowsTo (s.fail offset e) := by
  obtain ⟨failures, hle, hfail⟩ := s.fail_eq offset e
  rw [hfail]
  exact ⟨fun _ h => h, hle, fun _ h => h⟩

theorem growsTo_enterRule (s : Session ρ ν) (settings : Settings) (g : Grammar ρ ν) (r : ρ)
    (c : Cursor) : s.GrowsTo (s.enterRule settings g r c) := by
  obtain ⟨events, misses, henter⟩ := s.enterRule_eq settings g r c
  rw [henter]
  exact .of_eq rfl rfl rfl

theorem growsTo_leaveRule [LawfulBEq ρ] [LawfulHashable ρ] (outer : Session ρ ν)
    (settings : Settings) (g : Grammar ρ ν) (r : ρ) (c : Cursor) (result : Option (Match ν))
    (s : Session ρ ν) : s.GrowsTo (outer.leaveRule settings g r c result s) := by
  obtain ⟨memo, failures, events, hmemo, hfailures, hleave⟩ :=
    outer.leaveRule_eq settings g r c result s
  rw [hleave]
  exact ⟨fun _ h => h, hfailures, hmemo⟩

theorem growsTo_kept (s : Session ρ ν) (traced : Bool) (r : ρ) (c : Cursor)
    (result : Option (Match ν)) :
    s.GrowsTo ((s.reportEnter traced r c).countHit.reportResult traced r c result true) := by
  obtain ⟨events, hits, hkept⟩ := s.kept_eq traced r c result
  rw [hkept]
  exact .of_eq rfl rfl rfl

end Session

namespace Runs

variable {g : Grammar ρ ν} {settings : Settings} {n : Nat} {t : Term ρ ν} {c : Cursor}
  {s s' : Session ρ ν} {result : Option (Match ν)}

/-- The session of a run grows, also beyond the nesting limit. -/
theorem growsTo [LawfulBEq ρ] [LawfulHashable ρ] (h : Runs g settings n t c s result s') :
    s.GrowsTo s' := by
  induction h with
  | literal h | charIn hnext hmem | anyChar hnext | ruleRefused hover | seqNil | choiceNil =>
      exact .refl _
  | literalFail h | charInFail h | anyCharFail h => exact Session.growsTo_fail _ _ _
  | ruleLimit hover =>
      refine ⟨fun offset hoffset => ?_, le_refl _, fun _ h => h⟩
      rw [hover] at hoffset
      cases hoffset
  | ruleKept hover hkept => exact Session.growsTo_kept _ _ _ _ _
  | @ruleBody n r c s s₁ result hover hnew hbody ih =>
      have hentered := (s.growsTo_enterRule settings g r c).trans ih
      exact hentered.trans (s.growsTo_leaveRule settings g r c result s₁)
  | seqCons hhead htail ihhead ihtail | choiceLater hhead htail ihhead ihtail =>
      exact ihhead.trans ihtail
  | starMore h hmoved hrest ih ihrest => exact ih.trans ihrest
  | seqTailFail hhead htail ihhead ihtail =>
      exact (ihhead.trans ihtail).trans (.of_eq rfl rfl rfl)
  | seqFail h ih | label h ih => exact ih.trans (.of_eq rfl rfl rfl)
  | not h ih | notFail h ih | and h ih | andFail h ih | action h hact ih | actionReject h hact ih
  | actionFail h ih =>
      refine .trans ?_ (.trans ih ?_)
      · exact .of_eq rfl rfl rfl
      · exact .of_eq rfl rfl rfl
  | starEmpty h hstays ih => exact ih
  | _ h ih => exact ih

/-- After a run the place is as silent as before, and the named rule around is the same. -/
theorem restores [LawfulBEq ρ] [LawfulHashable ρ] (h : Runs g settings n t c s result s') :
    s'.silent = s.silent ∧ s'.namedStart = s.namedStart := by
  induction h with
  | literal h | charIn hnext hmem | anyChar hnext | ruleRefused hover | ruleLimit hover | seqNil
  | choiceNil => exact ⟨rfl, rfl⟩
  | @literalFail _ _ _ _ s | @charInFail _ _ _ s | @anyCharFail _ _ s =>
      obtain ⟨failures, -, hfail⟩ := s.fail_eq _ _
      rw [hfail]
      exact ⟨rfl, rfl⟩
  | @ruleKept n r c s result hover hkept =>
      obtain ⟨events, hits, heq⟩ := s.kept_eq settings.traced r c result
      rw [heq]
      exact ⟨rfl, rfl⟩
  | @ruleBody n r c s s₁ result hover hnew hbody ih =>
      obtain ⟨events, misses, henter⟩ := s.enterRule_eq settings g r c
      obtain ⟨memo, failures, events', -, -, hleave⟩ := s.leaveRule_eq settings g r c result s₁
      rw [henter] at ih
      rw [hleave]
      obtain ⟨hsilent, hnamed⟩ := ih
      refine ⟨?_, ?_⟩
      · by_cases hquiet : (g.rule r).silent = true
        · simp only [hquiet, if_true] at hsilent ⊢
          rw [hsilent, Nat.add_sub_cancel]
        · simp only [hquiet, Bool.false_eq_true, if_false] at hsilent ⊢
          exact hsilent
      · by_cases hexpect : (g.rule r).expect.isSome = true
        · simp only [hexpect, if_true]
        · simp only [hexpect, Bool.false_eq_true, if_false] at hnamed ⊢
          exact hnamed
  | seqCons hhead htail ihhead ihtail | seqTailFail hhead htail ihhead ihtail
  | choiceLater hhead htail ihhead ihtail =>
      exact ⟨ihtail.1.trans ihhead.1, ihtail.2.trans ihhead.2⟩
  | starMore h hmoved hrest ih ihrest => exact ⟨ihrest.1.trans ih.1, ihrest.2.trans ih.2⟩
  | not h ih | notFail h ih | and h ih | andFail h ih =>
      refine ⟨?_, ih.2⟩
      simp only [ih.1, Nat.add_sub_cancel]
  | action h hact ih | actionReject h hact ih | starEmpty h hstays ih => exact ih
  | _ h ih => exact ih

end Runs

/-! ## Evaluations in the course of another one -/

namespace Grammar

/-- `g.CallsInTurn settings size e e₁ e₂`: to carry out `e`, the engine carries out `e₁` and then
`e₂`. -/
inductive CallsInTurn (g : Grammar ρ ν) (settings : Settings) (size : Nat) :
    Evaluation ρ ν → Evaluation ρ ν → Evaluation ρ ν → Prop where
  | seq {n : Nat} {t : Term ρ ν} {ts : List (Term ρ ν)} {c : Cursor} {s s₁ : Session ρ ν}
      {m : Match ν} (hhead : g.evaluate settings size ⟨n, t, c, s⟩ = (some m, s₁)) :
      CallsInTurn g settings size ⟨n, .seq (t :: ts), c, s⟩ ⟨n, t, c, s⟩ ⟨n, .seq ts, m.stop, s₁⟩
  | choice {n : Nat} {t : Term ρ ν} {ts : List (Term ρ ν)} {c : Cursor} {s s₁ : Session ρ ν}
      (hhead : g.evaluate settings size ⟨n, t, c, s⟩ = (none, s₁)) :
      CallsInTurn g settings size ⟨n, .choice (t :: ts), c, s⟩ ⟨n, t, c, s⟩ ⟨n, .choice ts, c, s₁⟩
  | star {n : Nat} {t : Term ρ ν} {c : Cursor} {s s₁ : Session ρ ν} {m : Match ν}
      (hround : g.evaluate settings size ⟨n, t, c, s⟩ = (some m, s₁))
      (hmoved : m.stop.offset ≠ c.offset) :
      CallsInTurn g settings size ⟨n, .star t, c, s⟩ ⟨n, t, c, s⟩ ⟨n, .star t, m.stop, s₁⟩

/-- In the course of `e`, the evaluation `e₁` has ended when `e₂` begins. -/
def Before (g : Grammar ρ ν) (settings : Settings) (source : String)
    (e e₁ e₂ : Evaluation ρ ν) : Prop :=
  ∃ caller first second, g.Reached settings source e caller ∧
    g.CallsInTurn settings source.utf8ByteSize caller first second ∧
    g.Reached settings source first e₁ ∧ g.Reached settings source second e₂

variable {g : Grammar ρ ν} {settings : Settings} {source : String}
  {e e' e₁ e₂ : Evaluation ρ ν}

theorem CallsInTurn.calls_first {size : Nat} (h : g.CallsInTurn settings size e e₁ e₂) :
    g.Calls settings size e e₁ := by
  cases h with
  | seq hhead => exact .seqHead
  | choice hhead => exact .choiceHead
  | star hround hmoved => exact .starRound

theorem CallsInTurn.calls_second {size : Nat} (h : g.CallsInTurn settings size e e₁ e₂) :
    g.Calls settings size e e₂ := by
  cases h with
  | seq hhead => exact .seqTail hhead
  | choice hhead => exact .choiceTail hhead
  | star hround hmoved => exact .starAgain hround hmoved

theorem CallsInTurn.session_first {size : Nat} (h : g.CallsInTurn settings size e e₁ e₂) :
    e₁.session = e.session := by
  cases h with
  | seq hhead | choice hhead | star hhead hmoved => rfl

/-- The second evaluation begins in the session that the first one ended in. -/
theorem CallsInTurn.session_second {size : Nat} (h : g.CallsInTurn settings size e e₁ e₂) :
    e₂.session = (g.evaluate settings size e₁).2 := by
  cases h with
  | seq hhead | choice hhead | star hhead hmoved => rw [hhead]

theorem Before.of_reached (h : g.Before settings source e e₁ e')
    (hreached : g.Reached settings source e' e₂) : g.Before settings source e e₁ e₂ := by
  obtain ⟨caller, first, second, hcaller, hturn, hfirst, hsecond⟩ := h
  exact ⟨caller, first, second, hcaller, hturn, hfirst, hsecond.trans hreached⟩

theorem Before.reached_first (h : g.Before settings source e e₁ e₂) :
    g.Reached settings source e e₁ := by
  obtain ⟨caller, first, second, hcaller, hturn, hfirst, -⟩ := h
  exact (hcaller.tail hturn.calls_first).trans hfirst

theorem Before.reached_second (h : g.Before settings source e e₁ e₂) :
    g.Reached settings source e e₂ := by
  obtain ⟨caller, first, second, hcaller, hturn, -, hsecond⟩ := h
  exact (hcaller.tail hturn.calls_second).trans hsecond

/-- A call either begins in a session with the same table and the same nesting limit, or it is the
second of two. -/
theorem Calls.same_or_second {size : Nat} (h : g.Calls settings size e e') :
    e'.session.memo = e.session.memo ∧ e'.session.overflow = e.session.overflow ∨
      ∃ first, g.CallsInTurn settings size e first e' := by
  cases h with
  | rule hover hnew => exact .inl ⟨Session.enterRule_memo .., Session.enterRule_overflow ..⟩
  | seqTail hhead => exact .inr ⟨_, .seq hhead⟩
  | choiceTail hhead => exact .inr ⟨_, .choice hhead⟩
  | starAgain hround hmoved => exact .inr ⟨_, .star hround hmoved⟩
  | seqHead | choiceHead | starRound | plus | opt | not | and | label | action | text | pick =>
      exact .inl ⟨rfl, rfl⟩

variable [LawfulBEq ρ] [LawfulHashable ρ]

/-- The session of an evaluation grows into that of a call. -/
theorem Calls.growsTo_session (h : g.Calls settings source.utf8ByteSize e e')
    (he : e.Placed source) : e.session.GrowsTo e'.session := by
  cases h with
  | rule hover hnew => exact Session.growsTo_enterRule ..
  | seqTail hhead | choiceTail hhead | starAgain hhead hmoved =>
      exact (runs_of_evaluate he.place he.session hhead).growsTo
  | not | and | action => exact .of_eq rfl rfl rfl
  | seqHead | choiceHead | starRound | plus | opt | label | text | pick => exact .refl _

/-- What a call ends in grows into what the evaluation ends in. -/
theorem Calls.growsTo_outcome (h : g.Calls settings source.utf8ByteSize e e')
    (he : e.Placed source) :
    (g.evaluate settings source.utf8ByteSize e').2.GrowsTo
      (g.evaluate settings source.utf8ByteSize e).2 := by
  have hcaller := runs_evaluate g settings he
  have hcalled := runs_evaluate g settings (h.placed he)
  generalize (g.evaluate settings source.utf8ByteSize e).1 = result at hcaller
  generalize (g.evaluate settings source.utf8ByteSize e).2 = s' at hcaller ⊢
  generalize (g.evaluate settings source.utf8ByteSize e').1 = result' at hcalled
  generalize (g.evaluate settings source.utf8ByteSize e').2 = s'' at hcalled ⊢
  cases h with
  | rule hover hnew =>
      cases hcaller with
      | ruleRefused hover' =>
          rw [hover] at hover'
          cases hover'
      | ruleKept hover' hkept =>
          rw [hnew] at hkept
          cases hkept
      | ruleBody hover' hnew' hbody =>
          obtain ⟨-, rfl⟩ := hbody.functional hcalled
          exact Session.growsTo_leaveRule ..
  | seqHead =>
      cases hcaller with
      | seqCons hhead htail =>
          obtain ⟨-, rfl⟩ := hhead.functional hcalled
          exact htail.growsTo
      | seqFail hhead =>
          obtain ⟨-, rfl⟩ := hhead.functional hcalled
          exact .of_eq rfl rfl rfl
      | seqTailFail hhead htail =>
          obtain ⟨-, rfl⟩ := hhead.functional hcalled
          exact htail.growsTo.trans (.of_eq rfl rfl rfl)
  | seqTail hhead =>
      have hfirst := runs_of_evaluate he.place he.session hhead
      cases hcaller with
      | seqCons hhead' htail | seqTailFail hhead' htail =>
          obtain ⟨hm, rfl⟩ := hhead'.functional hfirst
          cases hm
          obtain ⟨-, rfl⟩ := htail.functional hcalled
          exact .of_eq rfl rfl rfl
      | seqFail hhead' =>
          obtain ⟨hm, -⟩ := hhead'.functional hfirst
          cases hm
  | choiceHead =>
      cases hcaller with
      | choiceHere hhead =>
          obtain ⟨-, rfl⟩ := hhead.functional hcalled
          exact .refl _
      | choiceLater hhead htail =>
          obtain ⟨-, rfl⟩ := hhead.functional hcalled
          exact htail.growsTo
  | choiceTail hhead =>
      have hfirst := runs_of_evaluate he.place he.session hhead
      cases hcaller with
      | choiceHere hhead' =>
          obtain ⟨hm, -⟩ := hhead'.functional hfirst
          cases hm
      | choiceLater hhead' htail =>
          obtain ⟨-, rfl⟩ := hhead'.functional hfirst
          obtain ⟨-, rfl⟩ := htail.functional hcalled
          exact .refl _
  | starRound =>
      cases hcaller with
      | starStop hround | starEmpty hround hstays =>
          obtain ⟨-, rfl⟩ := hround.functional hcalled
          exact .refl _
      | starMore hround hmoved hrest =>
          obtain ⟨-, rfl⟩ := hround.functional hcalled
          exact hrest.growsTo
  | starAgain hround hmoved =>
      have hfirst := runs_of_evaluate he.place he.session hround
      cases hcaller with
      | starStop hround' =>
          obtain ⟨hm, -⟩ := hround'.functional hfirst
          cases hm
      | starEmpty hround' hstays =>
          obtain ⟨hm, -⟩ := hround'.functional hfirst
          cases hm
          exact absurd hstays hmoved
      | starMore hround' hmoved' hrest =>
          obtain ⟨hm, rfl⟩ := hround'.functional hfirst
          cases hm
          obtain ⟨-, rfl⟩ := hrest.functional hcalled
          exact .refl _
  | plus =>
      cases hcaller with
      | plus hstar | plusFail hstar =>
          obtain ⟨-, rfl⟩ := hstar.functional hcalled
          exact .refl _
  | opt =>
      cases hcaller with
      | opt hterm | optAbsent hterm =>
          obtain ⟨-, rfl⟩ := hterm.functional hcalled
          exact .refl _
  | not =>
      cases hcaller with
      | not hterm | notFail hterm =>
          obtain ⟨-, rfl⟩ := hterm.functional hcalled
          exact .of_eq rfl rfl rfl
  | and =>
      cases hcaller with
      | and hterm | andFail hterm =>
          obtain ⟨-, rfl⟩ := hterm.functional hcalled
          exact .of_eq rfl rfl rfl
  | label =>
      cases hcaller with
      | label hterm | labelFail hterm =>
          obtain ⟨-, rfl⟩ := hterm.functional hcalled
          exact .of_eq rfl rfl rfl
  | action =>
      cases hcaller with
      | action hterm hact | actionReject hterm hact | actionFail hterm =>
          obtain ⟨-, rfl⟩ := hterm.functional hcalled
          exact .of_eq rfl rfl rfl
  | text =>
      cases hcaller with
      | text hterm | textFail hterm =>
          obtain ⟨-, rfl⟩ := hterm.functional hcalled
          exact .refl _
  | pick =>
      cases hcaller with
      | pick hterm | pickFail hterm =>
          obtain ⟨-, rfl⟩ := hterm.functional hcalled
          exact .refl _

theorem growsTo_of_reached (h : g.Reached settings source e e') (he : e.Placed source) :
    e.session.GrowsTo e'.session ∧
      (g.evaluate settings source.utf8ByteSize e').2.GrowsTo
        (g.evaluate settings source.utf8ByteSize e).2 := by
  induction h with
  | refl => exact ⟨.refl _, .refl _⟩
  | tail hreached hcall ih =>
      have hplaced := placed_of_reached hreached he
      exact ⟨ih.1.trans (hcall.growsTo_session hplaced),
        (hcall.growsTo_outcome hplaced).trans ih.2⟩

/-- What an earlier evaluation ended in grows into the session of a later one. -/
theorem Before.growsTo (h : g.Before settings source e e₁ e₂) (he : e.Placed source) :
    (g.evaluate settings source.utf8ByteSize e₁).2.GrowsTo e₂.session := by
  obtain ⟨caller, first, second, hcaller, hturn, hfirst, hsecond⟩ := h
  have hplaced := placed_of_reached hcaller he
  have hended := (growsTo_of_reached hfirst (hturn.calls_first.placed hplaced)).2
  have hbegins := (growsTo_of_reached hsecond (hturn.calls_second.placed hplaced)).1
  rw [hturn.session_second] at hbegins
  exact hended.trans hbegins

end Grammar

end PegScript

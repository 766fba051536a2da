import PegScript.Proofs.Semantics.Reentry

/-!
# Runs that follow other runs

A run of one grammar can be followed step by step by a run of another grammar, or of the same one
under other settings, where the two differ only in what they do about a rule.  A `Simulation` says
how: a relation between the sessions of both, kept by everything that a term does to its session,
and for each way in which a rule can end a run of the rule that ends in the same way.  Then whole
runs are followed (`Runs.simulate`), and so are parses (`Simulation.parseFrom`).
-/

namespace PegScript

variable {ρ ν : Type} [BEq ρ] [Hashable ρ]

/-- Runs of `g` from sessions `s` are followed by runs of `g'` from sessions `s₁` with `R s s₁`.  If
`short` holds, only the runs are that stay within the nesting limit. -/
structure Simulation (g g' : Grammar ρ ν) (settings settings' : Settings) (source : String)
    (short : Prop) (R : Session ρ ν → Session ρ ν → Prop) : Prop where
  placed : ∀ {s s₁ : Session ρ ν}, R s s₁ → s.Placed source
  labels : ∀ {s s₁ : Session ρ ν}, R s s₁ → s₁.labels = s.labels
  relabel : ∀ {s s₁ : Session ρ ν} (labels : List (String × Value ν)), R s s₁ →
    R { s with labels } { s₁ with labels }
  silence : ∀ {s s₁ : Session ρ ν}, R s s₁ →
    R { s with silent := s.silent + 1 } { s₁ with silent := s₁.silent + 1 }
  endSilence : ∀ {s s₁ : Session ρ ν}, R s s₁ →
    R { s with silent := s.silent - 1 } { s₁ with silent := s₁.silent - 1 }
  fail : ∀ {s s₁ : Session ρ ν} {c : Cursor} (e : Expectation), R s s₁ → c.IsPlaceOf source →
    R (s.fail c.offset e) (s₁.fail c.offset e)
  refused : ∀ {n : Nat} {r : ρ} {c : Cursor} {s s₁ : Session ρ ν} {offset : Nat}, ¬ short →
    R s s₁ → s.overflow = some offset →
    ∃ s₁', Runs g' settings' n (.rule r) c s₁ none s₁' ∧ R s s₁'
  limit : ∀ {r : ρ} {c : Cursor} {s s₁ : Session ρ ν}, ¬ short → c.IsPlaceOf source →
    R s s₁ → s.overflow = none →
    ∃ s₁', Runs g' settings' 0 (.rule r) c s₁ none s₁' ∧ R { s with overflow := some c.offset } s₁'
  kept : ∀ {n : Nat} {r : ρ} {c : Cursor} {s s₁ : Session ρ ν} {result : Option (Match ν)},
    c.IsPlaceOf source → R s s₁ → s.overflow = none →
    s.memoized? settings.memoize r c.offset = some result →
    ∃ s₁', Runs g' settings' (n + 1) (.rule r) c s₁ result s₁' ∧
      R ((s.reportEnter settings.traced r c).countHit.reportResult settings.traced r c result
        true) s₁'
  /-- The body of the rule may be followed from any session that is related to the one in which the
  body is run. -/
  body : ∀ {n : Nat} {r : ρ} {c : Cursor} {s s' s₁ : Session ρ ν} {result : Option (Match ν)},
    c.IsPlaceOf source → R s s₁ → s.overflow = none →
    s.memoized? settings.memoize r c.offset = none →
    Runs g settings n (g.rule r).body c (s.enterRule settings g r c) result s' →
    (short → s'.overflow = none) →
    (∀ {s₂ : Session ρ ν}, R (s.enterRule settings g r c) s₂ →
      ∃ s₂', Runs g' settings' n (g.rule r).body c s₂ result s₂' ∧ R s' s₂') →
    ∃ s₁', Runs g' settings' (n + 1) (.rule r) c s₁ result s₁' ∧
      R (s.leaveRule settings g r c result s') s₁'

variable [LawfulBEq ρ] [LawfulHashable ρ] {g g' : Grammar ρ ν} {settings settings' : Settings}
  {source : String} {short : Prop} {R : Session ρ ν → Session ρ ν → Prop}

/-- Where a run is followed, the following run has the same result and the sessions after both are
related again.  The induction is on the run. -/
theorem Runs.simulate (sim : Simulation g g' settings settings' source short R) {n : Nat}
    {t : Term ρ ν} {c : Cursor} {s s' s₁ : Session ρ ν} {result : Option (Match ν)}
    (h : Runs g settings n t c s result s') (hplace : c.IsPlaceOf source)
    (hdone : short → s'.overflow = none) (hs : R s s₁) :
    ∃ s₁', Runs g' settings' n t c s₁ result s₁' ∧ R s' s₁' := by
  induction h generalizing s₁ with
  | literal h => exact ⟨s₁, .literal h, hs⟩
  | literalFail h => exact ⟨_, .literalFail h, sim.fail _ hs hplace⟩
  | charIn hnext hmem => exact ⟨s₁, .charIn hnext hmem, hs⟩
  | charInFail h => exact ⟨_, .charInFail h, sim.fail _ hs hplace⟩
  | anyChar hnext => exact ⟨s₁, .anyChar hnext, hs⟩
  | anyCharFail hnext => exact ⟨_, .anyCharFail hnext, sim.fail _ hs hplace⟩
  | ruleRefused hover =>
      apply sim.refused _ hs hover
      intro hshort
      rw [hdone hshort] at hover
      cases hover
  | ruleLimit hover =>
      apply sim.limit _ hplace hs hover
      intro hshort
      cases hdone hshort
  | ruleKept hover hkept => exact sim.kept hplace hs hover hkept
  | ruleBody hover hnew hbody ih =>
      rw [Session.leaveRule_overflow] at hdone
      exact sim.body hplace hs hover hnew hbody hdone (ih hplace hdone)
  | seqNil => exact ⟨s₁, .seqNil, hs⟩
  | seqCons hhead htail ihhead ihtail =>
      have hstop := hplace.move ((hhead.placed hplace (sim.placed hs)).2 _ rfl)
      obtain ⟨s₂, hhead', hs₂⟩ :=
        ihhead hplace (fun hshort => htail.overflow_eq_none (hdone hshort)) hs
      obtain ⟨s₃, htail', hs₃⟩ := ihtail hstop hdone hs₂
      exact ⟨s₃, .seqCons hhead' htail', hs₃⟩
  | seqFail hhead ih =>
      obtain ⟨s₂, hhead', hs₂⟩ := ih hplace hdone hs
      rw [← sim.labels hs]
      exact ⟨_, .seqFail hhead', sim.relabel _ hs₂⟩
  | seqTailFail hhead htail ihhead ihtail =>
      have hstop := hplace.move ((hhead.placed hplace (sim.placed hs)).2 _ rfl)
      obtain ⟨s₂, hhead', hs₂⟩ :=
        ihhead hplace (fun hshort => htail.overflow_eq_none (hdone hshort)) hs
      obtain ⟨s₃, htail', hs₃⟩ := ihtail hstop hdone hs₂
      rw [← sim.labels hs]
      exact ⟨_, .seqTailFail hhead' htail', sim.relabel _ hs₃⟩
  | choiceNil => exact ⟨s₁, .choiceNil, hs⟩
  | choiceHere h ih =>
      obtain ⟨s₂, h', hs₂⟩ := ih hplace hdone hs
      exact ⟨s₂, .choiceHere h', hs₂⟩
  | choiceLater hfail h ihfail ih =>
      obtain ⟨s₂, hfail', hs₂⟩ :=
        ihfail hplace (fun hshort => h.overflow_eq_none (hdone hshort)) hs
      obtain ⟨s₃, h', hs₃⟩ := ih hplace hdone hs₂
      exact ⟨s₃, .choiceLater hfail' h', hs₃⟩
  | starStop h ih =>
      obtain ⟨s₂, h', hs₂⟩ := ih hplace hdone hs
      exact ⟨s₂, .starStop h', hs₂⟩
  | starEmpty h hstays ih =>
      obtain ⟨s₂, h', hs₂⟩ := ih hplace hdone hs
      exact ⟨s₂, .starEmpty h' hstays, hs₂⟩
  | starMore h hmoved hrest ih ihrest =>
      have hstop := hplace.move ((h.placed hplace (sim.placed hs)).2 _ rfl)
      obtain ⟨s₂, h', hs₂⟩ :=
        ih hplace (fun hshort => hrest.overflow_eq_none (hdone hshort)) hs
      obtain ⟨s₃, hrest', hs₃⟩ := ihrest hstop hdone hs₂
      exact ⟨s₃, .starMore h' hmoved hrest', hs₃⟩
  | plus h ih =>
      obtain ⟨s₂, h', hs₂⟩ := ih hplace hdone hs
      exact ⟨s₂, .plus h', hs₂⟩
  | plusFail h ih =>
      obtain ⟨s₂, h', hs₂⟩ := ih hplace hdone hs
      exact ⟨s₂, .plusFail h', hs₂⟩
  | opt h ih =>
      obtain ⟨s₂, h', hs₂⟩ := ih hplace hdone hs
      exact ⟨s₂, .opt h', hs₂⟩
  | optAbsent h ih =>
      obtain ⟨s₂, h', hs₂⟩ := ih hplace hdone hs
      exact ⟨s₂, .optAbsent h', hs₂⟩
  | not h ih =>
      obtain ⟨s₂, h', hs₂⟩ := ih hplace hdone (sim.silence hs)
      rw [← sim.labels hs]
      exact ⟨_, .not h', sim.relabel _ (sim.endSilence hs₂)⟩
  | notFail h ih =>
      obtain ⟨s₂, h', hs₂⟩ := ih hplace hdone (sim.silence hs)
      rw [← sim.labels hs]
      exact ⟨_, .notFail h', sim.relabel _ (sim.endSilence hs₂)⟩
  | and h ih =>
      obtain ⟨s₂, h', hs₂⟩ := ih hplace hdone (sim.silence hs)
      rw [← sim.labels hs]
      exact ⟨_, .and h', sim.relabel _ (sim.endSilence hs₂)⟩
  | andFail h ih =>
      obtain ⟨s₂, h', hs₂⟩ := ih hplace hdone (sim.silence hs)
      rw [← sim.labels hs]
      exact ⟨_, .andFail h', sim.relabel _ (sim.endSilence hs₂)⟩
  | label h ih =>
      obtain ⟨s₂, h', hs₂⟩ := ih hplace hdone hs
      have hlabels := sim.labels hs₂
      refine ⟨_, .label h', ?_⟩
      rw [hlabels]
      exact sim.relabel _ hs₂
  | labelFail h ih =>
      obtain ⟨s₂, h', hs₂⟩ := ih hplace hdone hs
      exact ⟨s₂, .labelFail h', hs₂⟩
  | action h hact ih =>
      obtain ⟨s₂, h', hs₂⟩ := ih hplace hdone (sim.relabel [] hs)
      rw [← sim.labels hs₂] at hact
      rw [← sim.labels hs]
      exact ⟨_, .action h' hact, sim.relabel _ hs₂⟩
  | actionReject h hact ih =>
      obtain ⟨s₂, h', hs₂⟩ := ih hplace hdone (sim.relabel [] hs)
      rw [← sim.labels hs₂] at hact
      rw [← sim.labels hs]
      exact ⟨_, .actionReject h' hact, sim.relabel _ hs₂⟩
  | actionFail h ih =>
      obtain ⟨s₂, h', hs₂⟩ := ih hplace hdone (sim.relabel [] hs)
      rw [← sim.labels hs]
      exact ⟨_, .actionFail h', sim.relabel _ hs₂⟩
  | text h ih =>
      obtain ⟨s₂, h', hs₂⟩ := ih hplace hdone hs
      exact ⟨s₂, .text h', hs₂⟩
  | textFail h ih =>
      obtain ⟨s₂, h', hs₂⟩ := ih hplace hdone hs
      exact ⟨s₂, .textFail h', hs₂⟩
  | pick h ih =>
      obtain ⟨s₂, h', hs₂⟩ := ih hplace hdone hs
      exact ⟨s₂, .pick h', hs₂⟩
  | pickFail h ih =>
      obtain ⟨s₂, h', hs₂⟩ := ih hplace hdone hs
      exact ⟨s₂, .pickFail h', hs₂⟩

/-- Parses with one limit are followed: both conclude from the same result. -/
theorem Simulation.parseFrom (sim : Simulation g g' settings settings' source short R)
    (hdepth : settings'.maxDepth = settings.maxDepth) (hempty : R {} {}) (start : ρ)
    (hdone : short → (g.parseFrom settings start source).session.overflow = none) :
    ∃ result s s₁, R s s₁ ∧
      g.parseFrom settings start source = ⟨Grammar.conclude source result s, s⟩ ∧
      g'.parseFrom settings' start source = ⟨Grammar.conclude source result s₁, s₁⟩ := by
  obtain ⟨result, s, hrun, hparse⟩ := Grammar.exists_runs_parseFrom g settings start source
  rw [hparse] at hdone
  obtain ⟨s₁, hrun', hs⟩ := hrun.simulate sim (Cursor.start_isPlaceOf source) hdone hempty
  rw [← hdepth] at hrun'
  exact ⟨result, s, s₁, hs, hparse, hrun'.parseFrom_eq⟩

end PegScript

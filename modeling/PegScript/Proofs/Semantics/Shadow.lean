import PegScript.Proofs.Semantics.Reentry

/-!
# Other runs behind a run without the memo table

A run without the memo table that stays within the nesting limit has a shadow in every session, with
or without a table, that starts within the limit and may go at least as deep: a run of the same term
at the same place with the same result (`Runs.exists_shadow`).  Where the shadow finds an outcome in
its table it skips what the run does to come to it, so its record of failures says no more
(`Session.Trails`), and what it adds to its table are outcomes of rules that the run evaluates.

So the memo table does not show in the outcome (`Grammar.parseFrom_memoize`), and a parse with it
only loses diagnostics: its diagnosis is not further than that of the parse without the table, and if
both are at the same offset it shows no further text (`Grammar.parseFrom_memoize_trails`).
-/

namespace PegScript

variable {ρ ν : Type} [BEq ρ] [Hashable ρ]

/-! ## Sessions that a run may start in -/

/-- The session is within the nesting limit, knows places of the source only, and has a table of
derived outcomes. -/
structure Session.Ready (g : Grammar ρ ν) (source : String) (s : Session ρ ν) : Prop where
  placed : s.Placed source
  faithful : s.Faithful g source
  within : s.overflow = none

section Ready

variable {g : Grammar ρ ν} {settings settings' : Settings} {source : String} {n n' : Nat}
  {t : Term ρ ν} {c : Cursor} {s s' s₁ s₁' : Session ρ ν} {result result' : Option (Match ν)}

theorem Session.ready_empty (g : Grammar ρ ν) (source : String) :
    ({} : Session ρ ν).Ready g source :=
  ⟨placed_empty, faithful_of_memo_empty g source rfl, rfl⟩

theorem Session.Ready.of_eq (h : s.Ready g source) (hmemo : s'.memo = s.memo)
    (hfailures : s'.failures = s.failures) (hoverflow : s'.overflow = s.overflow)
    (hevents : s'.events = s.events) : s'.Ready g source :=
  ⟨h.placed.of_eq hmemo hfailures hoverflow hevents, h.faithful.of_memo_eq hmemo,
    hoverflow.trans h.within⟩

theorem Session.Ready.silence (h : s.Ready g source) :
    ({ s with silent := s.silent + 1 } : Session ρ ν).Ready g source :=
  h.of_eq rfl rfl rfl rfl

theorem Session.Ready.relabel (h : s.Ready g source) (labels : List (String × Value ν)) :
    ({ s with labels } : Session ρ ν).Ready g source :=
  h.of_eq rfl rfl rfl rfl

theorem Session.Ready.enterRule (h : s.Ready g source) (settings : Settings) (r : ρ)
    (hplace : c.IsPlaceOf source) : (s.enterRule settings g r c).Ready g source := by
  refine ⟨h.placed.enterRule settings g r hplace, h.faithful.of_memo_eq (by simp), ?_⟩
  rw [Session.enterRule_overflow, h.within]

variable [LawfulBEq ρ] [LawfulHashable ρ]

theorem Runs.ready (h : Runs g settings n t c s result s') (hplace : c.IsPlaceOf source)
    (hs : s.Ready g source) (hdone : s'.overflow = none) : s'.Ready g source :=
  ⟨(h.placed hplace hs.placed).1, (h.conforms hplace hs.faithful hdone).1, hdone⟩

/-- Two runs of one term at one place within the limit have the same result, and bind the same
labels. -/
theorem Runs.agrees (h : Runs g settings n t c s result s')
    (h' : Runs g settings' n' t c s₁ result' s₁') (hplace : c.IsPlaceOf source)
    (hs : s.Ready g source) (hs₁ : s₁.Ready g source) (hdone : s'.overflow = none)
    (hdone' : s₁'.overflow = none) :
    result' = result ∧ (s₁.labels = s.labels → s₁'.labels = s'.labels) := by
  have hconforms := (h.conforms hplace hs.faithful hdone).2
  have hconforms' := (h'.conforms hplace hs₁.faithful hdone').2
  cases hconforms with
  | fails hderives hlabels =>
      cases hconforms' with
      | fails hderives' hlabels' =>
          exact ⟨rfl, fun hsame => hlabels'.trans (hsame.trans hlabels.symm)⟩
      | reads hderives' hlabels' => cases hderives.functional hderives'
  | reads hderives hlabels =>
      cases hconforms' with
      | fails hderives' hlabels' => cases hderives.functional hderives'
      | reads hderives' hlabels' =>
          cases hderives.functional hderives'
          refine ⟨rfl, fun hsame => ?_⟩
          rw [hlabels', hlabels, hsame]

end Ready

/-! ## Records that say no more -/

namespace Session

/-- Both sessions take down the same failures, and the record of the first says no more. -/
structure Trails (s₁ s : Session ρ ν) : Prop where
  silent : s₁.silent = s.silent
  namedStart : s₁.namedStart = s.namedStart
  failures : s₁.failures ≤ s.failures

variable {s s' s₁ s₂ : Session ρ ν} {c : Cursor}

theorem Trails.refl (s : Session ρ ν) : s.Trails s :=
  ⟨rfl, rfl, le_refl _⟩

theorem Trails.relabel (h : s₁.Trails s) (labels labels₁ : List (String × Value ν)) :
    ({ s₁ with labels := labels₁ } : Session ρ ν).Trails { s with labels } :=
  ⟨h.silent, h.namedStart, h.failures⟩

theorem Trails.silence (h : s₁.Trails s) :
    ({ s₁ with silent := s₁.silent + 1 } : Session ρ ν).Trails
      { s with silent := s.silent + 1 } :=
  ⟨congrArg (· + 1) h.silent, h.namedStart, h.failures⟩

theorem Trails.endSilence (h : s₁.Trails s) (labels labels₁ : List (String × Value ν)) :
    ({ s₁ with silent := s₁.silent - 1, labels := labels₁ } : Session ρ ν).Trails
      { s with silent := s.silent - 1, labels } :=
  ⟨congrArg (· - 1) h.silent, h.namedStart, h.failures⟩

theorem Trails.fail (h : s₁.Trails s) (offset : Nat) (e : Expectation) :
    (s₁.fail offset e).Trails (s.fail offset e) := by
  by_cases hcounts : s.silent = 0 ∧ s.namedStart ≠ some offset
  · rw [Session.fail, Session.fail, if_pos hcounts, if_pos (by rwa [h.silent, h.namedStart])]
    exact ⟨h.silent, h.namedStart, FurthestFailure.add_le_add h.failures offset e⟩
  · rw [Session.fail, Session.fail, if_neg hcounts, if_neg (by rwa [h.silent, h.namedStart])]
    exact h

theorem Trails.enterRule (h : s₁.Trails s) (settings settings' : Settings) (g : Grammar ρ ν)
    (r : ρ) : (s₁.enterRule settings' g r c).Trails (s.enterRule settings g r c) := by
  obtain ⟨events, misses, henter⟩ := s.enterRule_eq settings g r c
  obtain ⟨events₁, misses₁, henter₁⟩ := s₁.enterRule_eq settings' g r c
  rw [henter, henter₁]
  refine ⟨?_, ?_, h.failures⟩
  · simp only [h.silent]
  · simp only [h.namedStart]

theorem Trails.closeRule (houter : s₁.Trails s) (h : s₂.Trails s') (rule : Rule ρ ν)
    (result : Option (Match ν)) :
    (s₁.closeRule rule c result s₂).Trails (s.closeRule rule c result s') := by
  obtain ⟨name, expect, silent, body⟩ := rule
  have hrestored : ({ s₂ with
      labels := s₁.labels
      namedStart := if expect.isSome then s₁.namedStart else s₂.namedStart
      silent := if silent then s₂.silent - 1 else s₂.silent } : Session ρ ν).Trails { s' with
      labels := s.labels
      namedStart := if expect.isSome then s.namedStart else s'.namedStart
      silent := if silent then s'.silent - 1 else s'.silent } := by
    refine ⟨?_, ?_, h.failures⟩
    · simp only [h.silent]
    · simp only [houter.namedStart, h.namedStart]
  cases expect with
  | none => exact hrestored
  | some expect =>
      cases result with
      | some m => exact hrestored
      | none => exact hrestored.fail c.offset (.named expect)

variable [LawfulBEq ρ] [LawfulHashable ρ]

theorem Trails.leaveRule (houter : s₁.Trails s) (h : s₂.Trails s') (settings settings' : Settings)
    (g : Grammar ρ ν) (r : ρ) (result : Option (Match ν)) :
    (s₁.leaveRule settings' g r c result s₂).Trails (s.leaveRule settings g r c result s') := by
  obtain ⟨memo, events, -, -, hleave⟩ := s.leaveRule_eq_closeRule settings g r c result s'
  obtain ⟨memo₁, events₁, -, -, hleave₁⟩ := s₁.leaveRule_eq_closeRule settings' g r c result s₂
  obtain ⟨hsilent, hnamed, hfailures⟩ := houter.closeRule h (c := c) (g.rule r) result
  rw [hleave, hleave₁]
  exact ⟨hsilent, hnamed, hfailures⟩

end Session

/-! ## Shadows -/

namespace Grammar

/-- In the course of `e` the rule of the key is evaluated at the offset of the key. -/
def Evaluates (g : Grammar ρ ν) (settings : Settings) (source : String) (e : Evaluation ρ ν)
    (key : ρ × Nat) : Prop :=
  ∃ e', g.Reached settings source e e' ∧ e'.term = .rule key.1 ∧ e'.place.offset = key.2

/-- The evaluation `e` ends in the session `s'`, and behind it a session went from `s₁` to `s₂`. -/
structure Shadows (g : Grammar ρ ν) (settings : Settings) (source : String)
    (e : Evaluation ρ ν) (s' s₁ s₂ : Session ρ ν) : Prop where
  within : s₂.overflow = none
  trails : s₁.Trails e.session → s₂.Trails s'
  evaluates : ∀ key ∈ s₂.memo, key ∈ s₁.memo ∨ g.Evaluates settings source e key

variable {g : Grammar ρ ν} {settings : Settings} {source : String} {e e' e₁ e₂ : Evaluation ρ ν}
  {s' s₁ s₂ s₃ : Session ρ ν} {key : ρ × Nat}

theorem Evaluates.of_calls (h : g.Evaluates settings source e' key)
    (hcall : g.Calls settings source.utf8ByteSize e e') : g.Evaluates settings source e key := by
  obtain ⟨rule, hreached, hrule⟩ := h
  exact ⟨rule, .head hcall hreached, hrule⟩

theorem Shadows.refl (hwithin : s₁.overflow = none) :
    g.Shadows settings source e e.session s₁ s₁ :=
  ⟨hwithin, id, fun _ hkey => .inl hkey⟩

/-- The shadow of a call is one of the caller, whatever session the two start it in. -/
theorem Shadows.of_calls {s₀ : Session ρ ν} (h : g.Shadows settings source e' s' s₁ s₂)
    (hcall : g.Calls settings source.utf8ByteSize e e')
    (htrails : s₀.Trails e.session → s₁.Trails e'.session) (hmemo : s₁.memo = s₀.memo) :
    g.Shadows settings source e s' s₀ s₂ := by
  refine ⟨h.within, fun h₀ => h.trails (htrails h₀), fun key hkey => ?_⟩
  rw [← hmemo]
  exact (h.evaluates key hkey).imp_right fun hevaluates => hevaluates.of_calls hcall

/-- What is done with the outcome leaves the shadow one. -/
theorem Shadows.finish {s'' : Session ρ ν} (h : g.Shadows settings source e s' s₁ s₂)
    (htrails : s₂.Trails s' → s₃.Trails s'') (hoverflow : s₃.overflow = s₂.overflow)
    (hmemo : s₃.memo = s₂.memo) : g.Shadows settings source e s'' s₁ s₃ := by
  refine ⟨hoverflow.trans h.within, fun h₁ => htrails (h.trails h₁), ?_⟩
  rw [hmemo]
  exact h.evaluates

/-- Shadows of two evaluations in turn make one shadow. -/
theorem Shadows.of_callsInTurn (hturn : g.CallsInTurn settings source.utf8ByteSize e e₁ e₂)
    (h₁ : g.Shadows settings source e₁ e₂.session s₁ s₂)
    (h₂ : g.Shadows settings source e₂ s' s₂ s₃) : g.Shadows settings source e s' s₁ s₃ := by
  refine ⟨h₂.within, fun htrails => h₂.trails (h₁.trails (hturn.session_first ▸ htrails)), ?_⟩
  intro key hkey
  rcases h₂.evaluates key hkey with hmiddle | hsecond
  · exact (h₁.evaluates key hmiddle).imp_right fun h => h.of_calls hturn.calls_first
  · exact .inr (hsecond.of_calls hturn.calls_second)

variable [LawfulBEq ρ] [LawfulHashable ρ] {settings' : Settings} {n : Nat} {r : ρ} {c : Cursor}
  {s : Session ρ ν} {result : Option (Match ν)}

/-- A session that only takes note of a kept outcome is a shadow of every run, whose own record can
only grow. -/
theorem Shadows.of_kept {t : Term ρ ν} (hrun : Runs g settings n t c s result s')
    (hwithin : s₁.overflow = none) (source : String) (traced : Bool) (r : ρ)
    (kept : Option (Match ν)) :
    g.Shadows settings source ⟨n, t, c, s⟩ s' s₁
      ((s₁.reportEnter traced r c).countHit.reportResult traced r c kept true) := by
  obtain ⟨events, hits, heq⟩ := s₁.kept_eq traced r c kept
  rw [heq]
  obtain ⟨hsilent, hnamed⟩ := hrun.restores
  refine ⟨hwithin, fun htrails => ⟨?_, ?_, ?_⟩, fun _ hkey => .inl hkey⟩
  · exact htrails.silent.trans hsilent.symm
  · exact htrails.namedStart.trans hnamed.symm
  · exact le_trans htrails.failures hrun.growsTo.failures

/-- The shadow of the body of a rule becomes one of the rule when both leave the rule.  The table
gets the outcome of this rule besides those from the body. -/
theorem Shadows.leaveRule
    (h : g.Shadows settings source ⟨n, (g.rule r).body, c, s.enterRule settings g r c⟩ s'
      (s₁.enterRule settings' g r c) s₂)
    (hover : s.overflow = none) (hnew : s.memoized? settings.memoize r c.offset = none)
    (result : Option (Match ν)) :
    g.Shadows settings source ⟨n + 1, .rule r, c, s⟩ (s.leaveRule settings g r c result s') s₁
      (s₁.leaveRule settings' g r c result s₂) := by
  refine ⟨?_, fun htrails => ?_, fun key hkey => ?_⟩
  · rw [Session.leaveRule_overflow, h.within]
  · exact htrails.leaveRule (h.trails (htrails.enterRule settings settings' g r))
      settings settings' g r result
  · obtain ⟨memo, events, -, hmemo, hleave⟩ :=
      s₁.leaveRule_eq_closeRule settings' g r c result s₂
    rw [hleave] at hkey
    rcases hmemo key hkey with hbody | rfl
    · rcases h.evaluates key hbody with hold | hevaluates
      · exact .inl (by simpa using hold)
      · exact .inr (hevaluates.of_calls (.rule hover hnew))
    · exact .inr ⟨_, .refl, rfl, rfl⟩

end Grammar

/-- A run without the memo table that stays within the limit has shadows: from every session that is
ready, under any settings and with an allowance that is not smaller, there is a run with the same
result.  The induction is on the run; only where it evaluates a rule can the shadow do something
else. -/
theorem Runs.exists_shadow [LawfulBEq ρ] [LawfulHashable ρ] {g : Grammar ρ ν}
    {settings : Settings} {source : String} {n n' : Nat} {t : Term ρ ν} {c : Cursor}
    {s s' s₁ : Session ρ ν} {result : Option (Match ν)} (h : Runs g settings n t c s result s')
    (hoff : settings.memoize = false) (hdone : s'.overflow = none) (hplace : c.IsPlaceOf source)
    (hs : s.Ready g source) (settings' : Settings) (hle : n ≤ n') (hs₁ : s₁.Ready g source) :
    ∃ s₂, Runs g settings' n' t c s₁ result s₂ ∧
      g.Shadows settings source ⟨n, t, c, s⟩ s' s₁ s₂ := by
  induction h generalizing n' s₁ with
  | literal h => exact ⟨s₁, .literal h, .refl hs₁.within⟩
  | charIn hnext hmem => exact ⟨s₁, .charIn hnext hmem, .refl hs₁.within⟩
  | anyChar hnext => exact ⟨s₁, .anyChar hnext, .refl hs₁.within⟩
  | literalFail h =>
      exact ⟨_, .literalFail h, (Grammar.Shadows.refl hs₁.within).finish (fun h => h.fail _ _)
        (by simp) (by simp)⟩
  | charInFail h =>
      exact ⟨_, .charInFail h, (Grammar.Shadows.refl hs₁.within).finish (fun h => h.fail _ _)
        (by simp) (by simp)⟩
  | anyCharFail hnext =>
      exact ⟨_, .anyCharFail hnext, (Grammar.Shadows.refl hs₁.within).finish (fun h => h.fail _ _)
        (by simp) (by simp)⟩
  | ruleRefused hover =>
      rw [hover] at hdone
      cases hdone
  | ruleLimit hover => cases hdone
  | ruleKept hover hkept =>
      rw [Session.memoized?, hoff] at hkept
      cases hkept
  | @ruleBody n r c s s' result hover hnew hbody ih =>
      obtain ⟨n', rfl⟩ : ∃ k, n' = k + 1 := ⟨n' - 1, by omega⟩
      have hrun : Runs g settings (n + 1) (.rule r) c s result
          (s.leaveRule settings g r c result s') := .ruleBody hover hnew hbody
      cases hkept : s₁.memoized? settings'.memoize r c.offset with
      | some kept =>
          -- the table has the derived outcome, and the shadow does nothing else
          have hshadow := Runs.ruleKept (g := g) (n := n') hs₁.within hkept
          have hbehind := Grammar.Shadows.of_kept hrun hs₁.within source settings'.traced r kept
          obtain ⟨rfl, -⟩ := hrun.agrees hshadow hplace hs hs₁ hdone hbehind.within
          exact ⟨_, hshadow, hbehind⟩
      | none =>
          rw [Session.leaveRule_overflow] at hdone
          obtain ⟨s₂, hshadow, hbehind⟩ := ih hdone hplace (hs.enterRule settings r hplace)
            (Nat.le_of_succ_le_succ hle) (hs₁.enterRule settings' r hplace)
          exact ⟨_, .ruleBody hs₁.within hkept hshadow, hbehind.leaveRule hover hnew result⟩
  | seqNil => exact ⟨s₁, .seqNil, .refl hs₁.within⟩
  | @seqCons n t ts c stop s s' s'' m values hhead htail ihhead ihtail =>
      have hmiddle := htail.overflow_eq_none hdone
      have hstop := hplace.move ((hhead.placed hplace hs.placed).2 _ rfl)
      obtain ⟨s₂, hhead', hbehind⟩ := ihhead hmiddle hplace hs hle hs₁
      obtain ⟨s₃, htail', hbehind'⟩ := ihtail hdone hstop (hhead.ready hplace hs hmiddle) hle
        (hhead'.ready hplace hs₁ hbehind.within)
      exact ⟨s₃, .seqCons hhead' htail', .of_callsInTurn
        (.seq (hhead.evaluate_eq hplace hs.placed)) hbehind hbehind'⟩
  | seqFail hhead ih =>
      obtain ⟨s₂, hhead', hbehind⟩ := ih hdone hplace hs hle hs₁
      exact ⟨_, .seqFail hhead', (hbehind.of_calls .seqHead id rfl).finish
        (fun h => h.relabel _ _) rfl rfl⟩
  | @seqTailFail n t ts c s s' s'' m hhead htail ihhead ihtail =>
      have hmiddle := htail.overflow_eq_none hdone
      have hstop := hplace.move ((hhead.placed hplace hs.placed).2 _ rfl)
      obtain ⟨s₂, hhead', hbehind⟩ := ihhead hmiddle hplace hs hle hs₁
      obtain ⟨s₃, htail', hbehind'⟩ := ihtail hdone hstop (hhead.ready hplace hs hmiddle) hle
        (hhead'.ready hplace hs₁ hbehind.within)
      have hboth := Grammar.Shadows.of_callsInTurn (.seq (hhead.evaluate_eq hplace hs.placed))
        hbehind hbehind'
      exact ⟨_, .seqTailFail hhead' htail', hboth.finish (fun h => h.relabel _ _) rfl rfl⟩
  | choiceNil => exact ⟨s₁, .choiceNil, .refl hs₁.within⟩
  | choiceHere h ih =>
      obtain ⟨s₂, h', hbehind⟩ := ih hdone hplace hs hle hs₁
      exact ⟨s₂, .choiceHere h', hbehind.of_calls .choiceHead id rfl⟩
  | @choiceLater n t ts c s s' s'' result hfail h ihfail ih =>
      have hmiddle := h.overflow_eq_none hdone
      obtain ⟨s₂, hfail', hbehind⟩ := ihfail hmiddle hplace hs hle hs₁
      obtain ⟨s₃, h', hbehind'⟩ := ih hdone hplace (hfail.ready hplace hs hmiddle) hle
        (hfail'.ready hplace hs₁ hbehind.within)
      exact ⟨s₃, .choiceLater hfail' h', .of_callsInTurn
        (.choice (hfail.evaluate_eq hplace hs.placed)) hbehind hbehind'⟩
  | starStop h ih =>
      obtain ⟨s₂, h', hbehind⟩ := ih hdone hplace hs hle hs₁
      exact ⟨s₂, .starStop h', hbehind.of_calls .starRound id rfl⟩
  | starEmpty h hstays ih =>
      obtain ⟨s₂, h', hbehind⟩ := ih hdone hplace hs hle hs₁
      exact ⟨s₂, .starEmpty h' hstays, hbehind.of_calls .starRound id rfl⟩
  | @starMore n t c stop s s' s'' m values h hmoved hrest ih ihrest =>
      have hmiddle := hrest.overflow_eq_none hdone
      have hstop := hplace.move ((h.placed hplace hs.placed).2 _ rfl)
      obtain ⟨s₂, h', hbehind⟩ := ih hmiddle hplace hs hle hs₁
      obtain ⟨s₃, hrest', hbehind'⟩ := ihrest hdone hstop (h.ready hplace hs hmiddle) hle
        (h'.ready hplace hs₁ hbehind.within)
      exact ⟨s₃, .starMore h' hmoved hrest', .of_callsInTurn
        (.star (h.evaluate_eq hplace hs.placed) hmoved) hbehind hbehind'⟩
  | plus h ih =>
      obtain ⟨s₂, h', hbehind⟩ := ih hdone hplace hs hle hs₁
      exact ⟨s₂, .plus h', hbehind.of_calls .plus id rfl⟩
  | plusFail h ih =>
      obtain ⟨s₂, h', hbehind⟩ := ih hdone hplace hs hle hs₁
      exact ⟨s₂, .plusFail h', hbehind.of_calls .plus id rfl⟩
  | opt h ih =>
      obtain ⟨s₂, h', hbehind⟩ := ih hdone hplace hs hle hs₁
      exact ⟨s₂, .opt h', hbehind.of_calls .opt id rfl⟩
  | optAbsent h ih =>
      obtain ⟨s₂, h', hbehind⟩ := ih hdone hplace hs hle hs₁
      exact ⟨s₂, .optAbsent h', hbehind.of_calls .opt id rfl⟩
  | not h ih =>
      obtain ⟨s₂, h', hbehind⟩ := ih hdone hplace hs.silence hle hs₁.silence
      exact ⟨_, .not h', (hbehind.of_calls .not Session.Trails.silence rfl).finish
        (fun h => h.endSilence _ _) rfl rfl⟩
  | notFail h ih =>
      obtain ⟨s₂, h', hbehind⟩ := ih hdone hplace hs.silence hle hs₁.silence
      exact ⟨_, .notFail h', (hbehind.of_calls .not Session.Trails.silence rfl).finish
        (fun h => h.endSilence _ _) rfl rfl⟩
  | and h ih =>
      obtain ⟨s₂, h', hbehind⟩ := ih hdone hplace hs.silence hle hs₁.silence
      exact ⟨_, .and h', (hbehind.of_calls .and Session.Trails.silence rfl).finish
        (fun h => h.endSilence _ _) rfl rfl⟩
  | andFail h ih =>
      obtain ⟨s₂, h', hbehind⟩ := ih hdone hplace hs.silence hle hs₁.silence
      exact ⟨_, .andFail h', (hbehind.of_calls .and Session.Trails.silence rfl).finish
        (fun h => h.endSilence _ _) rfl rfl⟩
  | label h ih =>
      obtain ⟨s₂, h', hbehind⟩ := ih hdone hplace hs hle hs₁
      exact ⟨_, .label h', (hbehind.of_calls .label id rfl).finish (fun h => h.relabel _ _) rfl
        rfl⟩
  | labelFail h ih =>
      obtain ⟨s₂, h', hbehind⟩ := ih hdone hplace hs hle hs₁
      exact ⟨s₂, .labelFail h', hbehind.of_calls .label id rfl⟩
  | action h hact ih =>
      obtain ⟨s₂, h', hbehind⟩ := ih hdone hplace (hs.relabel []) hle (hs₁.relabel [])
      obtain ⟨-, hlabels⟩ := h.agrees h' hplace (hs.relabel []) (hs₁.relabel []) hdone
        hbehind.within
      rw [← hlabels rfl] at hact
      exact ⟨_, .action h' hact, (hbehind.of_calls .action (fun h => h.relabel _ _) rfl).finish
        (fun h => h.relabel _ _) rfl rfl⟩
  | actionReject h hact ih =>
      obtain ⟨s₂, h', hbehind⟩ := ih hdone hplace (hs.relabel []) hle (hs₁.relabel [])
      obtain ⟨-, hlabels⟩ := h.agrees h' hplace (hs.relabel []) (hs₁.relabel []) hdone
        hbehind.within
      rw [← hlabels rfl] at hact
      exact ⟨_, .actionReject h' hact,
        (hbehind.of_calls .action (fun h => h.relabel _ _) rfl).finish
          (fun h => h.relabel _ _) rfl rfl⟩
  | actionFail h ih =>
      obtain ⟨s₂, h', hbehind⟩ := ih hdone hplace (hs.relabel []) hle (hs₁.relabel [])
      exact ⟨_, .actionFail h', (hbehind.of_calls .action (fun h => h.relabel _ _) rfl).finish
        (fun h => h.relabel _ _) rfl rfl⟩
  | text h ih =>
      obtain ⟨s₂, h', hbehind⟩ := ih hdone hplace hs hle hs₁
      exact ⟨s₂, .text h', hbehind.of_calls .text id rfl⟩
  | textFail h ih =>
      obtain ⟨s₂, h', hbehind⟩ := ih hdone hplace hs hle hs₁
      exact ⟨s₂, .textFail h', hbehind.of_calls .text id rfl⟩
  | pick h ih =>
      obtain ⟨s₂, h', hbehind⟩ := ih hdone hplace hs hle hs₁
      exact ⟨s₂, .pick h', hbehind.of_calls .pick id rfl⟩
  | pickFail h ih =>
      obtain ⟨s₂, h', hbehind⟩ := ih hdone hplace hs hle hs₁
      exact ⟨s₂, .pickFail h', hbehind.of_calls .pick id rfl⟩

/-! ## Parses with and without the memo table -/

namespace Grammar

/-- Of two failed parses with one result, the one that recorded no more shows no more. -/
theorem conclude_trails {source : String} {result : Option (Match ν)} {s s₁ : Session ρ ν}
    {d : Diagnosis} (hdone : s.overflow = none) (hdone₁ : s₁.overflow = none)
    (h : s₁.Trails s) (herror : conclude source result s = .error d) :
    ∃ d₁, conclude source result s₁ = .error d₁ ∧ d₁.offset ≤ d.offset ∧
      (d₁.offset = d.offset →
        d₁.expected.map Expectation.text ⊆ d.expected.map Expectation.text) := by
  rcases (conclude_eq_error_iff hdone).mp herror with ⟨hnone, rfl⟩ | ⟨m, hsome, hstop, rfl⟩
  · refine ⟨_, (conclude_eq_error_iff hdone₁).mpr (.inl ⟨hnone, rfl⟩), ?_, ?_⟩
    · exact FurthestFailure.offset_le_of_le h.failures
    · exact FurthestFailure.texts_subset_of_le h.failures source
  · have hle := FurthestFailure.add_le_add h.failures m.stop.offset .endOfInput
    refine ⟨_, (conclude_eq_error_iff hdone₁).mpr (.inr ⟨m, hsome, hstop, rfl⟩), ?_, ?_⟩
    · exact FurthestFailure.offset_le_of_le hle
    · exact FurthestFailure.texts_subset_of_le hle source

/-- A parse without the memo table that stays within the limit has the parse with it behind. -/
theorem exists_shadow_of_parse [LawfulBEq ρ] [LawfulHashable ρ] {g : Grammar ρ ν}
    {settings : Settings} {start : ρ} {source : String}
    (hdone : (g.parseFrom { settings with memoize := false } start source).session.overflow =
      none) :
    ∃ result s s₁,
      g.parseFrom { settings with memoize := false } start source =
        ⟨conclude source result s, s⟩ ∧
      g.parseFrom { settings with memoize := true } start source =
        ⟨conclude source result s₁, s₁⟩ ∧
      s.overflow = none ∧ s₁.overflow = none ∧ s₁.Trails s := by
  have hready := Session.ready_empty g source
  obtain ⟨result, s, hrun, hwithout⟩ :=
    exists_runs_parseFrom g { settings with memoize := false } start source
  rw [hwithout] at hdone
  obtain ⟨s₁, hshadow, hbehind⟩ := hrun.exists_shadow rfl hdone (Cursor.start_isPlaceOf source)
    hready { settings with memoize := true } (Nat.le_refl _) hready
  exact ⟨result, s, s₁, hwithout, hshadow.parseFrom_eq, hdone, hbehind.within,
    hbehind.trails (.refl _)⟩

/-- The memo table does not show in the outcome.  If a parse without it stays within the nesting
limit, then so does the parse with it, and the two succeed with the same value or both fail. -/
theorem parseFrom_memoize [LawfulBEq ρ] [LawfulHashable ρ]
    (g : Grammar ρ ν) (settings : Settings) (start : ρ) (source : String)
    (hdone : (g.parseFrom { settings with memoize := false } start
      source).session.overflow = none) :
    (g.parseFrom { settings with memoize := true } start
        source).session.overflow = none ∧
      ((∃ value,
          (g.parseFrom { settings with memoize := false } start source).outcome =
            .ok value ∧
          (g.parseFrom { settings with memoize := true } start source).outcome =
            .ok value) ∨
        ∃ diagnosis diagnosis',
          (g.parseFrom { settings with memoize := false } start source).outcome =
            .error diagnosis ∧
          (g.parseFrom { settings with memoize := true } start source).outcome =
            .error diagnosis') := by
  obtain ⟨result, s, s₁, hwithout, hwith, hs, hs₁, -⟩ := exists_shadow_of_parse hdone
  rw [hwithout, hwith]
  exact ⟨hs₁, conclude_together (hs₁.trans hs.symm)⟩

/-- A grammar that tries one rule twice at the same place. -/
def secondTry : Grammar (Fin 2) Unit where
  symbols := [0, 1]
  rule
    | 0 => { name := "Try", body := .choice [.seq [.rule 1, .lit "y"], .rule 1] }
    | 1 => { name := "Letter", body := .lit "x" }
  root := 0

theorem secondTry_memoize :
    (secondTry.parseFrom { memoize := false } 0 "x").session.overflow = none ∧
      (secondTry.parseFrom { memoize := true } 0 "x").session.overflow = none := by
  have hdone :
      (secondTry.parseFrom { memoize := false } 0 "x").session.overflow = none := by
    rfl
  exact ⟨hdone, (parseFrom_memoize secondTry {} 0 "x" hdone).1⟩

/-- The memo table only loses diagnostics.  If a parse without it fails within the nesting limit,
then the parse with it fails too, no further than that, and if both fail at the same offset it shows
no text that the parse without the table does not show. -/
theorem parseFrom_memoize_trails [LawfulBEq ρ] [LawfulHashable ρ] (g : Grammar ρ ν)
    (settings : Settings) (start : ρ) (source : String) {d : Diagnosis}
    (hdone : (g.parseFrom { settings with memoize := false } start source).session.overflow = none)
    (herror : (g.parseFrom { settings with memoize := false } start source).outcome = .error d) :
    ∃ d₁, (g.parseFrom { settings with memoize := true } start source).outcome = .error d₁ ∧
      d₁.offset ≤ d.offset ∧
      (d₁.offset = d.offset →
        d₁.expected.map Expectation.text ⊆ d.expected.map Expectation.text) := by
  obtain ⟨result, s, s₁, hwithout, hwith, hs, hs₁, htrails⟩ := exists_shadow_of_parse hdone
  rw [hwithout] at herror
  rw [hwith]
  exact conclude_trails hs hs₁ htrails herror

/-- A pair of letters where no such pair is. -/
def guardedPair : Grammar Bool Unit where
  symbols := [false, true]
  rule
    | false => { name := "Start", body := .seq [.not (.rule true), .rule true] }
    | true => { name := "Pair", body := .seq [.lit "x", .lit "y"] }
  root := false

/-- The second time, the pair fails at its second letter, and this time the failure counts.  With
the table the pair is not tried again. -/
theorem guardedPair_memoize_trails :
    ∃ d d₁, (guardedPair.parseFrom { memoize := false } false "xz").outcome = .error d ∧
      d.offset = 1 ∧ (guardedPair.parseFrom { memoize := true } false "xz").outcome = .error d₁ ∧
      d₁.offset ≤ d.offset ∧
      (d₁.offset = d.offset →
        d₁.expected.map Expectation.text ⊆ d.expected.map Expectation.text) := by
  have hdone : (guardedPair.parseFrom { memoize := false } false "xz").session.overflow = none := by
    decide +kernel
  have herror := outcome_of_none hdone (Option.isNone_iff_eq_none.mp (by decide +kernel))
  have hoffset : ((guardedPair.parseFrom { memoize := false } false
      "xz").session.failures.diagnose "xz").offset = 1 := by
    decide +kernel
  have htrails := fun d => parseFrom_memoize_trails guardedPair {} false "xz" (d := d)
  dsimp only at htrails
  obtain ⟨d₁, hrest⟩ := htrails _ hdone herror
  exact ⟨_, d₁, herror, hoffset, hrest⟩

end Grammar

end PegScript

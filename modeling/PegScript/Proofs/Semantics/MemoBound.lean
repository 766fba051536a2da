import Mathlib.Data.Fintype.Prod
import PegScript.Proofs.Semantics.Reentry
import PegScript.Proofs.Semantics.Safety

/-!
# With the memo table, a rule is evaluated once at a place

A parse within the nesting limit does not come back to a rule that is still active at the same
place, and with the memo table it does not evaluate a rule again whose outcome is kept.  So each
evaluation adds one entry to the table.  The table has at most one entry for each rule and each
offset of the source, which bounds the work of the whole parse.

Events count the evaluations of a rule at an offset (`Session.evaluations`).  Reporting them does
not change anything else (`Grammar.parseFrom_traced`), so the count for a traced parse is that of
the parse without them.  The main statement is `Grammar.parseFrom_evaluates_once`.
-/

namespace PegScript

variable {ρ ν : Type} [BEq ρ] [Hashable ρ]

/-! ## Counting evaluations -/

/-- The event tells that the rule was evaluated at the offset, with its outcome not kept before. -/
def Event.isEvaluation (r : ρ) (offset : Nat) (e : Event ρ) : Bool :=
  e.kind != .enter && (e.rule, e.span.start) == (r, offset) && !e.cached

namespace Session

variable {s s' s₁ s₂ : Session ρ ν} {r : ρ} {offset : Nat}

/-- How often the rule was evaluated at the offset, as the events tell. -/
def evaluations (s : Session ρ ν) (r : ρ) (offset : Nat) : Nat :=
  s.events.countP (Event.isEvaluation r offset)

theorem evaluations_congr (h : s'.events = s.events) (r : ρ) (offset : Nat) :
    s'.evaluations r offset = s.evaluations r offset := by
  rw [evaluations, evaluations, h]

/-- The number of kept outcomes of the rule at the offset. -/
def kept (s : Session ρ ν) (r : ρ) (offset : Nat) : Nat :=
  if (r, offset) ∈ s.memo then 1 else 0

@[simp] theorem fail_misses (s : Session ρ ν) (offset : Nat) (e : Expectation) :
    (s.fail offset e).misses = s.misses := by
  unfold fail
  split <;> rfl

@[simp] theorem fail_events (s : Session ρ ν) (offset : Nat) (e : Expectation) :
    (s.fail offset e).events = s.events := by
  unfold fail
  split <;> rfl

@[simp] theorem report_misses (s : Session ρ ν) (traced : Bool) (e : Event ρ) :
    (s.report traced e).misses = s.misses := by
  unfold report
  split <;> rfl

@[simp] theorem reportResult_misses (s : Session ρ ν) (traced : Bool) (r : ρ) (c : Cursor)
    (result : Option (Match ν)) (cached : Bool) :
    (s.reportResult traced r c result cached).misses = s.misses := by
  cases result <;> simp [reportResult]

@[simp] theorem closeRule_misses (outer : Session ρ ν) (rule : Rule ρ ν) (c : Cursor)
    (result : Option (Match ν)) (s : Session ρ ν) :
    (outer.closeRule rule c result s).misses = s.misses := by
  obtain ⟨name, expect, silent, body⟩ := rule
  cases expect <;> cases result <;> simp [closeRule]

@[simp] theorem closeRule_events (outer : Session ρ ν) (rule : Rule ρ ν) (c : Cursor)
    (result : Option (Match ν)) (s : Session ρ ν) :
    (outer.closeRule rule c result s).events = s.events := by
  obtain ⟨name, expect, silent, body⟩ := rule
  cases expect <;> cases result <;> simp [closeRule]

theorem evaluations_report (s : Session ρ ν) (e : Event ρ) :
    (s.report true e).evaluations r offset =
      s.evaluations r offset + if e.isEvaluation r offset then 1 else 0 := by
  simp [report, evaluations, Array.countP_push]

@[simp] theorem evaluations_reportEnter (s : Session ρ ν) (r' : ρ) (c : Cursor) :
    (s.reportEnter true r' c).evaluations r offset = s.evaluations r offset := by
  simp [reportEnter, evaluations_report, Event.isEvaluation]

theorem evaluations_reportResult (s : Session ρ ν) (r' : ρ) (c : Cursor)
    (result : Option (Match ν)) (cached : Bool) :
    (s.reportResult true r' c result cached).evaluations r offset =
      s.evaluations r offset +
        if (r', c.offset) == (r, offset) && !cached then 1 else 0 := by
  cases result <;> simp [reportResult, evaluations_report, Event.isEvaluation, Span.point]

section Rules

variable {settings : Settings} (g : Grammar ρ ν) (c : Cursor) (result : Option (Match ν))

theorem enterRule_misses (hmemoize : settings.memoize = true) :
    (s.enterRule settings g r c).misses = s.misses + 1 := by
  simp [enterRule, openRule, countMiss, hmemoize, reportEnter]

theorem evaluations_enterRule (htraced : settings.traced = true) (r' : ρ) :
    (s.enterRule settings g r' c).evaluations r offset = s.evaluations r offset := by
  have hmiss : ((s.reportEnter true r' c).countMiss settings.memoize).events =
      (s.reportEnter true r' c).events := by
    unfold countMiss
    split <;> rfl
  rw [enterRule, htraced, evaluations, openRule, hmiss]
  exact evaluations_reportEnter s r' c

theorem leaveRule_memo (hmemoize : settings.memoize = true) (hdone : s₁.overflow = none) :
    (s.leaveRule settings g r c result s₁).memo = s₁.memo.insert (r, c.offset) result := by
  simp [leaveRule, remember, hmemoize, hdone]

@[simp] theorem leaveRule_misses :
    (s.leaveRule settings g r c result s₁).misses = s₁.misses := by
  unfold leaveRule remember
  split <;> simp

theorem evaluations_leaveRule (htraced : settings.traced = true) (r' : ρ) :
    (s.leaveRule settings g r' c result s₁).evaluations r offset =
      s₁.evaluations r offset + if (r', c.offset) == (r, offset) then 1 else 0 := by
  have hevents : ((s.closeRule (g.rule r') c result s₁).remember settings.memoize r' c.offset
      result).events = s₁.events := by
    unfold remember
    split <;> simp
  rw [leaveRule, htraced, evaluations_reportResult, evaluations, hevents]
  simp [evaluations]

end Rules

/-- From `s` to `s'` each evaluation was a miss and added one entry to the memo table, and the new
entries belong to rules that `p` depends on. -/
structure Tallies (g : Grammar ρ ν) (source : String) (p : Term ρ ν × Cursor)
    (s s' : Session ρ ν) : Prop where
  asked : ∀ r offset, (r, offset) ∈ s'.memo → (r, offset) ∈ s.memo ∨
    ∃ c : Cursor, c.IsPlaceOf source ∧ c.offset = offset ∧
      Relation.ReflTransGen (AskedBy g) (.rule r, c) p
  misses : s'.misses + s.memo.size = s.misses + s'.memo.size
  evaluations : ∀ r offset,
    s'.evaluations r offset + s.kept r offset = s.evaluations r offset + s'.kept r offset

namespace Tallies

variable {g : Grammar ρ ν} {source : String} {p q : Term ρ ν × Cursor}

theorem of_eq (hmemo : s'.memo = s.memo) (hmisses : s'.misses = s.misses)
    (hevaluations : ∀ r offset, s'.evaluations r offset = s.evaluations r offset) :
    Tallies g source p s s' where
  asked r offset h := .inl (hmemo ▸ h)
  misses := by rw [hmemo, hmisses]
  evaluations r offset := by rw [hevaluations, kept, kept, hmemo]

theorem refl (s : Session ρ ν) : Tallies g source p s s :=
  of_eq rfl rfl fun _ _ => rfl

theorem trans (h : Tallies g source p s s₁) (h' : Tallies g source p s₁ s₂) :
    Tallies g source p s s₂ where
  asked r offset hentry := by
    rcases h'.asked r offset hentry with hentry | hasked
    · exact h.asked r offset hentry
    · exact .inr hasked
  misses := by
    have hfirst := h.misses
    have hsecond := h'.misses
    omega
  evaluations r offset := by
    have hfirst := h.evaluations r offset
    have hsecond := h'.evaluations r offset
    omega

/-- Labels, failures and silence do not count, neither before the run nor after it. -/
theorem adjust (h : Tallies g source p s₁ s₂) (hmemo : s.memo = s₁.memo)
    (hmisses : s.misses = s₁.misses) (hevents : s.events = s₁.events)
    (hmemo' : s'.memo = s₂.memo) (hmisses' : s'.misses = s₂.misses)
    (hevents' : s'.events = s₂.events) : Tallies g source p s s' := by
  have hbefore : Tallies g source p s s₁ :=
    of_eq hmemo.symm hmisses.symm fun r offset => evaluations_congr hevents.symm r offset
  have hafter : Tallies g source p s₂ s' :=
    of_eq hmemo' hmisses' fun r offset => evaluations_congr hevents' r offset
  exact (hbefore.trans h).trans hafter

/-- What a term depends on, also those depend on that depend on the term. -/
theorem up (h : Tallies g source q s s') (hasked : AskedBy g q p) : Tallies g source p s s' where
  asked r offset hentry := by
    rcases h.asked r offset hentry with hold | ⟨c, hplace, hoffset, hchain⟩
    · exact .inl hold
    · exact .inr ⟨c, hplace, hoffset, hchain.tail hasked⟩
  misses := h.misses
  evaluations := h.evaluations

variable {settings : Settings} {c : Cursor} {result : Option (Match ν)}

/-- A kept outcome is no evaluation. -/
theorem of_kept (htraced : settings.traced = true) :
    Tallies g source p s ((s.reportEnter settings.traced r c).countHit.reportResult
      settings.traced r c result true) := by
  rw [htraced]
  refine of_eq ?_ ?_ fun r' offset => ?_
  · rw [reportResult_memo]
    exact reportEnter_memo ..
  · simp [countHit, reportEnter]
  · simp only [evaluations_reportResult, Bool.not_true, Bool.and_false, Bool.false_eq_true,
      if_false, Nat.add_zero]
    exact evaluations_reportEnter s r c

/-- A rule whose outcome was not kept before or in its own course is evaluated once more and gets
an entry. -/
theorem of_body [LawfulBEq ρ] (hmemoize : settings.memoize = true)
    (htraced : settings.traced = true) (hdone : s₁.overflow = none) (hplace : c.IsPlaceOf source)
    (hfresh : (r, c.offset) ∉ s₁.memo)
    (h : Tallies g source ((g.rule r).body, c) (s.enterRule settings g r c) s₁) :
    Tallies g source (.rule r, c) s (s.leaveRule settings g r c result s₁) where
  asked r' offset hentry := by
    rw [leaveRule_memo g c result hmemoize hdone, Std.HashMap.mem_insert] at hentry
    rcases hentry with hkey | hentry
    · obtain ⟨rfl, rfl⟩ := Prod.mk.inj (LawfulBEq.eq_of_beq hkey)
      exact .inr ⟨c, hplace, rfl, .refl⟩
    · have hasked := (h.up .rule).asked r' offset hentry
      rwa [enterRule_memo] at hasked
  misses := by
    have hmisses := h.misses
    rw [enterRule_misses g c hmemoize, enterRule_memo] at hmisses
    rw [leaveRule_memo g c result hmemoize hdone, leaveRule_misses,
      Std.HashMap.size_insert, if_neg hfresh]
    omega
  evaluations r' offset := by
    have hevaluations := h.evaluations r' offset
    rw [evaluations_enterRule g c htraced] at hevaluations
    rw [evaluations_leaveRule g c result htraced]
    simp only [kept, leaveRule_memo g c result hmemoize hdone, Std.HashMap.mem_insert,
      enterRule_memo] at hevaluations ⊢
    by_cases hkey : (r, c.offset) = (r', offset)
    · obtain ⟨rfl, rfl⟩ := Prod.mk.inj hkey
      simp only [hfresh, if_false, BEq.rfl, if_true, true_or] at hevaluations ⊢
      omega
    · simp only [beq_eq_false_iff_ne.mpr hkey, Bool.false_eq_true, false_or, if_false,
        Nat.add_zero]
      exact hevaluations

end Tallies

end Session

namespace Runs

variable {g : Grammar ρ ν} {settings : Settings} {source : String} {n : Nat} {t : Term ρ ν}
  {c : Cursor} {s s' : Session ρ ν} {result : Option (Match ν)}
  [LawfulBEq ρ] [LawfulHashable ρ]

/-- Runs within the nesting limit account for their evaluations.  That the body of a rule does not
evaluate the rule at the same place is where the limit is needed: it would depend on itself. -/
theorem tallies (h : Runs g settings n t c s result s') (hmemoize : settings.memoize = true)
    (htraced : settings.traced = true) (hplace : c.IsPlaceOf source) (hs : s.Placed source)
    (hfaithful : s.Faithful g source) (hdone : s'.overflow = none) :
    s.Tallies g source (t, c) s' := by
  induction h with
  | literal h | charIn hnext hmem | anyChar hnext | ruleRefused hover | seqNil | choiceNil =>
      exact .refl _
  | literalFail h | charInFail h | anyCharFail h =>
      exact .of_eq (by simp) (by simp) (Session.evaluations_congr (by simp))
  | ruleLimit hover => cases hdone
  | ruleKept hover hkept => exact .of_kept htraced
  | @ruleBody n r c s s₁ result hover hnew hbody ih =>
      have hended : s₁.overflow = none := by simpa using hdone
      have hs₀ := hs.enterRule settings g r hplace
      have hfaithful₀ : (s.enterRule settings g r c).Faithful g source :=
        hfaithful.of_memo_eq (by simp)
      have htallies := ih hplace hs₀ hfaithful₀ hended
      have hacc := hbody.acc_askedBy hplace hfaithful₀ hended
      refine .of_body hmemoize htraced hended hplace (fun hentry => ?_) htallies
      rcases htallies.asked r c.offset hentry with hold | ⟨c', hplace', hoffset, hchain⟩
      · rw [Session.enterRule_memo] at hold
        simp only [Session.memoized?, hmemoize, if_true] at hnew
        rw [Std.HashMap.mem_iff_isSome_getElem?, hnew] at hold
        cases hold
      · obtain rfl := hplace'.eq_of_offset_eq hplace hoffset
        exact not_transGen_self_of_acc hacc (.head' .rule hchain)
  | seqCons hhead htail ihhead ihtail | seqTailFail hhead htail ihhead ihtail =>
      have hmiddle := htail.overflow_eq_none hdone
      obtain ⟨hs₁, hstop⟩ := hhead.placed hplace hs
      obtain ⟨labels, hderives⟩ := hhead.exists_derives hplace hfaithful hmiddle
      have hfirst := ihhead hplace hs hfaithful hmiddle
      have hrest := ihtail (hplace.move (hstop _ rfl)) hs₁
        (hhead.conforms hplace hfaithful hmiddle).1 hdone
      have hboth := (hfirst.up .seqHead).trans (hrest.up (.seqTail hderives))
      exact hboth.adjust rfl rfl rfl rfl rfl rfl
  | choiceLater hhead htail ihhead ihtail =>
      have hmiddle := htail.overflow_eq_none hdone
      have hderives := hhead.derives_none hplace hfaithful hmiddle
      have hfirst := ihhead hplace hs hfaithful hmiddle
      have hrest := ihtail hplace (hhead.placed hplace hs).1
        (hhead.conforms hplace hfaithful hmiddle).1 hdone
      exact (hfirst.up .choiceHead).trans (hrest.up (.choiceTail hderives))
  | starMore hround hmoved hrest ihround ihrest =>
      have hmiddle := hrest.overflow_eq_none hdone
      obtain ⟨hs₁, hstop⟩ := hround.placed hplace hs
      obtain ⟨labels, hderives⟩ := hround.exists_derives hplace hfaithful hmiddle
      have hfirst := ihround hplace hs hfaithful hmiddle
      have hagain := ihrest (hplace.move (hstop _ rfl)) hs₁
        (hround.conforms hplace hfaithful hmiddle).1 hdone
      have hne : _ ≠ _ := fun hstays => hmoved (congrArg Cursor.offset hstays)
      exact (hfirst.up .starRound).trans (hagain.up (.starAgain hderives hne))
  | not h ih | notFail h ih =>
      have hinner := ih hplace (hs.of_eq rfl rfl rfl rfl) (hfaithful.of_memo_eq rfl) hdone
      exact (hinner.up .not).adjust rfl rfl rfl rfl rfl rfl
  | and h ih | andFail h ih =>
      have hinner := ih hplace (hs.of_eq rfl rfl rfl rfl) (hfaithful.of_memo_eq rfl) hdone
      exact (hinner.up .and).adjust rfl rfl rfl rfl rfl rfl
  | action h hact ih | actionReject h hact ih | actionFail h ih =>
      have hinner := ih hplace (hs.of_eq rfl rfl rfl rfl) (hfaithful.of_memo_eq rfl) hdone
      exact (hinner.up .action).adjust rfl rfl rfl rfl rfl rfl
  | seqFail h ih =>
      exact ((ih hplace hs hfaithful hdone).up .seqHead).adjust rfl rfl rfl rfl rfl rfl
  | label h ih =>
      exact ((ih hplace hs hfaithful hdone).up .label).adjust rfl rfl rfl rfl rfl rfl
  | choiceHere h ih => exact (ih hplace hs hfaithful hdone).up .choiceHead
  | starStop h ih | starEmpty h hstays ih => exact (ih hplace hs hfaithful hdone).up .starRound
  | plus h ih | plusFail h ih => exact (ih hplace hs hfaithful hdone).up .plus
  | opt h ih | optAbsent h ih => exact (ih hplace hs hfaithful hdone).up .opt
  | labelFail h ih => exact (ih hplace hs hfaithful hdone).up .label
  | text h ih | textFail h ih => exact (ih hplace hs hfaithful hdone).up .text
  | pick h ih | pickFail h ih => exact (ih hplace hs hfaithful hdone).up .pick

end Runs

/-! ## Reporting changes nothing else -/

namespace Session

/-- The session without its events. -/
def untraced (s : Session ρ ν) : Session ρ ν :=
  { s with events := #[] }

variable (s : Session ρ ν)

@[simp] theorem untraced_fail (offset : Nat) (e : Expectation) :
    (s.fail offset e).untraced = s.untraced.fail offset e :=
  apply_ite untraced _ _ _

@[simp] theorem untraced_report (traced : Bool) (e : Event ρ) :
    (s.report traced e).untraced = s.untraced := by
  unfold report
  split <;> rfl

@[simp] theorem untraced_reportEnter (traced : Bool) (r : ρ) (c : Cursor) :
    (s.reportEnter traced r c).untraced = s.untraced :=
  s.untraced_report _ _

@[simp] theorem untraced_reportResult (traced : Bool) (r : ρ) (c : Cursor)
    (result : Option (Match ν)) (cached : Bool) :
    (s.reportResult traced r c result cached).untraced = s.untraced := by
  cases result <;> simp [reportResult]

@[simp] theorem untraced_countMiss (memoize : Bool) :
    (s.countMiss memoize).untraced = s.untraced.countMiss memoize := by
  cases memoize <;> rfl

theorem untraced_remember (memoize : Bool) (r : ρ) (offset : Nat) (result : Option (Match ν)) :
    (s.remember memoize r offset result).untraced =
      s.untraced.remember memoize r offset result :=
  apply_ite untraced _ _ _

theorem untraced_closeRule (outer : Session ρ ν) (rule : Rule ρ ν) (c : Cursor)
    (result : Option (Match ν)) :
    (outer.closeRule rule c result s).untraced =
      outer.untraced.closeRule rule c result s.untraced := by
  obtain ⟨name, expect, silent, body⟩ := rule
  cases expect with
  | none => rfl
  | some expect =>
      cases result with
      | none => exact untraced_fail _ _ _
      | some m => rfl

variable (settings : Settings) (g : Grammar ρ ν) (r : ρ) (c : Cursor) (result : Option (Match ν))

theorem untraced_enterRule :
    (s.enterRule settings g r c).untraced =
      s.untraced.enterRule { settings with traced := false } g r c := by
  have hmiss : ((s.reportEnter settings.traced r c).countMiss settings.memoize).untraced =
      (s.untraced.reportEnter false r c).countMiss settings.memoize := by
    rw [untraced_countMiss, untraced_reportEnter]
    rfl
  unfold enterRule
  rw [← hmiss]
  rfl

theorem untraced_kept :
    ((s.reportEnter settings.traced r c).countHit.reportResult settings.traced r c result
        true).untraced =
      (s.untraced.reportEnter false r c).countHit.reportResult false r c result true := by
  have hhit : (s.reportEnter settings.traced r c).countHit.untraced = s.untraced.countHit := by
    unfold reportEnter report
    split <;> rfl
  rw [untraced_reportResult, hhit]
  cases result <;> rfl

theorem untraced_leaveRule (outer : Session ρ ν) :
    (outer.leaveRule settings g r c result s).untraced =
      outer.untraced.leaveRule { settings with traced := false } g r c result s.untraced := by
  unfold leaveRule
  rw [untraced_reportResult, untraced_remember, untraced_closeRule]
  cases result <;> rfl

end Session

namespace Runs

variable {g : Grammar ρ ν} {settings : Settings} {n : Nat} {t : Term ρ ν} {c : Cursor}
  {s s' : Session ρ ν} {result : Option (Match ν)}

/-- Without reports a run does the same. -/
theorem untraced (h : Runs g settings n t c s result s') :
    Runs g { settings with traced := false } n t c s.untraced result s'.untraced := by
  induction h with
  | literal h => exact .literal h
  | literalFail h =>
      rw [Session.untraced_fail]
      exact .literalFail h
  | charIn hnext hmem => exact .charIn hnext hmem
  | charInFail h =>
      rw [Session.untraced_fail]
      exact .charInFail h
  | anyChar hnext => exact .anyChar hnext
  | anyCharFail hnext =>
      rw [Session.untraced_fail]
      exact .anyCharFail hnext
  | ruleRefused hover => exact .ruleRefused hover
  | ruleLimit hover => exact .ruleLimit hover
  | ruleKept hover hkept =>
      rw [Session.untraced_kept]
      exact .ruleKept hover hkept
  | ruleBody hover hnew hbody ih =>
      rw [Session.untraced_leaveRule]
      rw [Session.untraced_enterRule] at ih
      exact .ruleBody hover hnew ih
  | seqNil => exact .seqNil
  | seqCons hhead htail ihhead ihtail => exact .seqCons ihhead ihtail
  | seqFail hhead ih => exact .seqFail ih
  | seqTailFail hhead htail ihhead ihtail =>
      have hfails := Runs.seqTailFail ihhead ihtail
      exact hfails
  | choiceNil => exact .choiceNil
  | choiceHere h ih => exact .choiceHere ih
  | choiceLater hfail h ihfail ih => exact .choiceLater ihfail ih
  | starStop h ih => exact .starStop ih
  | starEmpty h hstays ih => exact .starEmpty ih hstays
  | starMore h hmoved hrest ih ihrest => exact .starMore ih hmoved ihrest
  | plus h ih => exact .plus ih
  | plusFail h ih => exact .plusFail ih
  | opt h ih => exact .opt ih
  | optAbsent h ih => exact .optAbsent ih
  | @not _ _ _ s _ h ih => exact .not (s := s.untraced) ih
  | @notFail _ _ _ s _ _ h ih => exact .notFail (s := s.untraced) ih
  | @and _ _ _ s _ _ h ih => exact .and (s := s.untraced) ih
  | @andFail _ _ _ s _ h ih => exact .andFail (s := s.untraced) ih
  | label h ih => exact .label ih
  | labelFail h ih => exact .labelFail ih
  | @action _ _ _ _ s _ _ _ _ h hact ih => exact .action (s := s.untraced) ih hact
  | @actionReject _ _ _ _ s _ _ h hact ih => exact .actionReject (s := s.untraced) ih hact
  | @actionFail _ _ _ _ s _ h ih => exact .actionFail (s := s.untraced) ih
  | text h ih => exact .text ih
  | textFail h ih => exact .textFail ih
  | pick h ih => exact .pick ih
  | pickFail h ih => exact .pickFail ih

end Runs

/-! ## Whole parses -/

/-- A table for one source has at most one entry for each rule and each offset. -/
theorem Session.memo_size_le {count : Nat} {s : Session (Fin count) ν} {source : String}
    (hs : s.Placed source) : s.memo.size ≤ count * (source.utf8ByteSize + 1) := by
  have hkeys : s.memo.keys.toFinset ⊆
      (Finset.univ : Finset (Fin count)) ×ˢ Finset.range (source.utf8ByteSize + 1) := by
    rintro ⟨r, offset⟩ hkey
    rw [List.mem_toFinset, Std.HashMap.mem_keys, Std.HashMap.mem_iff_isSome_getElem?] at hkey
    obtain ⟨result, hentry⟩ := Option.isSome_iff_exists.mp hkey
    obtain ⟨c, hplace, rfl, -⟩ := hs.memo r offset result hentry
    have hle := hplace.offset_le
    simp only [Finset.mem_product, Finset.mem_univ, Finset.mem_range, true_and]
    omega
  have hcard := Finset.card_le_card hkeys
  rwa [List.toFinset_card_of_nodup Std.HashMap.nodup_keys, Std.HashMap.length_keys,
    Finset.card_product, Finset.card_univ, Fintype.card_fin, Finset.card_range] at hcard

namespace Grammar

/-- In the course of the evaluation a rule is evaluated at an offset at which it is still active. -/
def Reenters (g : Grammar ρ ν) (settings : Settings) (source : String) (e : Evaluation ρ ν) :
    Prop :=
  ∃ r e₁ e₂, g.Reached settings source e e₁ ∧
    Relation.TransGen (g.Calls settings source.utf8ByteSize) e₁ e₂ ∧
    e₁.term = .rule r ∧ e₂.term = .rule r ∧ e₂.place.offset = e₁.place.offset

section Outcomes

variable {g : Grammar ρ ν} {settings : Settings} {start : ρ} {source : String}

/-- A parse beyond the nesting limit fails for that reason. -/
theorem expected_of_overflow
    (h : (g.parseFrom settings start source).session.overflow ≠ none) :
    ∃ d, (g.parseFrom settings start source).outcome = .error d ∧
      d.expected = [.lessNesting] := by
  obtain ⟨offset, hover⟩ := Option.ne_none_iff_exists'.mp h
  exact ⟨_, outcome_of_overflow hover,
    (FurthestFailure.diagnose_empty_add offset .lessNesting source).2⟩

/-- A parse within the nesting limit is regular from its start. -/
theorem regular_startEvaluation
    (hdone : (g.parseFrom settings start source).session.overflow = none) :
    (startEvaluation settings start source).Regular g settings source where
  placed := placed_startEvaluation settings start source
  faithful := Session.faithful_of_memo_empty g source rfl
  done := by
    rw [parseFrom_eq_evaluate] at hdone
    exact hdone

/-- The outcome does not depend on events. -/
theorem conclude_congr (source : String) {s s' : Session ρ ν} (h : s.untraced = s'.untraced)
    (result : Option (Match ν)) : conclude source result s = conclude source result s' := by
  have hevents : ∀ s : Session ρ ν,
      conclude source result s.untraced = conclude source result s := fun _ => rfl
  rw [← hevents s, h, hevents]

variable [LawfulBEq ρ] [LawfulHashable ρ]

/-- Whether events are reported does not show in anything else. -/
theorem parseFrom_traced (g : Grammar ρ ν) (settings : Settings) (start : ρ) (source : String)
    (traced : Bool) :
    (g.parseFrom { settings with traced } start source).outcome =
        (g.parseFrom settings start source).outcome ∧
      (g.parseFrom { settings with traced } start source).session.untraced =
        (g.parseFrom settings start source).session.untraced := by
  have hplaced := placed_startEvaluation (ν := ν) settings start source
  have hruns := (runs_evaluate g settings hplaced).untraced
  have hruns' := (runs_evaluate g { settings with traced } hplaced).untraced
  obtain ⟨hresult, hsession⟩ := hruns'.functional hruns
  have houtcome := conclude_congr source hsession
  rw [parseFrom_eq_evaluate, parseFrom_eq_evaluate]
  refine ⟨?_, hsession⟩
  simp only [← hresult]
  exact houtcome _

/-- With the memo table, a parse within the nesting limit accounts for its evaluations once they are
reported. -/
theorem tallies_of_parseFrom (hmemoize : settings.memoize = true)
    (hdone : (g.parseFrom settings start source).session.overflow = none) :
    ({} : Session ρ ν).Tallies g source (.rule start, Cursor.start source)
      (g.parseFrom { settings with traced := true } start source).session := by
  obtain ⟨-, hsame⟩ := parseFrom_traced g settings start source true
  have hregular := regular_startEvaluation ((congrArg Session.overflow hsame).trans hdone)
  rw [parseFrom_eq_evaluate]
  exact (runs_evaluate g _ hregular.placed).tallies hmemoize rfl hregular.placed.place
    hregular.placed.session hregular.faithful hregular.done

end Outcomes

variable {ν : Type}

/-- A parse within the nesting limit never evaluates a rule at an offset at which the rule is still
active, and so a parse that does fails with the nesting limit.  With the memo table, a parse within
the limit evaluates each rule at most once at each offset, as the events of the traced parse tell;
it counts as many misses as the table has entries, and the table has at most one for each rule and
each offset of the source. -/
theorem parseFrom_evaluates_once {rules : List (Rule String ν)} {root : String}
    {g : NumberedGrammar ν} (hbuild : build rules root = .ok g) (settings : Settings)
    (start : Fin g.count) (source : String) :
    ((g.grammar.parseFrom settings start source).session.overflow = none →
      ¬ g.grammar.Reenters settings source (startEvaluation settings start source)) ∧
    (g.grammar.Reenters settings source (startEvaluation settings start source) →
      ∃ d, (g.grammar.parseFrom settings start source).outcome = .error d ∧
        d.expected = [.lessNesting]) ∧
    (settings.memoize = true →
      (g.grammar.parseFrom settings start source).session.overflow = none →
        (∀ r offset, (g.grammar.parseFrom { settings with traced := true } start
          source).session.evaluations r offset ≤ 1) ∧
        (g.grammar.parseFrom settings start source).session.misses =
          (g.grammar.parseFrom settings start source).session.memo.size ∧
        (g.grammar.parseFrom settings start source).session.memo.size ≤
          rules.length * (source.utf8ByteSize + 1)) := by
  have hregular : (g.grammar.parseFrom settings start source).session.overflow = none →
      ¬ g.grammar.Reenters settings source (startEvaluation settings start source) := by
    rintro hdone ⟨r, e₁, e₂, hreached, hchain, hterm₁, hterm₂, hoffset⟩
    have he₁ := regular_of_reached hreached (regular_startEvaluation hdone)
    exact not_reentered he₁ hterm₁ hchain hterm₂ hoffset
  refine ⟨hregular, fun hreenters => ?_, fun hmemoize hdone => ?_⟩
  · exact expected_of_overflow fun hdone => hregular hdone hreenters
  · have htallies := tallies_of_parseFrom hmemoize hdone
    obtain ⟨-, hsame⟩ := parseFrom_traced g.grammar settings start source true
    have hmemo := congrArg Session.memo hsame
    have hmisses := congrArg Session.misses hsame
    simp only [Session.untraced] at hmemo hmisses
    refine ⟨fun r offset => ?_, ?_, ?_⟩
    · have hcount := htallies.evaluations r offset
      have hnone : ({} : Session (Fin g.count) ν).evaluations r offset = 0 := rfl
      have hkept : (g.grammar.parseFrom { settings with traced := true } start
          source).session.kept r offset ≤ 1 := by
        unfold Session.kept
        split <;> omega
      omega
    · have hcount := htallies.misses
      rw [hmemo, hmisses] at hcount
      simpa using hcount
    · obtain ⟨hcount, -⟩ := resolves_of_build hbuild
      have he := placed_startEvaluation (ν := ν) settings start source
      obtain ⟨hs, -⟩ := (runs_evaluate g.grammar settings he).placed he.place he.session
      rw [parseFrom_eq_evaluate, ← hcount]
      exact Session.memo_size_le hs

/-- A list that starts with a list, and an item that is not one. -/
def listRules : List (Rule String Unit) := [
  { name := "List", body := .choice [.seq [.rule "List", .lit "x"], .rule "Item"] },
  { name := "Item", body := .lit "x" }]

def leftRecursive : NumberedGrammar Unit :=
  (build listRules "List").toOption.get rfl

theorem parseFrom_evaluates_once_leftRecursive :
    leftRecursive.grammar.Reenters { maxDepth := 2 } "x"
        (startEvaluation { maxDepth := 2 } ⟨0, by decide⟩ "x") ∧
      (∃ d, (leftRecursive.grammar.parseFrom { maxDepth := 2 } ⟨0, by decide⟩ "x").outcome =
        .error d ∧ d.expected = [.lessNesting]) ∧
      (leftRecursive.grammar.parseFrom {} ⟨1, by decide⟩ "x").session.overflow = none ∧
      (leftRecursive.grammar.parseFrom {} ⟨1, by decide⟩ "x").session.misses =
        (leftRecursive.grammar.parseFrom {} ⟨1, by decide⟩ "x").session.memo.size := by
  have hbuild : build listRules "List" = .ok leftRecursive := rfl
  obtain ⟨-, hlimit, -⟩ := parseFrom_evaluates_once hbuild { maxDepth := 2 } ⟨0, by decide⟩ "x"
  obtain ⟨-, -, honce⟩ := parseFrom_evaluates_once hbuild {} ⟨1, by decide⟩ "x"
  have hreenters : leftRecursive.grammar.Reenters { maxDepth := 2 } "x"
      (startEvaluation { maxDepth := 2 } ⟨0, by decide⟩ "x") :=
    ⟨_, _, _, .refl, .tail (.tail (.single (.rule rfl (by simp [Session.memoized?]))) .choiceHead)
      .seqHead, rfl, rfl, rfl⟩
  have hdone : (leftRecursive.grammar.parseFrom {} ⟨1, by decide⟩ "x").session.overflow =
      none := by
    have hrun := runs_evaluate leftRecursive.grammar {}
      (placed_startEvaluation (ν := Unit) {} ⟨1, by decide⟩ "x")
    obtain ⟨-, hend⟩ := hrun.functional
      (.ruleBody rfl (by simp [Session.memoized?, startEvaluation]) (.literal rfl))
    rw [parseFrom_eq_evaluate, hend]
    simp [startEvaluation]
  exact ⟨hreenters, hlimit hreenters, hdone, (honce rfl hdone).2.1⟩

end Grammar

end PegScript

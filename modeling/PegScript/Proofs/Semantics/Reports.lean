import PegScript.Proofs.Semantics.Growth

/-!
# What a run reports

The failures that a run records are of terms and rules of the grammar.  So what all terms and rules
would report of themselves is all that a record lists (`Runs.lists`).  Besides, a record that has
moved from the start of the source lists something, since it moves only to failures.
-/

namespace PegScript

namespace FurthestFailure

/-- The record lists expectations of a kind only, and at least one unless it is at the start. -/
structure Lists (p : Expectation → Bool) (r : FurthestFailure) : Prop where
  kind : ∀ e ∈ r.expected, p e = true
  moved : r.expected = [] → r.offset = 0

variable {p : Expectation → Bool} {r : FurthestFailure}

theorem lists_empty : ({} : FurthestFailure).Lists p :=
  ⟨fun _ he => absurd he List.not_mem_nil, fun _ => rfl⟩

/-- Whatever is taken into account, something is listed afterwards. -/
theorem Lists.add_ne_nil (h : r.Lists p) (offset : Nat) (e : Expectation) :
    (r.add offset e).expected ≠ [] := by
  rcases Nat.lt_trichotomy offset r.offset with hbefore | rfl | hbeyond
  · rw [add_of_gt hbefore]
    intro hnil
    have hstart := h.moved hnil
    omega
  · exact List.ne_nil_of_mem (mem_expected_add_self.mpr (.inr rfl))
  · rw [add_of_lt hbeyond]
    exact List.cons_ne_nil e []

theorem Lists.add (h : r.Lists p) (offset : Nat) {e : Expectation} (he : p e = true) :
    (r.add offset e).Lists p := by
  refine ⟨fun e' he' => ?_, fun hnil => absurd hnil (h.add_ne_nil offset e)⟩
  rcases mem_expected_of_mem_add he' with hold | rfl
  · exact h.kind e' hold
  · exact he

end FurthestFailure

variable {ρ ν : Type}

/-! ## What terms and rules report of themselves -/

mutual

/-- Whether the term reports expectations of a kind only, leaving aside the rules it refers to. -/
def Term.reportsOnly (p : Expectation → Bool) : Term ρ ν → Bool
  | .literal word ignoreCase => p (.literal word ignoreCase)
  | .charIn k => p (.charIn k.description)
  | .anyChar => p .anyChar
  | .rule _ => true
  | .seq ts | .choice ts => reportsOnlyAll p ts
  | .star t | .plus t | .opt t | .not t | .and t | .label _ t | .action _ t | .text t
  | .pick _ t => reportsOnly p t

/-- Whether the terms report expectations of a kind only. -/
def Term.reportsOnlyAll (p : Expectation → Bool) : List (Term ρ ν) → Bool
  | [] => true
  | t :: ts => reportsOnly p t && reportsOnlyAll p ts

end

/-- Whether the rule reports expectations of a kind only, its own and those of its body. -/
def Rule.reportsOnly (p : Expectation → Bool) (rule : Rule ρ ν) : Bool :=
  rule.body.reportsOnly p && rule.expect.all fun name => p (.named name)

variable {p : Expectation → Bool}

mutual

/-- No term asks for less nesting. -/
theorem Term.reportsOnly_of_forall_ne (hp : ∀ e, e ≠ .lessNesting → p e = true) :
    ∀ t : Term ρ ν, t.reportsOnly p = true
  | .literal _ _ | .charIn _ | .anyChar => hp _ (by simp)
  | .rule _ => rfl
  | .seq ts | .choice ts => reportsOnlyAll_of_forall_ne hp ts
  | .star t | .plus t | .opt t | .not t | .and t | .label _ t | .action _ t | .text t
  | .pick _ t => reportsOnly_of_forall_ne hp t

theorem Term.reportsOnlyAll_of_forall_ne (hp : ∀ e, e ≠ .lessNesting → p e = true) :
    ∀ ts : List (Term ρ ν), Term.reportsOnlyAll p ts = true
  | [] => rfl
  | t :: ts => Bool.and_eq_true_iff.mpr
      ⟨reportsOnly_of_forall_ne hp t, reportsOnlyAll_of_forall_ne hp ts⟩

end

/-- No rule asks for less nesting. -/
theorem Rule.reportsOnly_of_forall_ne (hp : ∀ e, e ≠ .lessNesting → p e = true)
    (rule : Rule ρ ν) : rule.reportsOnly p = true := by
  refine Bool.and_eq_true_iff.mpr ⟨rule.body.reportsOnly_of_forall_ne hp, ?_⟩
  simp [hp]

variable [BEq ρ] [Hashable ρ]

namespace Session

theorem lists_fail {s : Session ρ ν} (h : s.failures.Lists p) (offset : Nat) {e : Expectation}
    (he : p e = true) : (s.fail offset e).failures.Lists p := by
  unfold fail
  split
  · exact h.add offset he
  · exact h

/-- A rule with an expectation of its own reports it when the body fails. -/
theorem lists_closeRule {s : Session ρ ν} (h : s.failures.Lists p) (outer : Session ρ ν)
    {rule : Rule ρ ν} (hrule : rule.reportsOnly p = true) (c : Cursor)
    (result : Option (Match ν)) : (outer.closeRule rule c result s).failures.Lists p := by
  obtain ⟨name, expect, silent, body⟩ := rule
  cases expect with
  | none => exact h
  | some expect =>
      cases result with
      | some m => exact h
      | none =>
          -- The labels and the silence are restored first, which leaves the failures as they are.
          refine lists_fail ?_ c.offset (Bool.and_eq_true_iff.mp hrule).2
          exact h

end Session

/-- In a grammar whose rules all report expectations of a kind only, so do runs. -/
theorem Runs.lists [LawfulBEq ρ] [LawfulHashable ρ] {g : Grammar ρ ν} {settings : Settings}
    {n : Nat} {t : Term ρ ν} {c : Cursor} {s s' : Session ρ ν} {result : Option (Match ν)}
    (hg : ∀ r, (g.rule r).reportsOnly p = true) (h : Runs g settings n t c s result s')
    (ht : t.reportsOnly p = true) (hs : s.failures.Lists p) : s'.failures.Lists p := by
  induction h with
  | literal h | charIn hnext hmem | anyChar hnext | ruleRefused hover | ruleLimit hover | seqNil
  | choiceNil => exact hs
  | literalFail h | charInFail h | anyCharFail h => exact Session.lists_fail hs _ ht
  | @ruleKept n r c s result hover hkept =>
      obtain ⟨events, hits, heq⟩ := s.kept_eq settings.traced r c result
      rw [heq]
      exact hs
  | @ruleBody n r c s s₁ result hover hnew hbody ih =>
      obtain ⟨events, misses, henter⟩ := s.enterRule_eq settings g r c
      obtain ⟨memo, events', -, -, hleave⟩ := s.leaveRule_eq_closeRule settings g r c result s₁
      rw [henter] at ih
      rw [hleave]
      exact Session.lists_closeRule (ih (Bool.and_eq_true_iff.mp (hg r)).1 hs) s (hg r) c result
  | seqCons hhead htail ihhead ihtail | seqTailFail hhead htail ihhead ihtail
  | choiceLater hhead htail ihhead ihtail =>
      obtain ⟨hfirst, hlater⟩ := Bool.and_eq_true_iff.mp ht
      exact ihtail hlater (ihhead hfirst hs)
  | seqFail h ih | choiceHere h ih => exact ih (Bool.and_eq_true_iff.mp ht).1 hs
  | starMore h hmoved hrest ih ihrest => exact ihrest ht (ih ht hs)
  | action h hact ih | actionReject h hact ih | starEmpty h hstays ih => exact ih ht hs
  | _ h ih => exact ih ht hs

/-! ## Whole parses -/

namespace Grammar

variable {g : Grammar ρ ν} [LawfulBEq ρ] [LawfulHashable ρ]

theorem lists_session (hg : ∀ r, (g.rule r).reportsOnly p = true) (settings : Settings) (start : ρ)
    (source : String) : (g.parseFrom settings start source).session.failures.Lists p := by
  have hstart := placed_startEvaluation (ν := ν) settings start source
  exact (runs_evaluate g settings hstart).lists hg rfl FurthestFailure.lists_empty

/-- Less nesting is not expected by any term or rule, only by the limit itself. -/
theorem lessNesting_not_mem (g : Grammar ρ ν) (settings : Settings) (start : ρ)
    (source : String) :
    .lessNesting ∉ (g.parseFrom settings start source).session.failures.expected := by
  intro hmem
  have hlists := lists_session (p := (· ≠ .lessNesting))
    (fun r => (g.rule r).reportsOnly_of_forall_ne (by simp)) settings start source
  simpa using hlists.kind _ hmem

end Grammar

end PegScript

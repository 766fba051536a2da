import PegScript.Proofs.Semantics.Reentry
import PegScript.Proofs.Semantics.Rejections

/-!
# Values in any run

What is known of the values of rules holds in every run, also in one that goes beyond the nesting
limit: such a run has no derivation, but its rules still match through their bodies or out of the
memo table.  So what a term ensures of its value is what a run of the term gives (`Runs.ensured`).

The memo table holds derived outcomes in every run (`Runs.faithful`), since nothing is kept beyond
the limit.
-/

namespace PegScript

variable {ρ ν : Type} [BEq ρ] [Hashable ρ]

/-- The values in the memo table are as known of their rules. -/
def Session.Values (Q : ρ → Value ν → Prop) (s : Session ρ ν) : Prop :=
  ∀ (r : ρ) (offset : Nat) (m : Match ν), s.memo[(r, offset)]? = some (some m) → Q r m.value

/-- What is known of the values of rules holds of the body of each rule, when it holds of the
rules. -/
def Grammar.Keeps (g : Grammar ρ ν) (settings : Settings) (source : String)
    (Q : ρ → Value ν → Prop) : Prop :=
  ∀ (n : Nat) (r : ρ) (c : Cursor) (s s₁ : Session ρ ν) (m : Match ν)
    (bound : List (String × Value ν)),
    c.IsPlaceOf source → s.Placed source → s.Faithful g source → s.Values Q →
    Runs g settings n (g.rule r).body c s (some m) s₁ →
    (∀ P, (g.rule r).body.Ensures Q P → P m.value bound) → Q r m.value

namespace Session

variable {Q : ρ → Value ν → Prop} {s s' : Session ρ ν}

theorem values_empty : ({} : Session ρ ν).Values Q := by
  intro r offset m h
  simp at h

theorem Values.of_memo_eq (h : s.Values Q) (hmemo : s'.memo = s.memo) : s'.Values Q := by
  intro r offset m hentry
  rw [hmemo] at hentry
  exact h r offset m hentry

theorem Values.leaveRule [LawfulBEq ρ] [LawfulHashable ρ] (h : s.Values Q)
    (outer : Session ρ ν) (settings : Settings) (g : Grammar ρ ν) (r : ρ) (c : Cursor)
    {result : Option (Match ν)} (hresult : ∀ m, result = some m → Q r m.value) :
    (outer.leaveRule settings g r c result s).Values Q := by
  intro r' offset m hentry
  simp only [Session.leaveRule, reportResult_memo, remember, closeRule_overflow] at hentry
  split at hentry
  · simp only [closeRule_memo, Std.HashMap.getElem?_insert] at hentry
    split at hentry
    · rename_i hkey
      obtain ⟨rfl, -⟩ := Prod.mk.inj (LawfulBEq.eq_of_beq hkey)
      exact hresult m (Option.some.inj hentry)
    · exact h r' offset m hentry
  · rw [closeRule_memo] at hentry
    exact h r' offset m hentry

end Session

namespace Runs

variable {g : Grammar ρ ν} {settings : Settings} {source : String} {n : Nat} {t : Term ρ ν}
  {c : Cursor} {s s' : Session ρ ν} {result : Option (Match ν)}

/-- A rule leaves the labels around it. -/
theorem labels_of_rule {r : ρ} (h : Runs g settings n (.rule r) c s result s') :
    s'.labels = s.labels := by
  cases h with
  | ruleRefused hover | ruleLimit hover => rfl
  | ruleKept hover hkept => simp
  | ruleBody hover hnew hbody => simp

/-- Only within the nesting limit a rule matches. -/
theorem overflow_of_rule {r : ρ} {m : Match ν} (h : Runs g settings n (.rule r) c s (some m) s') :
    s.overflow = none := by
  cases h with
  | ruleKept hover hkept => exact hover
  | ruleBody hover hnew hbody => exact hover

theorem exists_list_of_star {m : Match ν} (h : Runs g settings n (.star t) c s (some m) s') :
    ∃ stop values, m = ⟨stop, .list values⟩ := by
  cases h <;> exact ⟨_, _, rfl⟩

/-- Where a term fails the labels are as before, and so they are after a repetition without
items. -/
theorem labels_of_fails (h : Runs g settings n t c s result s') :
    (result = none → s'.labels = s.labels) ∧
      ∀ u stop, t = .star u → result = some ⟨stop, .list []⟩ → s'.labels = s.labels := by
  induction h with
  | ruleLimit hover => exact ⟨fun _ => rfl, by simp⟩
  | choiceLater hfail h ihfail ih => exact ⟨fun hnone => (ih.1 hnone).trans (ihfail.1 rfl), by simp⟩
  | starStop h ih => exact ⟨by simp, fun _ _ _ _ => ih.1 rfl⟩
  | plusFail h ih => exact ⟨fun _ => ih.2 _ _ rfl rfl, by simp⟩
  | labelFail h ih | textFail h ih | pickFail h ih => exact ⟨fun _ => ih.1 rfl, by simp⟩
  | _ => simp

variable [LawfulBEq ρ] [LawfulHashable ρ]

/-- In every run the memo table holds derived outcomes only: beyond the nesting limit nothing is
kept. -/
theorem faithful (h : Runs g settings n t c s result s') (hplace : c.IsPlaceOf source)
    (hs : s.Placed source) (hfaithful : s.Faithful g source) : s'.Faithful g source := by
  induction h with
  | @ruleBody n r c s s₁ result hover hnew hbody ih =>
      have hrun := Runs.ruleBody hover hnew hbody
      have hbodyFaithful := ih hplace (hs.enterRule settings g r hplace)
        (hfaithful.of_memo_eq (by simp))
      by_cases hdone : s₁.overflow = none
      · exact (hrun.conforms hplace hfaithful (by simpa using hdone)).1
      · refine hbodyFaithful.of_memo_eq ?_
        simp [Session.leaveRule, Session.remember, hdone]
  | seqCons hhead htail ihhead ihtail | seqTailFail hhead htail ihhead ihtail =>
      obtain ⟨hs₁, hstop⟩ := hhead.placed hplace hs
      exact (ihtail (hplace.move (hstop _ rfl)) hs₁ (ihhead hplace hs hfaithful)).of_memo_eq rfl
  | choiceLater hhead htail ihhead ihtail =>
      exact ihtail hplace (hhead.placed hplace hs).1 (ihhead hplace hs hfaithful)
  | starMore hround hmoved hrest ihround ihrest =>
      obtain ⟨hs₁, hstop⟩ := hround.placed hplace hs
      exact ihrest (hplace.move (hstop _ rfl)) hs₁ (ihround hplace hs hfaithful)
  | not h ih | notFail h ih | and h ih | andFail h ih | action h hact ih | actionReject h hact ih
  | actionFail h ih =>
      exact (ih hplace (hs.of_eq rfl rfl rfl rfl) (hfaithful.of_memo_eq rfl)).of_memo_eq rfl
  | literal h | charIn hnext hmem | anyChar hnext | literalFail h | charInFail h | anyCharFail h
  | ruleRefused hover | ruleLimit hover | seqNil | choiceNil =>
      exact hfaithful.of_memo_eq (by simp)
  | ruleKept hover hkept => exact hfaithful.of_memo_eq (by simp)
  | starEmpty h hstays ih => exact ih hplace hs hfaithful
  | _ h ih => exact (ih hplace hs hfaithful).of_memo_eq rfl

variable {Q : ρ → Value ν → Prop}

/-- The values of rules are as known, and what a term ensures holds of what it matches.  The
induction is on the run; a rule that is evaluated matches through its body, and a step may use how
the body was run. -/
theorem ensured (hkeeps : g.Keeps settings source Q)
    (h : Runs g settings n t c s result s') (hplace : c.IsPlaceOf source)
    (hs : s.Placed source) (hfaithful : s.Faithful g source) (hvalues : s.Values Q) :
    s'.Values Q ∧ ∀ m, result = some m → ∃ bound, s'.labels = bound ++ s.labels ∧
      ∀ P, t.Ensures Q P → P m.value bound := by
  induction h with
  | literal h | charIn hnext hmem | anyChar hnext =>
      refine ⟨hvalues, ?_⟩
      rintro m ⟨⟩
      exact ⟨[], rfl, fun P hP => hP _⟩
  | literalFail h | charInFail h | anyCharFail h | ruleRefused hover | ruleLimit hover
  | choiceNil =>
      refine ⟨hvalues.of_memo_eq (by simp), ?_⟩
      rintro m ⟨⟩
  | @ruleKept n r c s result hover hkept =>
      refine ⟨hvalues.of_memo_eq (by simp), ?_⟩
      rintro m rfl
      have hvalue : Q r m.value := by
        unfold Session.memoized? at hkept
        split at hkept
        · exact hvalues r c.offset m hkept
        · cases hkept
      exact ⟨[], by simp, fun P hP => hP _ hvalue⟩
  | @ruleBody n r c s s₁ result hover hnew hbody ih =>
      have hs₀ := hs.enterRule settings g r hplace
      have hfaithful₀ : (s.enterRule settings g r c).Faithful g source :=
        hfaithful.of_memo_eq (by simp)
      have hvalues₀ : (s.enterRule settings g r c).Values Q := hvalues.of_memo_eq (by simp)
      obtain ⟨hvalues₁, hensured⟩ := ih hplace hs₀ hfaithful₀ hvalues₀
      have hvalue : ∀ m, result = some m → Q r m.value := by
        rintro m rfl
        obtain ⟨bound, -, hP⟩ := hensured m rfl
        exact hkeeps n r c _ s₁ m bound hplace hs₀ hfaithful₀ hvalues₀ hbody hP
      refine ⟨hvalues₁.leaveRule s settings g r c hvalue, ?_⟩
      rintro m rfl
      exact ⟨[], by simp, fun P hP => hP _ (hvalue m rfl)⟩
  | seqNil =>
      refine ⟨hvalues, ?_⟩
      rintro m ⟨⟩
      exact ⟨[], rfl, fun P hP => hP⟩
  | seqCons hhead htail ihhead ihtail =>
      obtain ⟨hs₁, hstop⟩ := hhead.placed hplace hs
      obtain ⟨hvalues₁, hfirst⟩ := ihhead hplace hs hfaithful hvalues
      obtain ⟨hvalues₂, hlast⟩ := ihtail (hplace.move (hstop _ rfl)) hs₁
        (hhead.faithful hplace hs hfaithful) hvalues₁
      refine ⟨hvalues₂, ?_⟩
      rintro m ⟨⟩
      obtain ⟨bound, hlabels, hP⟩ := hfirst _ rfl
      obtain ⟨bound', hlabels', hP'⟩ := hlast _ rfl
      refine ⟨bound' ++ bound, by rw [hlabels', hlabels, List.append_assoc], fun P hseq => ?_⟩
      exact hP' (Value.OnItems fun vs labels => P (.list (_ :: vs)) (labels ++ _)) (hP _ hseq)
  | seqTailFail hhead htail ihhead ihtail =>
      obtain ⟨hs₁, hstop⟩ := hhead.placed hplace hs
      obtain ⟨hvalues₁, -⟩ := ihhead hplace hs hfaithful hvalues
      obtain ⟨hvalues₂, -⟩ := ihtail (hplace.move (hstop _ rfl)) hs₁
        (hhead.faithful hplace hs hfaithful) hvalues₁
      refine ⟨hvalues₂.of_memo_eq rfl, ?_⟩
      rintro m ⟨⟩
  | choiceHere h ih =>
      obtain ⟨hvalues₁, hensured⟩ := ih hplace hs hfaithful hvalues
      refine ⟨hvalues₁, ?_⟩
      rintro m ⟨⟩
      obtain ⟨bound, hlabels, hP⟩ := hensured _ rfl
      exact ⟨bound, hlabels, fun P hchoice => hP P hchoice.1⟩
  | choiceLater hfail h ihfail ih =>
      obtain ⟨hvalues₁, -⟩ := ihfail hplace hs hfaithful hvalues
      obtain ⟨hvalues₂, hensured⟩ := ih hplace (hfail.placed hplace hs).1
        (hfail.faithful hplace hs hfaithful) hvalues₁
      refine ⟨hvalues₂, fun m hm => ?_⟩
      obtain ⟨bound, hlabels, hP⟩ := hensured m hm
      rw [hfail.labels_of_fails.1 rfl] at hlabels
      exact ⟨bound, hlabels, fun P hchoice => hP P hchoice.2⟩
  | starStop h ih =>
      refine ⟨(ih hplace hs hfaithful hvalues).1, ?_⟩
      rintro m ⟨⟩
      refine ⟨[], h.labels_of_fails.1 rfl, ?_⟩
      rintro P ⟨item, hitem, hP⟩
      exact hP [] (by simp)
  | starEmpty h hstays ih =>
      obtain ⟨hvalues₁, hensured⟩ := ih hplace hs hfaithful hvalues
      refine ⟨hvalues₁, ?_⟩
      rintro m ⟨⟩
      obtain ⟨bound, hlabels, hround⟩ := hensured _ rfl
      refine ⟨bound, hlabels, ?_⟩
      rintro P ⟨item, hitem, hP⟩
      obtain ⟨hv, rfl⟩ := hround _ hitem
      exact hP [_] (by simpa using hv)
  | starMore h hmoved hrest ih ihrest =>
      obtain ⟨hs₁, hstop⟩ := h.placed hplace hs
      obtain ⟨hvalues₁, hfirst⟩ := ih hplace hs hfaithful hvalues
      obtain ⟨hvalues₂, hlast⟩ := ihrest (hplace.move (hstop _ rfl)) hs₁
        (h.faithful hplace hs hfaithful) hvalues₁
      refine ⟨hvalues₂, ?_⟩
      rintro m ⟨⟩
      obtain ⟨bound, hlabels, hround⟩ := hfirst _ rfl
      obtain ⟨bound', hlabels', hrounds⟩ := hlast _ rfl
      refine ⟨bound' ++ bound, by rw [hlabels', hlabels, List.append_assoc], ?_⟩
      rintro P ⟨item, hitem, hP⟩
      obtain ⟨hv, rfl⟩ := hround _ hitem
      obtain ⟨hvs, hbound⟩ := hrounds
        (Value.OnItems fun vs labels => (∀ v ∈ vs, item v) ∧ labels = [])
        ⟨item, hitem, fun vs hvs => ⟨hvs, rfl⟩⟩
      subst hbound
      exact hP (_ :: _) (List.forall_mem_cons.mpr ⟨hv, hvs⟩)
  | plus h ih =>
      obtain ⟨hvalues₁, hensured⟩ := ih hplace hs hfaithful hvalues
      refine ⟨hvalues₁, ?_⟩
      rintro m ⟨⟩
      obtain ⟨bound, hlabels, hP⟩ := hensured _ rfl
      exact ⟨bound, hlabels, hP⟩
  | opt h ih =>
      obtain ⟨hvalues₁, hensured⟩ := ih hplace hs hfaithful hvalues
      refine ⟨hvalues₁, ?_⟩
      rintro m ⟨⟩
      obtain ⟨bound, hlabels, hP⟩ := hensured _ rfl
      exact ⟨bound, hlabels, fun P hopt => hP P hopt.1⟩
  | optAbsent h ih =>
      refine ⟨(ih hplace hs hfaithful hvalues).1, ?_⟩
      rintro m ⟨⟩
      exact ⟨[], h.labels_of_fails.1 rfl, fun P hopt => hopt.2⟩
  | not h ih | and h ih =>
      refine ⟨(ih hplace (hs.of_eq rfl rfl rfl rfl) (hfaithful.of_memo_eq rfl)
        (hvalues.of_memo_eq rfl)).1.of_memo_eq rfl, ?_⟩
      rintro m ⟨⟩
      exact ⟨[], rfl, fun P hP => hP⟩
  | notFail h ih | andFail h ih | actionReject h hact ih | actionFail h ih =>
      refine ⟨(ih hplace (hs.of_eq rfl rfl rfl rfl) (hfaithful.of_memo_eq rfl)
        (hvalues.of_memo_eq rfl)).1.of_memo_eq rfl, ?_⟩
      rintro m ⟨⟩
  | label h ih =>
      obtain ⟨hvalues₁, hensured⟩ := ih hplace hs hfaithful hvalues
      refine ⟨hvalues₁.of_memo_eq rfl, ?_⟩
      rintro m ⟨⟩
      obtain ⟨bound, hlabels, hP⟩ := hensured _ rfl
      exact ⟨_ :: bound, by rw [hlabels]; rfl, fun P hlabel => hP _ hlabel⟩
  | action h hact ih =>
      obtain ⟨hvalues₁, hensured⟩ := ih hplace (hs.of_eq rfl rfl rfl rfl)
        (hfaithful.of_memo_eq rfl) (hvalues.of_memo_eq rfl)
      refine ⟨hvalues₁.of_memo_eq rfl, ?_⟩
      rintro m ⟨⟩
      obtain ⟨bound, hlabels, hP⟩ := hensured _ rfl
      rw [List.append_nil] at hlabels
      subst hlabels
      exact ⟨[], rfl, fun P haction => hP _ haction _ _ _ _ hact⟩
  | text h ih =>
      obtain ⟨hvalues₁, hensured⟩ := ih hplace hs hfaithful hvalues
      refine ⟨hvalues₁, ?_⟩
      rintro m ⟨⟩
      obtain ⟨bound, hlabels, hP⟩ := hensured _ rfl
      exact ⟨bound, hlabels, fun P htext => hP _ htext _⟩
  | pick h ih =>
      obtain ⟨hvalues₁, hensured⟩ := ih hplace hs hfaithful hvalues
      refine ⟨hvalues₁, ?_⟩
      rintro m ⟨⟩
      obtain ⟨bound, hlabels, hP⟩ := hensured _ rfl
      exact ⟨bound, hlabels, fun P hpick => hP _ hpick⟩
  | seqFail h ih | plusFail h ih | labelFail h ih | textFail h ih | pickFail h ih =>
      refine ⟨(ih hplace hs hfaithful hvalues).1.of_memo_eq rfl, ?_⟩
      rintro m ⟨⟩

/-- What a term ensures when nothing is known of the rules. -/
theorem ensured_any {m : Match ν} {P : Value ν → List (String × Value ν) → Prop}
    (h : Runs g settings n t c s (some m) s') (hplace : c.IsPlaceOf source)
    (hs : s.Placed source) (hfaithful : s.Faithful g source)
    (hP : t.Ensures (fun _ _ => True) P) : ∃ bound, P m.value bound := by
  obtain ⟨-, hensured⟩ := h.ensured (Q := fun _ _ => True)
    (fun _ _ _ _ _ _ _ _ _ _ _ _ _ => trivial) hplace hs hfaithful (fun _ _ _ _ => trivial)
  obtain ⟨bound, -, hvalue⟩ := hensured m rfl
  exact ⟨bound, hvalue P hP⟩

end Runs

/-! ## Terms without rules -/

mutual

/-- Whether the term refers to no rule. -/
def Term.ruleFree : Term ρ ν → Bool
  | .literal _ _ | .charIn _ | .anyChar => true
  | .rule _ => false
  | .seq ts | .choice ts => ruleFreeAll ts
  | .star t | .plus t | .opt t | .not t | .and t | .label _ t | .action _ t | .text t
  | .pick _ t => ruleFree t

def Term.ruleFreeAll : List (Term ρ ν) → Bool
  | [] => true
  | t :: ts => ruleFree t && ruleFreeAll ts

end

/-- Only rules count towards the nesting limit. -/
theorem Runs.overflow_of_ruleFree {g : Grammar ρ ν} {settings : Settings} {n : Nat}
    {t : Term ρ ν} {c : Cursor} {s s' : Session ρ ν} {result : Option (Match ν)}
    (h : Runs g settings n t c s result s') (hfree : t.ruleFree = true) :
    s'.overflow = s.overflow := by
  induction h with
  | ruleRefused hover | ruleLimit hover | ruleKept hover hkept | ruleBody hover hnew hbody ih =>
      cases hfree
  | literalFail h | charInFail h | anyCharFail h => simp
  | literal h | charIn hnext hmem | anyChar hnext | seqNil | choiceNil => rfl
  | seqCons hhead htail ihhead ihtail | seqTailFail hhead htail ihhead ihtail
  | choiceLater hhead htail ihhead ihtail =>
      simp only [Term.ruleFree, Term.ruleFreeAll, Bool.and_eq_true] at hfree ihtail
      exact (ihtail hfree.2).trans (ihhead hfree.1)
  | seqFail h ih | choiceHere h ih =>
      simp only [Term.ruleFree, Term.ruleFreeAll, Bool.and_eq_true] at hfree
      exact ih hfree.1
  | starMore h hmoved hrest ih ihrest => exact (ihrest hfree).trans (ih hfree)
  | action h hact ih | actionReject h hact ih | starEmpty h hact ih => exact ih hfree
  | _ h ih => exact ih hfree

section Derived

variable {g : Grammar ρ ν} {settings : Settings} {source : String} {n : Nat} {t : Term ρ ν} {r : ρ}
  {c : Cursor} {s s' : Session ρ ν} {result : Option (Match ν)} {m : Match ν}

variable [LawfulBEq ρ] [LawfulHashable ρ]

/-- What the body of a rule ensures, when nothing is known of other rules, holds of the value of the
rule. -/
theorem Runs.value_of_body (h : Runs g settings n (.rule r) c s (some m) s')
    (hplace : c.IsPlaceOf source) (hs : s.Placed source) (hfaithful : s.Faithful g source)
    {K : Value ν → Prop} (hK : (g.rule r).body.Ensures (fun _ _ => True) fun v _ => K v) :
    K m.value := by
  cases h with
  | ruleKept hover hkept =>
      refine Derives.rule_value (Q := fun r' v => r' = r → K v) ?_
        (hfaithful.derives_of_kept hplace hkept) rfl
      rintro _ _ _ hbody - rfl
      exact hbody.ensured hK
  | ruleBody hover hnew hbody =>
      obtain ⟨-, hvalue⟩ := hbody.ensured_any hplace (hs.enterRule settings g r hplace)
        (hfaithful.of_memo_eq (by simp)) hK
      exact hvalue

/-- A rule whose body refers to no rule matches what is derived, in every run. -/
theorem Runs.derives_of_ruleFree (h : Runs g settings n (.rule r) c s (some m) s')
    (hplace : c.IsPlaceOf source) (hfaithful : s.Faithful g source)
    (hfree : (g.rule r).body.ruleFree = true) : Derives g (.rule r) c (some m.reading) := by
  cases h with
  | ruleKept hover hkept => exact hfaithful.derives_of_kept hplace hkept
  | ruleBody hover hnew hbody =>
      have hdone := (hbody.overflow_of_ruleFree hfree).trans (by simpa using hover)
      obtain ⟨labels, hderives⟩ :=
        hbody.exists_derives hplace (hfaithful.of_memo_eq (by simp)) hdone
      exact .rule hderives

end Derived

/-! ## Fixed texts -/

/-- What a run of the term matches is a text with the property. -/
def Term.Spelled (g : Grammar ρ ν) (t : Term ρ ν) (P : String → Prop) : Prop :=
  ∀ (settings : Settings) (source : String) (n : Nat) (c : Cursor) (s s' : Session ρ ν)
    (m : Match ν), c.IsPlaceOf source → s.Placed source → s.Faithful g source →
    Runs g settings n t c s (some m) s' → P (c.textTo m.stop)

section Spelled

variable {g : Grammar ρ ν} {t u : Term ρ ν} {ts : List (Term ρ ν)} {r : ρ} {P : String → Prop}

theorem Term.spelled_lit {text : String} (h : P text) : (Term.lit text).Spelled g P := by
  intro settings source n c s s' m hplace hs hfaithful hrun
  cases hrun with
  | literal hskip =>
      obtain ⟨hrest, hoffset⟩ := Cursor.skipLiteral?_eq_some_iff.mp hskip
      rwa [Cursor.textTo_eq_ofList hrest hoffset, String.ofList_toList]

/-- What must not follow a text is not part of it. -/
theorem Term.spelled_seq_not (h : t.Spelled g P) : (Term.seq [t, .not u]).Spelled g P := by
  intro settings source n c s s' m hplace hs hfaithful hrun
  cases hrun with
  | seqCons hhead hrest =>
      cases hrest with
      | seqCons hnot hnil =>
          cases hnot
          cases hnil
          have hspelled := h settings source n c s _ _ hplace hs hfaithful hhead
          exact hspelled

theorem Term.spelled_choice_nil : (Term.choice []).Spelled g P := by
  intro settings source n c s s' m hplace hs hfaithful hrun
  cases hrun

variable [LawfulBEq ρ] [LawfulHashable ρ]

theorem Term.spelled_choice (h : t.Spelled g P) (hs : (Term.choice ts).Spelled g P) :
    (Term.choice (t :: ts)).Spelled g P := by
  intro settings source n c s s' m hplace hsession hfaithful hrun
  cases hrun with
  | choiceHere hrun => exact h settings source n c s s' m hplace hsession hfaithful hrun
  | choiceLater hfail hrun =>
      exact hs settings source n c _ s' m hplace (hfail.placed hplace hsession).1
        (hfail.faithful hplace hsession hfaithful) hrun

/-- A kept outcome is derived, and the body of the rule, which refers to no rule, has a run with
this outcome. -/
theorem Term.spelled_rule (hfree : (g.rule r).body.ruleFree = true)
    (h : (g.rule r).body.Spelled g P) : (Term.rule r).Spelled g P := by
  intro settings source n c s s' m hplace hs hfaithful hrun
  cases hrun with
  | ruleBody hover hnew hbody =>
      exact h settings source _ c _ _ m hplace (hs.enterRule settings g r hplace)
        (hfaithful.of_memo_eq (by simp)) hbody
  | @ruleKept k _ _ _ _ hover hkept =>
      have hderives := hfaithful.derives_of_kept hplace hkept
      have hagain := Grammar.runs_evaluate g settings (e := ⟨k, (g.rule r).body, c, s⟩)
        ⟨hplace, hs⟩
      generalize (g.evaluate settings source.utf8ByteSize ⟨k, (g.rule r).body, c, s⟩).1 = result
        at hagain
      have hdone := (hagain.overflow_of_ruleFree hfree).trans hover
      cases result with
      | none =>
          cases hderives.functional (.ruleFail (hagain.derives_none hplace hfaithful hdone))
      | some m' =>
          obtain ⟨labels, hbody⟩ := hagain.exists_derives hplace hfaithful hdone
          have hstop : m.stop = m'.stop :=
            congrArg Reading.stop (Option.some.inj (hderives.functional (.rule hbody)))
          rw [hstop]
          exact h settings source k c s _ m' hplace hs hfaithful hagain

variable {settings : Settings} {source : String} {n : Nat} {c : Cursor} {s s' : Session ρ ν}
  {m : Match ν} {mark name : String} {gap next : ρ}

omit [LawfulBEq ρ] [LawfulHashable ρ] in
/-- An operator in front of an operand: the labels hold its text. -/
theorem Runs.labels_of_operator
    (h : Runs g settings n (.seq [.label mark (.text t), .rule gap, .label name (.rule next)])
      c s (some m) s') (hplace : c.IsPlaceOf source) (hs : s.Placed source)
    (hfaithful : s.Faithful g source) (ht : t.Spelled g P) :
    ∃ token value labels, P token ∧ s'.labels = (name, value) :: (mark, .text token) :: labels := by
  cases h with
  | seqCons hmark h =>
    cases hmark with
    | label hmark =>
      cases hmark with
      | text hspelled =>
        cases h with
        | seqCons hgap h =>
          cases h with
          | seqCons hname h =>
            cases hname with
            | label hnext =>
              cases h
              have htoken := ht settings source n c s _ _ hplace hs hfaithful hspelled
              exact ⟨_, _, _, htoken, by rw [hnext.labels_of_rule, hgap.labels_of_rule]⟩

end Spelled

/-! ## The evaluations of a parse -/

/-- The evaluation stands at a place of the source, and its memo table holds derived outcomes with
values as known. -/
structure Evaluation.Valued (g : Grammar ρ ν) (source : String) (Q : ρ → Value ν → Prop)
    (e : Evaluation ρ ν) : Prop where
  placed : e.Placed source
  faithful : e.session.Faithful g source
  values : e.session.Values Q

namespace Grammar

variable {g : Grammar ρ ν} {settings : Settings} {source : String} {Q : ρ → Value ν → Prop}
  {A : ActionM ν (Value ν) → Term ρ ν → Prop} {e e' : Evaluation ρ ν}

section Values

variable [LawfulBEq ρ] [LawfulHashable ρ]

theorem Calls.valued (hkeeps : g.Keeps settings source Q)
    (h : g.Calls settings source.utf8ByteSize e e') (he : e.Valued g source Q) :
    e'.Valued g source Q := by
  obtain ⟨hplaced, hfaithful, hvalues⟩ := he
  have hcalled := h.placed hplaced
  cases h with
  | rule hover hnew =>
      exact ⟨hcalled, hfaithful.of_memo_eq (by simp), hvalues.of_memo_eq (by simp)⟩
  | seqTail hhead | choiceTail hhead | starAgain hhead hmoved =>
      have hfirst := runs_of_evaluate hplaced.place hplaced.session hhead
      exact ⟨hcalled, hfirst.faithful hplaced.place hplaced.session hfaithful,
        (hfirst.ensured hkeeps hplaced.place hplaced.session hfaithful hvalues).1⟩
  | not | and | action => exact ⟨hcalled, hfaithful.of_memo_eq rfl, hvalues.of_memo_eq rfl⟩
  | seqHead | choiceHead | starRound | plus | opt | label | text | pick =>
      exact ⟨hcalled, hfaithful, hvalues⟩

theorem valued_of_reached (hkeeps : g.Keeps settings source Q)
    (h : g.Reached settings source e e') (he : e.Valued g source Q) : e'.Valued g source Q := by
  induction h with
  | refl => exact he
  | tail _ hcall ih => exact hcall.valued hkeeps ih

/-- A rule that is evaluated has a value as known of it. -/
theorem value_of_evaluate (hkeeps : g.Keeps settings source Q) (he : e.Valued g source Q)
    {r : ρ} (hterm : e.term = .rule r) {m : Match ν} {s : Session ρ ν}
    (h : g.evaluate settings source.utf8ByteSize e = (some m, s)) : Q r m.value := by
  obtain ⟨n, t, c, s₀⟩ := e
  obtain ⟨hplaced, hfaithful, hvalues⟩ := he
  subst hterm
  have hrun := runs_of_evaluate hplaced.place hplaced.session h
  obtain ⟨-, hensured⟩ :=
    hrun.ensured hkeeps hplaced.place hplaced.session hfaithful hvalues
  obtain ⟨bound, -, hvalue⟩ := hensured m rfl
  exact hvalue (fun v _ => Q r v) fun v hv => hv

end Values

/-- Where the actions of all bodies are accounted for, so are those of all terms in the course of an
evaluation. -/
theorem Calls.accounted (hbody : ∀ r, (g.rule r).body.Accounted A)
    (h : g.Calls settings source.utf8ByteSize e e') (he : e.term.Accounted A) :
    e'.term.Accounted A := by
  cases h with
  | rule hover hnew => exact hbody _
  | seqHead | choiceHead => exact he.1
  | seqTail hhead | choiceTail hhead => exact he.2
  | action => exact he.2
  | _ => exact he

theorem accounted_of_reached (hbody : ∀ r, (g.rule r).body.Accounted A)
    (h : g.Reached settings source e e') (he : e.term.Accounted A) : e'.term.Accounted A := by
  induction h with
  | refl => exact he
  | tail _ hcall ih => exact hcall.accounted hbody ih

end Grammar

end PegScript

import PegScript.Parse.Engine

/-!
# What a match puts back

A match changes the session while it runs: a lookahead is silent, a named rule notes its start, and
labels are bound for the action around.  Afterwards silence and the start of the named rule are as
they were, and a failed match leaves no labels (`Session.Restored`).

A match does not see the labels that were bound before it.  With further labels below, it ends in
the same way, and the labels that it binds come on top of them.  The two facts together make a
matcher tidy (`Matcher.Tidy`); every operator keeps it, so every term and every rule has it.
-/

namespace PegScript

variable {ρ ν : Type} [BEq ρ] [Hashable ρ]

/-! ## Sessions with further labels -/

namespace Session

/-- The session with further labels below those it has. -/
def onTopOf (s : Session ρ ν) (below : List (String × Value ν)) : Session ρ ν :=
  { s with labels := s.labels ++ below }

variable (s : Session ρ ν) (below : List (String × Value ν))

@[simp] theorem fail_onTopOf (offset : Nat) (e : Expectation) :
    (s.onTopOf below).fail offset e = (s.fail offset e).onTopOf below := by
  unfold fail onTopOf
  split <;> rfl

@[simp] theorem report_onTopOf (traced : Bool) (e : Event ρ) :
    (s.onTopOf below).report traced e = (s.report traced e).onTopOf below := by
  unfold report
  split <;> rfl

@[simp] theorem reportEnter_onTopOf (traced : Bool) (r : ρ) (c : Cursor) :
    (s.onTopOf below).reportEnter traced r c = (s.reportEnter traced r c).onTopOf below :=
  s.report_onTopOf below traced _

@[simp] theorem reportResult_onTopOf (traced : Bool) (r : ρ) (c : Cursor)
    (result : Option (Match ν)) (cached : Bool) :
    (s.onTopOf below).reportResult traced r c result cached =
      (s.reportResult traced r c result cached).onTopOf below := by
  cases result <;> exact s.report_onTopOf below traced _

@[simp] theorem countMiss_onTopOf (memoize : Bool) :
    (s.onTopOf below).countMiss memoize = (s.countMiss memoize).onTopOf below := by
  unfold countMiss
  split <;> rfl

@[simp] theorem remember_onTopOf (memoize : Bool) (r : ρ) (offset : Nat)
    (result : Option (Match ν)) :
    (s.onTopOf below).remember memoize r offset result =
      (s.remember memoize r offset result).onTopOf below := by
  unfold remember onTopOf
  split <;> rfl

/-- A match that started in the session `s` and ended in `s'` has put back what it changed for its
own time, and its labels if it failed. -/
structure Restored (s : Session ρ ν) (result : Option (Match ν)) (s' : Session ρ ν) : Prop where
  silent : s'.silent = s.silent
  namedStart : s'.namedStart = s.namedStart
  labels : result = none → s'.labels = s.labels

/-- The two sessions agree in what a match puts back. -/
structure Alike (s s' : Session ρ ν) : Prop where
  silent : s'.silent = s.silent
  namedStart : s'.namedStart = s.namedStart
  labels : s'.labels = s.labels

variable {s s' s'' : Session ρ ν} {result : Option (Match ν)}

theorem Alike.refl (s : Session ρ ν) : s.Alike s :=
  ⟨rfl, rfl, rfl⟩

theorem Alike.trans (h : s.Alike s') (h' : s'.Alike s'') : s.Alike s'' :=
  ⟨h'.silent.trans h.silent, h'.namedStart.trans h.namedStart, h'.labels.trans h.labels⟩

theorem Alike.restored (h : s.Alike s') : s.Restored result s' :=
  ⟨h.silent, h.namedStart, fun _ => h.labels⟩

theorem alike_fail (s : Session ρ ν) (offset : Nat) (e : Expectation) :
    s.Alike (s.fail offset e) := by
  unfold fail
  split <;> exact ⟨rfl, rfl, rfl⟩

theorem alike_report (s : Session ρ ν) (traced : Bool) (e : Event ρ) :
    s.Alike (s.report traced e) := by
  unfold report
  split <;> exact ⟨rfl, rfl, rfl⟩

theorem alike_reportEnter (s : Session ρ ν) (traced : Bool) (r : ρ) (c : Cursor) :
    s.Alike (s.reportEnter traced r c) :=
  s.alike_report traced _

theorem alike_countHit (s : Session ρ ν) : s.Alike s.countHit :=
  ⟨rfl, rfl, rfl⟩

theorem alike_reportResult (s : Session ρ ν) (traced : Bool) (r : ρ) (c : Cursor)
    (result : Option (Match ν)) (cached : Bool) :
    s.Alike (s.reportResult traced r c result cached) := by
  cases result <;> exact s.alike_report traced _

theorem alike_countMiss (s : Session ρ ν) (memoize : Bool) : s.Alike (s.countMiss memoize) := by
  unfold countMiss
  split <;> exact ⟨rfl, rfl, rfl⟩

theorem alike_remember (s : Session ρ ν) (memoize : Bool) (r : ρ) (offset : Nat)
    (result : Option (Match ν)) : s.Alike (s.remember memoize r offset result) := by
  unfold remember
  split <;> exact ⟨rfl, rfl, rfl⟩

end Session

/-- The matcher puts back what it changes, and does not see the labels below those it binds. -/
def Matcher.Tidy (p : Matcher ρ ν) : Prop :=
  ∀ (c : Cursor) (s : Session ρ ν), s.Restored (p c s).1 (p c s).2 ∧
    ∀ below, p c (s.onTopOf below) = ((p c s).1, (p c s).2.onTopOf below)

namespace Matcher

variable {p : Matcher ρ ν}

/-- Without labels a match ends as it does with them, and then they are below its own. -/
theorem Tidy.of_no_labels (h : Tidy p) {c : Cursor} {s s' : Session ρ ν}
    {result : Option (Match ν)} (hrun : p c { s with labels := [] } = (result, s')) :
    p c s = (result, s'.onTopOf s.labels) := by
  have hframe := (h c { s with labels := [] }).2 s.labels
  rw [hrun] at hframe
  exact hframe

/-- A match only adds labels. -/
theorem Tidy.exists_labels (h : Tidy p) {c : Cursor} {s s' : Session ρ ν}
    {result : Option (Match ν)} (hrun : p c s = (result, s')) :
    ∃ new, s'.labels = new ++ s.labels := by
  have hsame := h.of_no_labels (c := c) (s := s) rfl
  rw [hrun] at hsame
  exact ⟨_, congrArg (fun out => out.2.labels) hsame⟩

/-- The labels after a match are those before it, whether it fails or not. -/
def LeavesLabels (p : Matcher ρ ν) : Prop :=
  ∀ (c : Cursor) (s : Session ρ ν), (p c s).2.labels = s.labels

theorem leavesLabels_dropLabels (p : Matcher ρ ν) : LeavesLabels (dropLabels p) :=
  fun _ _ => rfl

theorem LeavesLabels.silently (h : LeavesLabels p) : LeavesLabels (silently p) :=
  fun c s => h c { s with silent := s.silent + 1 }

theorem leavesLabels_lookahead (positive : Bool) (p : Matcher ρ ν) :
    LeavesLabels (lookahead positive p) :=
  fun _ _ => rfl

/-! ## Characters and texts -/

theorem tidy_literal (text : String) (ignoreCase : Bool) :
    Tidy (literal text ignoreCase : Matcher ρ ν) := by
  intro c s
  unfold literal
  cases hskip : c.skipLiteral? text ignoreCase with
  | some stop => exact ⟨(Session.Alike.refl s).restored, fun below => rfl⟩
  | none => exact ⟨(s.alike_fail _ _).restored, fun below => by simp⟩

theorem tidy_charIn (k : CharClass) : Tidy (charIn k : Matcher ρ ν) := by
  intro c s
  unfold charIn
  cases hnext : c.next? with
  | none => exact ⟨(s.alike_fail _ _).restored, fun below => by simp⟩
  | some next =>
      dsimp only
      cases hmem : k.contains next.1 with
      | true => exact ⟨(Session.Alike.refl s).restored, fun below => rfl⟩
      | false => exact ⟨(s.alike_fail _ _).restored, fun below => by simp⟩

theorem tidy_anyChar : Tidy (anyChar : Matcher ρ ν) := by
  intro c s
  unfold anyChar
  cases hnext : c.next? with
  | some next => exact ⟨(Session.Alike.refl s).restored, fun below => rfl⟩
  | none => exact ⟨(s.alike_fail _ _).restored, fun below => by simp⟩

/-! ## Operators -/

theorem Tidy.opt (h : Tidy p) : Tidy (opt p) := by
  intro c s
  obtain ⟨hrestored, hframe⟩ := h c s
  unfold Matcher.opt
  simp only [hframe]
  generalize p c s = out at hrestored ⊢
  obtain ⟨_ | m, s₁⟩ := out
  · exact ⟨⟨hrestored.silent, hrestored.namedStart, by simp⟩, fun _ => rfl⟩
  · exact ⟨hrestored, fun _ => rfl⟩

/-- A matcher stays tidy if the matches that it finds are changed. -/
theorem Tidy.map (h : Tidy p) {q : Matcher ρ ν} (f : Cursor → Match ν → Match ν)
    (hq : ∀ c s, q c s = ((p c s).1.map (f c), (p c s).2)) : Tidy q := by
  intro c s
  obtain ⟨hrestored, hframe⟩ := h c s
  rw [hq]
  refine ⟨⟨hrestored.silent, hrestored.namedStart, fun hnone => ?_⟩, fun below => ?_⟩
  · exact hrestored.labels (Option.map_eq_none_iff.mp hnone)
  · rw [hq, hframe]

theorem Tidy.text (h : Tidy p) : Tidy (text p) := by
  refine h.map (fun c m => ⟨m.stop, .text (c.textTo m.stop)⟩) fun c s => ?_
  unfold Matcher.text
  cases p c s with
  | mk result₁ s₁ => cases result₁ <;> rfl

theorem Tidy.pick (h : Tidy p) (index : Nat) : Tidy (pick index p) := by
  refine h.map (fun _ m => ⟨m.stop, m.value.pick index⟩) fun c s => ?_
  unfold Matcher.pick
  cases p c s with
  | mk result₁ s₁ => cases result₁ <;> rfl

theorem Tidy.label (h : Tidy p) (name : String) : Tidy (label name p) := by
  intro c s
  obtain ⟨hrestored, hframe⟩ := h c s
  unfold Matcher.label
  simp only [hframe]
  generalize p c s = out at hrestored ⊢
  obtain ⟨_ | m, s₁⟩ := out
  · exact ⟨hrestored, fun _ => rfl⟩
  · exact ⟨⟨hrestored.silent, hrestored.namedStart, by simp⟩, fun _ => rfl⟩

theorem Tidy.silently (h : Tidy p) : Tidy (silently p) := by
  intro c s
  obtain ⟨hrestored, hframe⟩ := h c { s with silent := s.silent + 1 }
  refine ⟨⟨?_, hrestored.namedStart, hrestored.labels⟩, fun below => ?_⟩
  · exact congrArg (· - 1) hrestored.silent
  · exact congrArg endSilence (hframe below)

theorem Tidy.dropLabels (h : Tidy p) : Tidy (dropLabels p) := by
  intro c s
  obtain ⟨hrestored, hframe⟩ := h c s
  refine ⟨⟨hrestored.silent, hrestored.namedStart, fun _ => rfl⟩, fun below => ?_⟩
  unfold Matcher.dropLabels
  rw [hframe]
  rfl

theorem Tidy.expecting (h : Tidy p) (expect : String) : Tidy (expecting expect p) := by
  intro c s
  obtain ⟨hrestored, hframe⟩ := h c { s with namedStart := some c.offset }
  have hbelow (below : List (String × Value ν)) :
      p c { s.onTopOf below with namedStart := some c.offset } = _ := hframe below
  unfold Matcher.expecting
  simp only [hbelow]
  generalize p c _ = out at hrestored ⊢
  obtain ⟨_ | m, s₁⟩ := out
  · have hfail := Session.alike_fail { s₁ with namedStart := s.namedStart } c.offset
      (.named expect)
    refine ⟨⟨hfail.silent.trans hrestored.silent, hfail.namedStart, fun _ => ?_⟩, fun below => ?_⟩
    · exact hfail.labels.trans (hrestored.labels rfl)
    · simp only [endNamed, ← Session.fail_onTopOf]
      rfl
  · exact ⟨⟨hrestored.silent, rfl, by simp [endNamed]⟩, fun _ => rfl⟩

theorem LeavesLabels.expecting (h : LeavesLabels p) (expect : String) :
    LeavesLabels (expecting expect p) := by
  intro c s
  have hlabels := h c { s with namedStart := some c.offset }
  unfold Matcher.expecting
  cases hp : p c { s with namedStart := some c.offset } with
  | mk result₁ s₁ =>
      rw [hp] at hlabels
      cases result₁ with
      | none =>
          have hfail := Session.alike_fail { s₁ with namedStart := s.namedStart } c.offset
            (.named expect)
          exact hfail.labels.trans hlabels
      | some m => exact hlabels

theorem Tidy.lookahead (h : Tidy p) (positive : Bool) : Tidy (lookahead positive p) := by
  intro c s
  obtain ⟨hrestored, hframe⟩ := h.silently.dropLabels c s
  refine ⟨⟨hrestored.silent, hrestored.namedStart, fun _ => rfl⟩, fun below => ?_⟩
  unfold Matcher.lookahead
  rw [hframe]

theorem leavesLabels_action (act : ActionM ν (Value ν)) (p : Matcher ρ ν) :
    LeavesLabels (action act p) := by
  intro c s
  unfold action
  cases p c { s with labels := [] } with
  | mk result₁ s₁ => cases result₁ <;> rfl

/-- The labels of an action are its own, and the ones around are put back. -/
theorem Tidy.action (h : Tidy p) (act : ActionM ν (Value ν)) : Tidy (action act p) := by
  intro c s
  obtain ⟨hrestored, -⟩ := h c { s with labels := [] }
  have hsame (below : List (String × Value ν)) :
      p c { s.onTopOf below with labels := [] } = p c { s with labels := [] } := rfl
  unfold Matcher.action
  simp only [hsame]
  generalize p c _ = out at hrestored ⊢
  obtain ⟨_ | m, s₁⟩ := out
  · exact ⟨⟨hrestored.silent, hrestored.namedStart, fun _ => rfl⟩, fun _ => rfl⟩
  · exact ⟨⟨hrestored.silent, hrestored.namedStart, fun _ => rfl⟩, fun _ => rfl⟩

/-- The values collected before come first. -/
theorem reverse_prefix_of_repeatFrom (p : Matcher ρ ν) (bound : Nat) (collected : List (Value ν))
    (c : Cursor) (s : Session ρ ν) :
    collected.reverse <+: (repeatFrom p bound collected c s).1.1 := by
  fun_induction repeatFrom p bound collected c s with
  | case1 collected c s => exact List.prefix_rfl
  | case2 bound collected c s s₁ hp => exact List.prefix_rfl
  | case3 bound collected c s m s₁ hp hstays =>
      rw [List.reverse_cons]
      exact List.prefix_append _ _
  | case4 bound collected c s m s₁ hp hmoved ih =>
      rw [List.reverse_cons] at ih
      exact (List.prefix_append _ _).trans ih

/-- A repetition puts back what each of its rounds puts back, and without any round that matched it
has bound no labels. -/
theorem Tidy.repeatFrom (h : Tidy p) (bound : Nat) (collected : List (Value ν)) (c : Cursor)
    (s : Session ρ ν) :
    (repeatFrom p bound collected c s).2.silent = s.silent ∧
      (repeatFrom p bound collected c s).2.namedStart = s.namedStart ∧
      ((repeatFrom p bound collected c s).1.1 = [] →
        (repeatFrom p bound collected c s).2.labels = s.labels) ∧
      ∀ below, repeatFrom p bound collected c (s.onTopOf below) =
        ((repeatFrom p bound collected c s).1,
          (repeatFrom p bound collected c s).2.onTopOf below) := by
  induction bound generalizing collected c s with
  | zero => exact ⟨rfl, rfl, fun _ => rfl, fun _ => rfl⟩
  | succ bound ih =>
      obtain ⟨hrestored, hframe⟩ := h c s
      unfold Matcher.repeatFrom
      simp only [hframe]
      generalize p c s = out at hrestored ⊢
      obtain ⟨_ | m, s₁⟩ := out
      · exact ⟨hrestored.silent, hrestored.namedStart, fun _ => hrestored.labels rfl, fun _ => rfl⟩
      · by_cases hstays : m.stop.offset = c.offset
        · simp only [if_pos hstays]
          exact ⟨hrestored.silent, hrestored.namedStart, by simp, by simp⟩
        · simp only [if_neg hstays]
          have hcollected := reverse_prefix_of_repeatFrom p bound (m.value :: collected) m.stop s₁
          obtain ⟨hsilent, hnamed, -, hrest⟩ := ih (m.value :: collected) m.stop s₁
          refine ⟨hsilent.trans hrestored.silent, hnamed.trans hrestored.namedStart, ?_, hrest⟩
          intro hnil
          rw [hnil] at hcollected
          simp at hcollected

theorem Tidy.star (h : Tidy p) (size : Nat) : Tidy (star size p) := by
  intro c s
  obtain ⟨hsilent, hnamed, -, hframe⟩ := h.repeatFrom (size - c.offset + 1) [] c s
  refine ⟨⟨hsilent, hnamed, by simp [Matcher.star]⟩, fun below => ?_⟩
  unfold Matcher.star
  rw [hframe]

theorem Tidy.plus (h : Tidy p) (size : Nat) : Tidy (plus size p) := by
  intro c s
  obtain ⟨hsilent, hnamed, hlabels, hframe⟩ := h.repeatFrom (size - c.offset + 1) [] c s
  unfold Matcher.plus
  simp only [hframe]
  generalize Matcher.repeatFrom p (size - c.offset + 1) [] c s = ended at hsilent hnamed hlabels ⊢
  obtain ⟨⟨_ | ⟨value, values⟩, stop⟩, s₁⟩ := ended
  · exact ⟨⟨hsilent, hnamed, fun _ => hlabels rfl⟩, fun _ => rfl⟩
  · exact ⟨⟨hsilent, hnamed, by simp⟩, fun _ => rfl⟩

end Matcher

/-! ## Terms -/

namespace Term

variable {call : ρ → Matcher ρ ν}

mutual

/-- With tidy matchers for the rules, the matcher of a term is tidy. -/
theorem run_tidy (hcall : ∀ r, (call r).Tidy) (size : Nat) :
    ∀ t : Term ρ ν, Matcher.Tidy (t.run size call)
  | .literal word ignoreCase => by
      unfold run
      exact Matcher.tidy_literal word ignoreCase
  | .charIn k => by
      unfold run
      exact Matcher.tidy_charIn k
  | .anyChar => by
      unfold run
      exact Matcher.tidy_anyChar
  | .rule r => by
      unfold run
      exact hcall r
  | .seq ts => by
      intro c s
      obtain ⟨hsilent, hnamed, hframe⟩ := runSeq_tidy hcall size ts c s
      unfold run
      simp only [hframe]
      generalize runSeq size call ts c s = out at hsilent hnamed ⊢
      obtain ⟨_ | reached, s₁⟩ := out
      · exact ⟨⟨hsilent, hnamed, fun _ => rfl⟩, fun _ => rfl⟩
      · exact ⟨⟨hsilent, hnamed, by simp [Matcher.endSeq]⟩, fun _ => rfl⟩
  | .choice ts => by
      unfold run
      exact runChoice_tidy hcall size ts
  | .star t => by
      unfold run
      exact (run_tidy hcall size t).star size
  | .plus t => by
      unfold run
      exact (run_tidy hcall size t).plus size
  | .opt t => by
      unfold run
      exact (run_tidy hcall size t).opt
  | .not t => by
      unfold run
      exact (run_tidy hcall size t).lookahead false
  | .and t => by
      unfold run
      exact (run_tidy hcall size t).lookahead true
  | .label name t => by
      unfold run
      exact (run_tidy hcall size t).label name
  | .action act t => by
      unfold run
      exact (run_tidy hcall size t).action act
  | .text t => by
      unfold run
      exact (run_tidy hcall size t).text
  | .pick index t => by
      unfold run
      exact (run_tidy hcall size t).pick index

/-- Terms one after the other: those before one that fails may have bound labels. -/
theorem runSeq_tidy (hcall : ∀ r, (call r).Tidy) (size : Nat) :
    ∀ (ts : List (Term ρ ν)) (c : Cursor) (s : Session ρ ν),
      (runSeq size call ts c s).2.silent = s.silent ∧
        (runSeq size call ts c s).2.namedStart = s.namedStart ∧
        ∀ below, runSeq size call ts c (s.onTopOf below) =
          ((runSeq size call ts c s).1, (runSeq size call ts c s).2.onTopOf below)
  | [], c, s => ⟨rfl, rfl, fun _ => rfl⟩
  | t :: ts, c, s => by
      obtain ⟨hrestored, hframe⟩ := run_tidy hcall size t c s
      unfold runSeq
      simp only [hframe]
      generalize t.run size call c s = out at hrestored ⊢
      obtain ⟨_ | m, s₁⟩ := out
      · exact ⟨hrestored.silent, hrestored.namedStart, fun _ => rfl⟩
      · obtain ⟨hsilent, hnamed, hframe'⟩ := runSeq_tidy hcall size ts m.stop s₁
        simp only [hframe']
        generalize runSeq size call ts m.stop s₁ = ended at hsilent hnamed ⊢
        have hsilent' := hsilent.trans hrestored.silent
        have hnamed' := hnamed.trans hrestored.namedStart
        obtain ⟨_ | reached, s₂⟩ := ended
        · exact ⟨hsilent', hnamed', fun _ => rfl⟩
        · exact ⟨hsilent', hnamed', fun _ => rfl⟩

theorem runChoice_tidy (hcall : ∀ r, (call r).Tidy) (size : Nat) :
    ∀ ts : List (Term ρ ν), Matcher.Tidy (runChoice size call ts)
  | [], c, s => ⟨(Session.Alike.refl s).restored, fun _ => rfl⟩
  | t :: ts, c, s => by
      obtain ⟨hrestored, hframe⟩ := run_tidy hcall size t c s
      unfold runChoice
      simp only [hframe]
      generalize t.run size call c s = out at hrestored ⊢
      obtain ⟨_ | m, s₁⟩ := out
      · obtain ⟨hlater, hframe'⟩ := runChoice_tidy hcall size ts c s₁
        refine ⟨⟨hlater.silent.trans hrestored.silent,
          hlater.namedStart.trans hrestored.namedStart, fun hnone => ?_⟩, hframe'⟩
        exact (hlater.labels hnone).trans (hrestored.labels rfl)
      · exact ⟨hrestored, fun _ => rfl⟩

end

end Term

/-- Terms one after the other only add labels. -/
theorem Term.exists_labels_of_runSeq {call : ρ → Matcher ρ ν} (hcall : ∀ r, (call r).Tidy)
    {size : Nat} {ts : List (Term ρ ν)} {c : Cursor} {s s' : Session ρ ν}
    {reached : Option (Cursor × List (Value ν))} (hrun : runSeq size call ts c s = (reached, s')) :
    ∃ new, s'.labels = new ++ s.labels := by
  have hframe := (runSeq_tidy hcall size ts c { s with labels := [] }).2.2 s.labels
  have hsame : runSeq size call ts c s = _ := hframe
  rw [hrun] at hsame
  exact ⟨_, congrArg (fun out => out.2.labels) hsame⟩

/-! ## Rules -/

namespace Grammar

variable {size : Nat} {call : ρ → Matcher ρ ν} {rule : Rule ρ ν}

/-- What holds of the body without its labels, and stays so in silence and under a name, holds of
the rule. -/
theorem runBody_induction {P : Matcher ρ ν → Prop}
    (hbody : P (Matcher.dropLabels (rule.body.run size call)))
    (hsilently : ∀ p, P p → P (Matcher.silently p))
    (hexpecting : ∀ p expect, P p → P (Matcher.expecting expect p)) :
    P (runBody size call rule) := by
  obtain ⟨name, expect, silent, body⟩ := rule
  cases expect with
  | none =>
      cases silent with
      | false => exact hbody
      | true => exact hsilently _ hbody
  | some expect =>
      cases silent with
      | false => exact hexpecting _ expect hbody
      | true => exact hexpecting _ expect (hsilently _ hbody)

theorem leavesLabels_runBody (size : Nat) (call : ρ → Matcher ρ ν) (rule : Rule ρ ν) :
    (runBody size call rule).LeavesLabels :=
  runBody_induction (Matcher.leavesLabels_dropLabels _) (fun _ h => h.silently)
    fun _ expect h => h.expecting expect

theorem runBody_tidy (h : Matcher.Tidy (rule.body.run size call)) :
    (runBody size call rule).Tidy :=
  runBody_induction h.dropLabels (fun _ h => h.silently) fun _ expect h => h.expecting expect

variable {g : Grammar ρ ν} {settings : Settings} {n : Nat} {r : ρ} {c : Cursor}
  {s : Session ρ ν}

/-- Once too many rules were active no rule matches. -/
theorem runRule_of_overflow {offset : Nat} (hover : s.overflow = some offset) :
    g.runRule settings size n r c s = (none, s) := by
  cases n <;> simp [runRule, hover]

theorem runRule_zero (hover : s.overflow = none) :
    g.runRule settings size 0 r c s = (none, { s with overflow := some c.offset }) := by
  simp [runRule, hover]

theorem memoized?_reportEnter :
    (s.reportEnter settings.traced r c).memoized? settings.memoize r c.offset =
      s.memoized? settings.memoize r c.offset := by
  unfold Session.reportEnter Session.report
  split <;> rfl

/-- A rule whose outcome at the place is known. -/
theorem runRule_of_kept {result : Option (Match ν)} (hover : s.overflow = none)
    (hkept : s.memoized? settings.memoize r c.offset = some result) :
    g.runRule settings size (n + 1) r c s =
      (result, (s.reportEnter settings.traced r c).countHit.reportResult settings.traced r c
        result true) := by
  simp [runRule, hover, memoized?_reportEnter, hkept]

/-- A rule whose outcome at the place is not known is matched by its body. -/
theorem runRule_of_new (hover : s.overflow = none)
    (hnew : s.memoized? settings.memoize r c.offset = none) {result : Option (Match ν)}
    {s₁ : Session ρ ν}
    (hbody : runBody size (g.runRule settings size n) (g.rule r) c
      ((s.reportEnter settings.traced r c).countMiss settings.memoize) = (result, s₁)) :
    g.runRule settings size (n + 1) r c s =
      (result, (s₁.remember settings.memoize r c.offset result).reportResult settings.traced r c
        result false) := by
  simp [runRule, hover, memoized?_reportEnter, hnew, hbody]

/-- What is noted about an outcome that was known touches nothing that a match puts back. -/
theorem alike_of_kept (s : Session ρ ν) (settings : Settings) (r : ρ) (c : Cursor)
    (result : Option (Match ν)) :
    s.Alike ((s.reportEnter settings.traced r c).countHit.reportResult settings.traced r c
      result true) :=
  (s.alike_reportEnter _ r c).trans
    ((Session.alike_countHit _).trans (Session.alike_reportResult _ _ r c result true))

theorem alike_before_body (s : Session ρ ν) (settings : Settings) (r : ρ) (c : Cursor) :
    s.Alike ((s.reportEnter settings.traced r c).countMiss settings.memoize) :=
  (s.alike_reportEnter _ r c).trans (Session.alike_countMiss _ _)

theorem alike_after_body (s : Session ρ ν) (settings : Settings) (r : ρ) (c : Cursor)
    (result : Option (Match ν)) :
    s.Alike ((s.remember settings.memoize r c.offset result).reportResult settings.traced r c
      result false) :=
  (s.alike_remember _ r c.offset result).trans (Session.alike_reportResult _ _ r c result false)

/-- A rule binds no labels. -/
theorem leavesLabels_runRule (g : Grammar ρ ν) (settings : Settings) (size n : Nat) (r : ρ) :
    (g.runRule settings size n r).LeavesLabels := by
  intro c s
  cases hover : s.overflow with
  | some offset => rw [runRule_of_overflow hover]
  | none =>
      cases n with
      | zero => rw [runRule_zero hover]
      | succ n =>
          cases hkept : s.memoized? settings.memoize r c.offset with
          | some result =>
              rw [runRule_of_kept hover hkept]
              exact (alike_of_kept s settings r c result).labels
          | none =>
              have hlabels := leavesLabels_runBody size (g.runRule settings size n) (g.rule r) c
                ((s.reportEnter settings.traced r c).countMiss settings.memoize)
              cases hbody : runBody size (g.runRule settings size n) (g.rule r) c
                  ((s.reportEnter settings.traced r c).countMiss settings.memoize) with
              | mk result s₁ =>
                  rw [hbody] at hlabels
                  rw [runRule_of_new hover hkept hbody]
                  exact (alike_after_body s₁ settings r c result).labels.trans
                    (hlabels.trans (alike_before_body s settings r c).labels)

/-- Every rule is tidy.  The induction is on the allowance, of which the body has one less. -/
theorem runRule_tidy (g : Grammar ρ ν) (settings : Settings) (size n : Nat) :
    ∀ r, (g.runRule settings size n r).Tidy := by
  induction n with
  | zero =>
      intro r c s
      cases hover : s.overflow with
      | some offset =>
          rw [runRule_of_overflow hover]
          exact ⟨(Session.Alike.refl s).restored, fun below => runRule_of_overflow hover⟩
      | none =>
          rw [runRule_zero hover]
          exact ⟨⟨rfl, rfl, fun _ => rfl⟩, fun below => runRule_zero hover⟩
  | succ n ih =>
      intro r c s
      cases hover : s.overflow with
      | some offset =>
          rw [runRule_of_overflow hover]
          exact ⟨(Session.Alike.refl s).restored, fun below => runRule_of_overflow hover⟩
      | none =>
          have hover' (below : List (String × Value ν)) : (s.onTopOf below).overflow = none := hover
          cases hkept : s.memoized? settings.memoize r c.offset with
          | some kept =>
              have hkept' (below : List (String × Value ν)) :
                  (s.onTopOf below).memoized? settings.memoize r c.offset = some kept := hkept
              rw [runRule_of_kept hover hkept]
              refine ⟨(alike_of_kept s settings r c kept).restored, fun below => ?_⟩
              rw [runRule_of_kept (hover' below) (hkept' below), Session.reportEnter_onTopOf,
                ← Session.reportResult_onTopOf]
              rfl
          | none =>
              have hnew (below : List (String × Value ν)) :
                  (s.onTopOf below).memoized? settings.memoize r c.offset = none := hkept
              obtain ⟨hrestored, hframe⟩ := runBody_tidy (Term.run_tidy ih size (g.rule r).body) c
                ((s.reportEnter settings.traced r c).countMiss settings.memoize)
              cases hbody : runBody size (g.runRule settings size n) (g.rule r) c
                  ((s.reportEnter settings.traced r c).countMiss settings.memoize) with
              | mk result s₁ =>
                  rw [hbody] at hrestored hframe
                  rw [runRule_of_new hover hkept hbody]
                  have hbefore := alike_before_body s settings r c
                  have hafter := alike_after_body s₁ settings r c result
                  refine ⟨⟨?_, ?_, fun hnone => ?_⟩, fun below => ?_⟩
                  · exact hafter.silent.trans (hrestored.silent.trans hbefore.silent)
                  · exact hafter.namedStart.trans (hrestored.namedStart.trans hbefore.namedStart)
                  · exact hafter.labels.trans ((hrestored.labels hnone).trans hbefore.labels)
                  · have hbelow := hframe below
                    rw [← Session.countMiss_onTopOf, ← Session.reportEnter_onTopOf] at hbelow
                    rw [runRule_of_new (hover' below) (hnew below) hbelow,
                      Session.remember_onTopOf, Session.reportResult_onTopOf]

end Grammar

end PegScript

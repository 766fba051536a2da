import PegScript.Proofs.Semantics.Reentry

/-!
# Failures under names

A rule with an expectation of its own reports it in place of the failures at its start.  If the rule
fails these failures are not lost: the rule itself fails at the same offset.  So the diagnosis of a
failed parse is at least as far as every failure that is not hidden by a lookahead, by a silent rule
or by a named rule that matched (`Grammar.offset_le_of_fails_openly`).

An evaluation in the course of a parse is reached openly if nothing around it hides failures at the
offset in question (`Grammar.CallsOpenly`).  Up the chain of calls, a failure of such an evaluation
has been recorded, or else it is at the start of a named rule that is still active and will report
it (`Grammar.recorded_or_named`).
-/

namespace PegScript

variable {ρ ν : Type} [BEq ρ] [Hashable ρ]

/-- A fixed text, a character of a class, or any character. -/
def Term.IsTerminal : Term ρ ν → Prop
  | .literal _ _ | .charIn _ | .anyChar => True
  | _ => False

/-! ## Recording a failure -/

namespace Session

/-- A failure is recorded if it is not hidden. -/
theorem le_offset_fail {s : Session ρ ν} {offset : Nat} (hsilent : s.silent = 0)
    (hnamed : s.namedStart ≠ some offset) (e : Expectation) :
    offset ≤ (s.fail offset e).failures.offset := by
  rw [fail, if_pos ⟨hsilent, hnamed⟩]
  exact s.failures.le_offset_add offset e

/-- A named rule that fails is a failure at its start. -/
theorem le_offset_leaveRule [LawfulBEq ρ] [LawfulHashable ρ] {outer s : Session ρ ν}
    {g : Grammar ρ ν} {r : ρ} {c : Cursor} (settings : Settings)
    (hexpect : (g.rule r).expect.isSome = true) (hloud : (g.rule r).silent = false)
    (hsilent : s.silent = 0) (hnamed : outer.namedStart ≠ some c.offset) :
    c.offset ≤ (outer.leaveRule settings g r c none s).failures.offset := by
  obtain ⟨expect, hsome⟩ := Option.isSome_iff_exists.mp hexpect
  have hclosed : c.offset ≤ (outer.closeRule (g.rule r) c none s).failures.offset := by
    unfold closeRule
    simp only [hsome, hloud, Option.isSome_some, if_true, Bool.false_eq_true, if_false]
    refine le_offset_fail ?_ ?_ _
    · exact hsilent
    · exact hnamed
  obtain ⟨memo, events, -, -, hleave⟩ := outer.leaveRule_eq_closeRule settings g r c none s
  rw [hleave]
  exact hclosed

end Session

namespace Runs

variable {g : Grammar ρ ν} {settings : Settings} {n : Nat} {t : Term ρ ν} {c : Cursor}
  {s s' : Session ρ ν}

theorem le_offset_of_terminal (h : Runs g settings n t c s none s') (hterm : t.IsTerminal)
    (hsilent : s.silent = 0) (hnamed : s.namedStart ≠ some c.offset) :
    c.offset ≤ s'.failures.offset := by
  cases h with
  | literalFail h | charInFail h | anyCharFail h => exact Session.le_offset_fail hsilent hnamed _
  | _ => exact hterm.elim

end Runs

/-! ## Evaluations that nothing hides -/

/-- Failures in the course of a lookahead or of a silent rule are not recorded. -/
def Evaluation.Hides (g : Grammar ρ ν) (e : Evaluation ρ ν) : Prop :=
  match e.term with
  | .not _ | .and _ => True
  | .rule r => (g.rule r).silent = true
  | _ => False

namespace Grammar

/-- The evaluation is that of a named rule which starts at the offset and matches. -/
def MatchesNamedAt (g : Grammar ρ ν) (settings : Settings) (size offset : Nat)
    (e : Evaluation ρ ν) : Prop :=
  e.place.offset = offset ∧ (g.evaluate settings size e).1.isSome = true ∧
    ∃ r, e.term = .rule r ∧ (g.rule r).expect.isSome = true

/-- To carry out `e` the engine carries out `e'`, and `e` does not hide failures at the offset. -/
structure CallsOpenly (g : Grammar ρ ν) (settings : Settings) (size offset : Nat)
    (e e' : Evaluation ρ ν) : Prop where
  calls : g.Calls settings size e e'
  loud : ¬ e.Hides g
  unmatched : ¬ g.MatchesNamedAt settings size offset e

/-- A failed parse within the nesting limit is diagnosed at what it recorded, or further. -/
theorem offset_le_of_conclude_eq_error {source : String} {result : Option (Match ν)}
    {s : Session ρ ν} {d : Diagnosis} (hdone : s.overflow = none)
    (herror : conclude source result s = .error d) : s.failures.offset ≤ d.offset := by
  rcases (conclude_eq_error_iff hdone).mp herror with ⟨-, rfl⟩ | ⟨m, -, -, rfl⟩
  · exact Nat.le_refl _
  · exact FurthestFailure.offset_le_of_le (s.failures.le_add m.stop.offset .endOfInput)

variable {g : Grammar ρ ν} {settings : Settings} {source : String} {e e' : Evaluation ρ ν}
  [LawfulBEq ρ] [LawfulHashable ρ]

/-- What decides whether a failure is recorded is the same for a call, except that a named rule
starts at its own place. -/
theorem Calls.silent_namedStart (h : g.Calls settings source.utf8ByteSize e e')
    (he : e.Placed source) (hloud : ¬ e.Hides g) :
    e'.session.silent = e.session.silent ∧
      (e'.session.namedStart = e.session.namedStart ∨
        e'.session.namedStart = some e.place.offset ∧
          ∃ r, e.term = .rule r ∧ (g.rule r).expect.isSome = true) := by
  cases h with
  | @rule n r c s hover hnew =>
      obtain ⟨events, misses, henter⟩ := s.enterRule_eq settings g r c
      rw [henter]
      have hsilent : (g.rule r).silent = false := Bool.eq_false_iff.mpr hloud
      refine ⟨by simp only [hsilent, Bool.false_eq_true, if_false], ?_⟩
      by_cases hexpect : (g.rule r).expect.isSome = true
      · exact .inr ⟨if_pos hexpect, r, rfl, hexpect⟩
      · exact .inl (if_neg hexpect)
  | not | and => exact absurd trivial hloud
  | seqTail hhead | choiceTail hhead | starAgain hhead hmoved =>
      obtain ⟨hsilent, hnamed⟩ := (runs_of_evaluate he.place he.session hhead).restores
      exact ⟨hsilent, .inl hnamed⟩
  | seqHead | choiceHead | starRound | plus | opt | label | action | text | pick =>
      exact ⟨rfl, .inl rfl⟩

/-- A named rule that is carried out and does not match has failed at its start, unless an outer
named rule started there too. -/
theorem Calls.le_offset_of_named (h : g.Calls settings source.utf8ByteSize e e')
    (he : e.Placed source) (hloud : ¬ e.Hides g) (hsilent : e.session.silent = 0) {r : ρ}
    (hterm : e.term = .rule r) (hexpect : (g.rule r).expect.isSome = true)
    (hfails : (g.evaluate settings source.utf8ByteSize e).1 = none)
    (hnamed : e.session.namedStart ≠ some e.place.offset) :
    e.place.offset ≤ (g.evaluate settings source.utf8ByteSize e).2.failures.offset := by
  have hcalled := h.silent_namedStart he hloud
  have hrun := runs_evaluate g settings he
  rw [hfails] at hrun
  generalize (g.evaluate settings source.utf8ByteSize e).2 = s' at hrun ⊢
  obtain ⟨n, t, c, s⟩ := e
  obtain rfl : t = .rule r := hterm
  cases h with
  | rule hover hnew =>
      cases hrun with
      | ruleRefused hover' =>
          rw [hover] at hover'
          cases hover'
      | ruleKept hover' hkept =>
          rw [hnew] at hkept
          cases hkept
      | ruleBody hover' hnew' hbody =>
          exact Session.le_offset_leaveRule settings hexpect (Bool.eq_false_iff.mpr hloud)
            (hbody.restores.1.trans (hcalled.1.trans hsilent)) hnamed

/-- A failed terminal that is reached openly is recorded in the end, or the named rule around
started at the same offset and is still active.  The induction goes up the chain of calls. -/
theorem recorded_or_named {offset : Nat}
    (h : Relation.ReflTransGen (g.CallsOpenly settings source.utf8ByteSize offset) e e')
    (he : e.Placed source) (hsilent : e.session.silent = 0) (hterm : e'.term.IsTerminal)
    (hfails : (g.evaluate settings source.utf8ByteSize e').1 = none)
    (hoffset : e'.place.offset = offset) :
    offset ≤ (g.evaluate settings source.utf8ByteSize e).2.failures.offset ∨
      e.session.namedStart = some offset := by
  subst hoffset
  induction h using Relation.ReflTransGen.head_induction_on with
  | refl =>
      by_cases hnamed : e'.session.namedStart = some e'.place.offset
      · exact .inr hnamed
      · have hrun := runs_evaluate g settings he
        rw [hfails] at hrun
        exact .inl (hrun.le_offset_of_terminal hterm hsilent hnamed)
  | @head caller called hcall hreached ih =>
      obtain ⟨hsame, hstart⟩ := hcall.calls.silent_namedStart he hcall.loud
      rcases ih (hcall.calls.placed he) (hsame.trans hsilent) with hrecorded | hnamed
      · have hgrows := (hcall.calls.growsTo_outcome he).failures
        exact .inl (Nat.le_trans hrecorded (FurthestFailure.offset_le_of_le hgrows))
      · rcases hstart with hsame | ⟨hhere, r, hrule, hexpect⟩
        · exact .inr (hsame ▸ hnamed)
        · -- the named rule is the caller itself
          have hplace : caller.place.offset = e'.place.offset :=
            Option.some.inj (hhere.symm.trans hnamed)
          by_cases houter : caller.session.namedStart = some e'.place.offset
          · exact .inr houter
          · have hnone : (g.evaluate settings source.utf8ByteSize caller).1 = none := by
              refine Option.not_isSome_iff_eq_none.mp fun hmatch => ?_
              exact hcall.unmatched ⟨hplace, hmatch, r, hrule, hexpect⟩
            rw [← hplace] at houter ⊢
            exact .inl (hcall.calls.le_offset_of_named he hcall.loud hsilent hrule hexpect hnone
              houter)

/-- The diagnosis of a failed parse is at least as far as every fixed text, character class or any
character that failed in its course, outside of lookaheads and silent rules.  Only failures at the
start of a named rule around them that matched do not count. -/
theorem offset_le_of_fails_openly (g : Grammar ρ ν) (settings : Settings) (start : ρ)
    (source : String) {d : Diagnosis} (e : Evaluation ρ ν)
    (hdone : (g.parseFrom settings start source).session.overflow = none)
    (herror : (g.parseFrom settings start source).outcome = .error d)
    (hreached : Relation.ReflTransGen
      (g.CallsOpenly settings source.utf8ByteSize e.place.offset)
      (startEvaluation settings start source) e)
    (hterm : e.term.IsTerminal)
    (hfails : (g.evaluate settings source.utf8ByteSize e).1 = none) :
    e.place.offset ≤ d.offset := by
  have hstart := placed_startEvaluation (ν := ν) settings start source
  rw [parseFrom_eq_evaluate] at hdone herror
  have hrecorded := offset_le_of_conclude_eq_error hdone herror
  rcases recorded_or_named hreached hstart rfl hterm hfails rfl with hoffset | hnamed
  · exact Nat.le_trans hoffset hrecorded
  · -- no rule is active around the first one
    cases hnamed

/-- A letter and a word, which goes by that name. -/
def letterAndWord : Grammar Bool Unit where
  symbols := [false, true]
  rule
    | false => { name := "Start", body := .seq [.lit "x", .rule true] }
    | true => { name := "Word", expect := some "word", body := .seq [.lit "a", .lit "b"] }
  root := false

/-- The place after the letter, where the word has started. -/
def atWord : Evaluation Bool Unit :=
  ⟨510, .lit "a", ⟨1, ['y']⟩, { namedStart := some 1 }⟩

/-- The first letter of the word is reached openly, since the word does not match. -/
theorem atWord_reached_openly :
    Relation.ReflTransGen (letterAndWord.CallsOpenly { memoize := false } "xy".utf8ByteSize 1)
      (startEvaluation { memoize := false } false "xy") atWord := by
  refine .head ⟨.rule rfl rfl, nofun, ?_⟩ (.head ⟨.seqTail rfl, id, nofun⟩
    (.head ⟨.seqHead, id, nofun⟩ (.head ⟨.rule rfl rfl, nofun, ?_⟩
      (.single ⟨.seqHead, id, nofun⟩))))
  · rintro ⟨hplace, -⟩
    cases hplace
  · rintro ⟨-, hmatch, -⟩
    exact absurd hmatch (by decide +kernel)

theorem letterAndWord_fails_openly :
    ∃ d, (letterAndWord.parseFrom { memoize := false } false "xy").outcome = .error d ∧
      (letterAndWord.evaluate { memoize := false } "xy".utf8ByteSize atWord).1 = none ∧
      1 ≤ d.offset := by
  have hdone : (letterAndWord.parseFrom { memoize := false } false
      "xy").session.overflow = none := by
    decide +kernel
  have herror := outcome_of_none hdone (Option.isNone_iff_eq_none.mp (by decide +kernel))
  have hfails : (letterAndWord.evaluate { memoize := false } "xy".utf8ByteSize atWord).1 =
      none := rfl
  exact ⟨_, herror, hfails, offset_le_of_fails_openly letterAndWord _ false "xy" atWord hdone herror
    atWord_reached_openly trivial hfails⟩

end Grammar

end PegScript

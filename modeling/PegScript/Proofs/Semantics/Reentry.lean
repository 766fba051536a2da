import PegScript.Proofs.Semantics.Adequacy
import PegScript.Proofs.Semantics.Growth

/-!
# No rule is active twice at one place

What a term makes of a place depends on what other terms make of the same or of later places:
`AskedBy` says on which.  A derivation is finite, so where there is one this dependence is well
founded (`Derives.acc_askedBy`).

An evaluation that stays within the nesting limit follows a derivation.  The evaluations in its
course follow the dependence, and so none of them can come back to a rule that is still active at
the same place (`Grammar.not_reentered`).
-/

namespace PegScript

variable {ρ ν : Type}

/-! ## What a derivation depends on -/

/-- `AskedBy g q p`: what the term of `p` makes of the place of `p` depends on what the term of `q`
makes of the place of `q`. -/
inductive AskedBy (g : Grammar ρ ν) : Term ρ ν × Cursor → Term ρ ν × Cursor → Prop where
  | rule {r : ρ} {c : Cursor} : AskedBy g ((g.rule r).body, c) (.rule r, c)
  | seqHead {t : Term ρ ν} {ts : List (Term ρ ν)} {c : Cursor} :
      AskedBy g (t, c) (.seq (t :: ts), c)
  | seqTail {t : Term ρ ν} {ts : List (Term ρ ν)} {c : Cursor} {m : Reading ν}
      (hhead : Derives g t c (some m)) : AskedBy g (.seq ts, m.stop) (.seq (t :: ts), c)
  | choiceHead {t : Term ρ ν} {ts : List (Term ρ ν)} {c : Cursor} :
      AskedBy g (t, c) (.choice (t :: ts), c)
  | choiceTail {t : Term ρ ν} {ts : List (Term ρ ν)} {c : Cursor}
      (hhead : Derives g t c none) : AskedBy g (.choice ts, c) (.choice (t :: ts), c)
  | starRound {t : Term ρ ν} {c : Cursor} : AskedBy g (t, c) (.star t, c)
  | starAgain {t : Term ρ ν} {c : Cursor} {m : Reading ν} (hround : Derives g t c (some m))
      (hmoved : m.stop ≠ c) : AskedBy g (.star t, m.stop) (.star t, c)
  | plus {t : Term ρ ν} {c : Cursor} : AskedBy g (.star t, c) (.plus t, c)
  | opt {t : Term ρ ν} {c : Cursor} : AskedBy g (t, c) (.opt t, c)
  | not {t : Term ρ ν} {c : Cursor} : AskedBy g (t, c) (.not t, c)
  | and {t : Term ρ ν} {c : Cursor} : AskedBy g (t, c) (.and t, c)
  | label {name : String} {t : Term ρ ν} {c : Cursor} : AskedBy g (t, c) (.label name t, c)
  | action {act : ActionM ν (Value ν)} {t : Term ρ ν} {c : Cursor} :
      AskedBy g (t, c) (.action act t, c)
  | text {t : Term ρ ν} {c : Cursor} : AskedBy g (t, c) (.text t, c)
  | pick {index : Nat} {t : Term ρ ν} {c : Cursor} : AskedBy g (t, c) (.pick index t, c)

section Derivations

variable {g : Grammar ρ ν} {t : Term ρ ν} {c : Cursor} {d : Option (Reading ν)}

/-- A repetition whose first round fails has no second one. -/
theorem acc_star_of_fails (hfail : Derives g t c none) (h : Acc (AskedBy g) (t, c)) :
    Acc (AskedBy g) (.star t, c) := by
  refine ⟨_, fun q hq => ?_⟩
  cases hq with
  | starRound => exact h
  | starAgain hround hmoved => cases hfail.functional hround

/-- Where a term derives something, the dependence ends.  The induction is on the derivation, which
determines what the term depends on. -/
theorem Derives.acc_askedBy (h : Derives g t c d) : Acc (AskedBy g) (t, c) := by
  induction h with
  | literal h | literalFail h | charIn hnext hmem | charInOther hnext hmem | charInEnd hnext
  | anyChar hnext | anyCharEnd hnext | seqNil | choiceNil =>
      refine ⟨_, fun q hq => ?_⟩
      cases hq
  | seqCons hhead htail ihhead ihtail | seqTailFail hhead htail ihhead ihtail =>
      refine ⟨_, fun q hq => ?_⟩
      cases hq with
      | seqHead => exact ihhead
      | seqTail hhead' =>
          cases hhead.functional hhead'
          exact ihtail
  | seqFail hhead ihhead =>
      refine ⟨_, fun q hq => ?_⟩
      cases hq with
      | seqHead => exact ihhead
      | seqTail hhead' => cases hhead.functional hhead'
  | choiceHere h ih =>
      refine ⟨_, fun q hq => ?_⟩
      cases hq with
      | choiceHead => exact ih
      | choiceTail hhead => cases h.functional hhead
  | choiceLater hfail h ihfail ih =>
      refine ⟨_, fun q hq => ?_⟩
      cases hq with
      | choiceHead => exact ihfail
      | choiceTail hhead => exact ih
  | starStop h ih => exact acc_star_of_fails h ih
  | starEmpty h ih =>
      refine ⟨_, fun q hq => ?_⟩
      cases hq with
      | starRound => exact ih
      | starAgain hround hmoved =>
          cases h.functional hround
          exact absurd rfl hmoved
  | starMore h hmoved hrest ih ihrest =>
      refine ⟨_, fun q hq => ?_⟩
      cases hq with
      | starRound => exact ih
      | starAgain hround hmoved' =>
          cases h.functional hround
          exact ihrest
  | plusFail h ih =>
      refine ⟨_, fun q hq => ?_⟩
      cases hq
      exact acc_star_of_fails h ih
  | rule h ih | ruleFail h ih | plus h ih | opt h ih | optAbsent h ih | not h ih | notFail h ih
  | and h ih | andFail h ih | label h ih | labelFail h ih | action h hact ih
  | actionReject h hact ih | actionFail h ih | text h ih | textFail h ih | pick h ih
  | pickFail h ih =>
      refine ⟨_, fun q hq => ?_⟩
      cases hq
      exact ih

/-- Nothing that ends depends on itself. -/
theorem not_transGen_self_of_acc {α : Type} {r : α → α → Prop} {a : α} (h : Acc r a) :
    ¬ Relation.TransGen r a a := by
  have htrans := h.transGen
  induction htrans with
  | intro a _ ih => exact fun hself => ih a hself h hself

end Derivations

variable [BEq ρ] [Hashable ρ]

/-! ## Evaluations within the nesting limit -/

namespace Runs

variable {g : Grammar ρ ν} {settings : Settings} {source : String} {n : Nat} {t : Term ρ ν}
  {c : Cursor} {s s' : Session ρ ν} {result : Option (Match ν)}

variable [LawfulBEq ρ] [LawfulHashable ρ]

/-- At places of the source, runs are what the engine does. -/
theorem evaluate_eq (h : Runs g settings n t c s result s') (hplace : c.IsPlaceOf source)
    (hs : s.Placed source) :
    g.evaluate settings source.utf8ByteSize ⟨n, t, c, s⟩ = (result, s') := by
  have hruns := Grammar.runs_evaluate g settings (e := ⟨n, t, c, s⟩) ⟨hplace, hs⟩
  obtain ⟨hresult, hsession⟩ := hruns.functional h
  exact Prod.ext hresult hsession

/-- A parse ends as the run of its first rule does. -/
theorem parseFrom_eq {start : ρ}
    (h : Runs g settings settings.maxDepth (.rule start) (Cursor.start source) {} result s') :
    g.parseFrom settings start source = ⟨Grammar.conclude source result s', s'⟩ := by
  have heval := h.evaluate_eq (Cursor.start_isPlaceOf source) Session.placed_empty
  have hstart : g.evaluate settings source.utf8ByteSize
      (Grammar.startEvaluation settings start source) = (result, s') := heval
  rw [Grammar.parseFrom_eq_evaluate, hstart]

/-- What a run within the nesting limit matches is derived. -/
theorem exists_derives {m : Match ν} (h : Runs g settings n t c s (some m) s')
    (hplace : c.IsPlaceOf source) (hfaithful : s.Faithful g source) (hdone : s'.overflow = none) :
    ∃ labels, Derives g t c (some ⟨m.stop, m.value, labels⟩) := by
  cases (h.conforms hplace hfaithful hdone).2 with
  | reads hderives hlabels => exact ⟨_, hderives⟩

theorem derives_none (h : Runs g settings n t c s none s') (hplace : c.IsPlaceOf source)
    (hfaithful : s.Faithful g source) (hdone : s'.overflow = none) :
    Derives g t c none := by
  cases (h.conforms hplace hfaithful hdone).2 with
  | fails hderives hlabels => exact hderives

/-- A run within the nesting limit depends on finitely much. -/
theorem acc_askedBy (h : Runs g settings n t c s result s') (hplace : c.IsPlaceOf source)
    (hfaithful : s.Faithful g source) (hdone : s'.overflow = none) :
    Acc (AskedBy g) (t, c) := by
  cases (h.conforms hplace hfaithful hdone).2 with
  | fails hderives hlabels => exact hderives.acc_askedBy
  | reads hderives hlabels => exact hderives.acc_askedBy

end Runs

theorem Grammar.exists_runs_parseFrom [LawfulBEq ρ] [LawfulHashable ρ] (g : Grammar ρ ν)
    (settings : Settings) (start : ρ) (source : String) :
    ∃ result s', Runs g settings settings.maxDepth (.rule start) (Cursor.start source) {} result
      s' ∧ g.parseFrom settings start source = ⟨conclude source result s', s'⟩ :=
  ⟨_, _, runs_evaluate g settings (placed_startEvaluation settings start source),
    parseFrom_eq_evaluate start⟩

/-- The evaluation stays within the nesting limit, and starts at a place of the source with a table
of derived outcomes. -/
structure Evaluation.Regular (g : Grammar ρ ν) (settings : Settings) (source : String)
    (e : Evaluation ρ ν) : Prop where
  placed : e.Placed source
  faithful : e.session.Faithful g source
  done : (g.evaluate settings source.utf8ByteSize e).2.overflow = none

namespace Grammar

variable {g : Grammar ρ ν} {settings : Settings} {source : String} {e e' : Evaluation ρ ν}
  [LawfulBEq ρ] [LawfulHashable ρ]

/-- What is evaluated in the course of an evaluation within the nesting limit stays within it. -/
theorem Calls.done (h : g.Calls settings source.utf8ByteSize e e') (he : e.Placed source)
    (hdone : (g.evaluate settings source.utf8ByteSize e).2.overflow = none) :
    (g.evaluate settings source.utf8ByteSize e').2.overflow = none :=
  (h.growsTo_outcome he).overflow_eq_none hdone

/-- Calls within the nesting limit follow the dependence of what is derived. -/
theorem Calls.askedBy (h : g.Calls settings source.utf8ByteSize e e')
    (he : e.Regular g settings source) :
    AskedBy g (e'.term, e'.place) (e.term, e.place) := by
  have hcalled := h.done he.placed he.done
  have hrun := runs_evaluate g settings (h.placed he.placed)
  cases h with
  | rule hover hnew => exact .rule
  | seqHead => exact .seqHead
  | seqTail hhead =>
      have hfirst := runs_of_evaluate he.placed.place he.placed.session hhead
      obtain ⟨labels, hderives⟩ := hfirst.exists_derives he.placed.place he.faithful
        (hrun.overflow_eq_none hcalled)
      exact .seqTail hderives
  | choiceHead => exact .choiceHead
  | choiceTail hhead =>
      have hfirst := runs_of_evaluate he.placed.place he.placed.session hhead
      exact .choiceTail (hfirst.derives_none he.placed.place he.faithful
        (hrun.overflow_eq_none hcalled))
  | starRound => exact .starRound
  | starAgain hround hmoved =>
      have hfirst := runs_of_evaluate he.placed.place he.placed.session hround
      obtain ⟨labels, hderives⟩ := hfirst.exists_derives he.placed.place he.faithful
        (hrun.overflow_eq_none hcalled)
      exact .starAgain hderives fun hstop => hmoved (congrArg Cursor.offset hstop)
  | plus => exact .plus
  | opt => exact .opt
  | not => exact .not
  | and => exact .and
  | label => exact .label
  | action => exact .action
  | text => exact .text
  | pick => exact .pick

/-- Calls within the nesting limit start with tables of derived outcomes. -/
theorem Calls.regular (h : g.Calls settings source.utf8ByteSize e e')
    (he : e.Regular g settings source) : e'.Regular g settings source := by
  have hcalled := h.done he.placed he.done
  have hrun := runs_evaluate g settings (h.placed he.placed)
  refine ⟨h.placed he.placed, ?_, hcalled⟩
  cases h with
  | rule hover hnew => exact he.faithful.of_memo_eq (by simp)
  | seqTail hhead | choiceTail hhead | starAgain hhead hmoved =>
      have hfirst := runs_of_evaluate he.placed.place he.placed.session hhead
      exact (hfirst.conforms he.placed.place he.faithful
        (hrun.overflow_eq_none hcalled)).1
  | not | and | action => exact he.faithful.of_memo_eq rfl
  | seqHead | choiceHead | starRound | plus | opt | label | text | pick => exact he.faithful

theorem regular_of_reached (h : g.Reached settings source e e')
    (he : e.Regular g settings source) : e'.Regular g settings source := by
  induction h with
  | refl => exact he
  | tail _ hcall ih => exact hcall.regular ih

/-- A chain of calls within the nesting limit follows the dependence. -/
theorem transGen_askedBy
    (h : Relation.TransGen (g.Calls settings source.utf8ByteSize) e e')
    (he : e.Regular g settings source) :
    Relation.TransGen (AskedBy g) (e'.term, e'.place) (e.term, e.place) := by
  induction h with
  | single hcall => exact .single (hcall.askedBy he)
  | tail hchain hcall ih =>
      have hmiddle := regular_of_reached hchain.to_reflTransGen he
      exact .head (hcall.askedBy hmiddle) ih

/-- In the course of a rule that stays within the nesting limit, the same rule is not evaluated at
the same offset again. -/
theorem not_reentered {r : ρ} (he : e.Regular g settings source) (hterm : e.term = .rule r)
    (h : Relation.TransGen (g.Calls settings source.utf8ByteSize) e e')
    (hterm' : e'.term = .rule r) : e'.place.offset ≠ e.place.offset := by
  intro hoffset
  have hchain := transGen_askedBy h he
  have he' := regular_of_reached h.to_reflTransGen he
  rw [hterm, hterm', he'.placed.place.eq_of_offset_eq he.placed.place hoffset] at hchain
  have hacc := (runs_evaluate g settings he.placed).acc_askedBy he.placed.place
    he.faithful he.done
  rw [hterm] at hacc
  exact not_transGen_self_of_acc hacc hchain

end Grammar

end PegScript

import Mathlib.Logic.Hydra
import PegScript.Proofs.Semantics.Configurations

/-!
# Every parse ends

What is still to be done in a configuration is measured by pieces of work: each counts the rules
that may still become active in it, then the size of its term, then the input left to it
(`Work.Less`).  A step trades one piece for smaller ones, and what the engine makes of the
configuration stays the same (`Grammar.progresses_of_step`).  So the steps end, with the outcome of
the engine (`Grammar.steps_ended`).

That a repetition has less input left after a round that took some relies on the memo table: its
outcomes do not stop before they start.  Hence configurations are followed together with the places
they know (`Configuration.Placed`).
-/

namespace PegScript

/-! ## Work -/

section

variable {ρ ν : Type}

/-- The first term of a sequence and the rest of it are smaller. -/
theorem Term.sizeOf_lt_seq_cons (t : Term ρ ν) (ts : List (Term ρ ν)) :
    sizeOf t < sizeOf (Term.seq (t :: ts)) ∧
      sizeOf (Term.seq ts) < sizeOf (Term.seq (t :: ts)) := by
  simp only [Term.seq.sizeOf_spec, List.cons.sizeOf_spec]
  omega

theorem Term.sizeOf_lt_choice_cons (t : Term ρ ν) (ts : List (Term ρ ν)) :
    sizeOf t < sizeOf (Term.choice (t :: ts)) ∧
      sizeOf (Term.choice ts) < sizeOf (Term.choice (t :: ts)) := by
  simp only [Term.choice.sizeOf_spec, List.cons.sizeOf_spec]
  omega

end

variable {ρ ν : Type} [BEq ρ] [Hashable ρ]

/-- A piece of work that is still to be done. -/
structure Work where
  /-- How many rules may become active in its course. -/
  rules : Nat
  /-- The size of the term. -/
  size : Nat
  /-- The input left to it. -/
  input : Nat

/-- Fewer rules may become active, or as many and the term is smaller, or that is the same and less
input is left. -/
def Work.Less (w w' : Work) : Prop :=
  Prod.Lex (· < ·) (Prod.Lex (· < ·) (· < ·)) (w.rules, w.size, w.input)
    (w'.rules, w'.size, w'.input)

theorem Work.less_wellFounded : WellFounded Work.Less :=
  InvImage.wf (fun w : Work => (w.rules, w.size, w.input))
    (Nat.lt_wfRel.wf.prod_lex (Nat.lt_wfRel.wf.prod_lex Nat.lt_wfRel.wf))

theorem Work.less_of_rules {n n' i i' l l' : Nat} (h : n < n') :
    Work.Less ⟨n, i, l⟩ ⟨n', i', l'⟩ :=
  Prod.Lex.left _ _ h

theorem Work.less_of_size {n i i' l l' : Nat} (h : i < i') : Work.Less ⟨n, i, l⟩ ⟨n, i', l'⟩ :=
  Prod.Lex.right _ (Prod.Lex.left _ _ h)

theorem Work.less_of_input {n i l l' : Nat} (h : l < l') : Work.Less ⟨n, i, l⟩ ⟨n, i, l'⟩ :=
  Prod.Lex.right _ (Prod.Lex.right _ h)

/-- A piece of work is done. -/
theorem Work.cutExpand_done (w : Work) (rest : Multiset Work) :
    Relation.CutExpand Work.Less rest ({w} + rest) := by
  have hdone := (Relation.cutExpand_add_right (r := Work.Less) rest).2
    (Relation.cutExpand_zero (x := w))
  rwa [zero_add] at hdone

/-- A piece of work is traded for two smaller ones. -/
theorem Work.cutExpand_split {w w₁ w₂ : Work} (h₁ : w₁.Less w) (h₂ : w₂.Less w)
    (rest : Multiset Work) :
    Relation.CutExpand Work.Less ({w₁} + ({w₂} + rest)) ({w} + rest) := by
  rw [← add_assoc]
  exact (Relation.cutExpand_add_right rest).2 (Relation.cutExpand_double h₁ h₂)

/-- The work left to a frame in which `n` rules may become active, what is started already apart.
The rest of a sequence, of a choice or of a repetition counts as a term of its own. -/
noncomputable def Frame.work (size n : Nat) : Frame ρ ν → Work
  | .rule .. | .operator .. => ⟨n, 0, 0⟩
  | .seq _ ts _ _ => ⟨n, sizeOf (Term.seq ts), 0⟩
  | .choice _ ts => ⟨n, sizeOf (Term.choice ts), 0⟩
  | .loop _ c t _ => ⟨n, sizeOf (Term.star t), size - c.offset⟩

/-- The work of a term that is about to start. -/
noncomputable def Focus.work (size n : Nat) : Focus ρ ν → Multiset Work
  | .start t c => {⟨n, sizeOf t, size - c.offset + 1⟩}
  | .ended _ => 0

/-- The work left to the frames, in a source of `size` bytes. -/
noncomputable def Grammar.workOfFrames (settings : Settings) (size : Nat) :
    List (Frame ρ ν) → Multiset Work
  | [] => 0
  | f :: frames => {f.work size (allowance settings frames)} + workOfFrames settings size frames

/-- All work that is still to be done. -/
noncomputable def Configuration.work (settings : Settings) (size : Nat) (k : Configuration ρ ν) :
    Multiset Work :=
  k.focus.work size (Grammar.allowance settings k.frames) +
    Grammar.workOfFrames settings size k.frames

/-! ## Configurations that know only places of the source -/

/-- The place is one of the source, and from each frame on the places lead to it. -/
def LeadsTo (source : String) : List (Frame ρ ν) → Cursor → Prop
  | [], c => c.IsPlaceOf source
  | f :: frames, c => f.place.Reaches c ∧ LeadsTo source frames f.place

namespace LeadsTo

variable {source : String} {frames : List (Frame ρ ν)} {c d : Cursor}

theorem move (h : LeadsTo source frames c) (hmove : c.Reaches d) : LeadsTo source frames d := by
  cases frames with
  | nil => exact Cursor.IsPlaceOf.move h hmove
  | cons f frames => exact ⟨h.1.trans hmove, h.2⟩

theorem isPlaceOf (h : LeadsTo source frames c) : c.IsPlaceOf source := by
  induction frames generalizing c with
  | nil => exact h
  | cons f frames ih => exact (ih h.2).move h.1

end LeadsTo

/-- The term that is about to start or has ended is one that started at the place. -/
def Focus.StartsAt : Focus ρ ν → Cursor → Prop
  | .start _ c', c => c' = c
  | .ended result, c => ∀ m, result = some m → c.Reaches m.stop

/-- The session knows only places of the source, and the terms that have not ended started at
such places, each not before the one around it. -/
structure Configuration.Placed (source : String) (k : Configuration ρ ν) : Prop where
  session : k.session.Placed source
  focus : ∃ c, LeadsTo source k.frames c ∧ k.focus.StartsAt c

theorem Configuration.placed_initial (start : ρ) (source : String) :
    (initial start source : Configuration ρ ν).Placed source :=
  ⟨Session.placed_empty, _, Cursor.start_isPlaceOf source, rfl⟩

namespace Operator

variable {source : String} {c : Cursor} {s : Session ρ ν} {result : Option (Match ν)}

theorem placed_inside (op : Operator ν) (hs : s.Placed source) : (op.inside s).Placed source := by
  cases op <;> exact hs.of_eq rfl rfl rfl rfl

/-- An operator stops where its operand does or where it started. -/
theorem placed_finish (op : Operator ν) (outer : Session ρ ν) (hs : s.Placed source)
    (hstop : ∀ m, result = some m → c.Reaches m.stop) :
    (op.finish c outer (result, s)).2.Placed source ∧
      ∀ m, (op.finish c outer (result, s)).1 = some m → c.Reaches m.stop := by
  cases op with
  | opt =>
      cases result with
      | none =>
          refine ⟨hs, ?_⟩
          rintro m ⟨⟩
          exact .refl c
      | some found => exact ⟨hs, hstop⟩
  | lookahead positive =>
      refine ⟨hs.of_eq rfl rfl rfl rfl, fun m hm => ?_⟩
      obtain ⟨-, hhere⟩ := Option.ite_none_right_eq_some.mp hm
      cases hhere
      exact .refl c
  | action act =>
      cases result with
      | none =>
          refine ⟨hs.of_eq rfl rfl rfl rfl, ?_⟩
          rintro m ⟨⟩
      | some found =>
          refine ⟨hs.of_eq rfl rfl rfl rfl, fun m hm => ?_⟩
          obtain ⟨built, -, rfl⟩ := Option.map_eq_some_iff.mp hm
          exact hstop found rfl
  | label name | text | pick index =>
      cases result with
      | none =>
          refine ⟨hs, ?_⟩
          rintro m ⟨⟩
      | some found =>
          refine ⟨hs.of_eq rfl rfl rfl rfl, ?_⟩
          rintro m ⟨⟩
          exact hstop found rfl

end Operator

/-! ## What a step does -/

/-- After the step only places of the source are known, the engine makes the same of the
configuration, and a piece of work was traded for smaller ones. -/
structure Grammar.Progresses (g : Grammar ρ ν) (settings : Settings) (source : String)
    (k k' : Configuration ρ ν) : Prop where
  placed : k'.Placed source
  outcome : g.outcome settings source.utf8ByteSize k' = g.outcome settings source.utf8ByteSize k
  work : Relation.CutExpand Work.Less (k'.work settings source.utf8ByteSize)
    (k.work settings source.utf8ByteSize)

namespace Grammar

variable {g : Grammar ρ ν} {settings : Settings} {source : String} {t t' : Term ρ ν} {c : Cursor}
  {s s' : Session ρ ν} {f : Frame ρ ν} {frames : List (Frame ρ ν)} {out : Outcome ρ ν}
  {result : Option (Match ν)}

/-- A term waits for a term inside of it. -/
theorem progresses_push (hlead : LeadsTo source frames c) (hs : s'.Placed source)
    (hplace : f.place = c)
    (h : g.evaluate settings source.utf8ByteSize ⟨allowance settings frames, t, c, s⟩ =
      f.settle g settings source.utf8ByteSize (allowance settings frames)
        (g.evaluate settings source.utf8ByteSize ⟨allowance settings (f :: frames), t', c, s'⟩))
    (hinner : Work.Less
      ⟨allowance settings (f :: frames), sizeOf t', source.utf8ByteSize - c.offset + 1⟩
      ⟨allowance settings frames, sizeOf t, source.utf8ByteSize - c.offset + 1⟩)
    (hframe : (f.work source.utf8ByteSize (allowance settings frames)).Less
      ⟨allowance settings frames, sizeOf t, source.utf8ByteSize - c.offset + 1⟩) :
    g.Progresses settings source ⟨.start t c, s, frames⟩ ⟨.start t' c, s', f :: frames⟩ := by
  subst hplace
  refine ⟨⟨hs, f.place, ⟨.refl f.place, hlead⟩, rfl⟩, ?_, Work.cutExpand_split hinner hframe _⟩
  exact congrArg (g.settleAll settings source.utf8ByteSize frames) h.symm

/-- A frame gets the outcome it waits for and ends. -/
theorem progresses_pop (hlead : LeadsTo source frames f.place)
    (h : f.settle g settings source.utf8ByteSize (allowance settings frames) (result, s) = out)
    (hs : out.2.Placed source) (hstop : ∀ m, out.1 = some m → f.place.Reaches m.stop) :
    g.Progresses settings source ⟨.ended result, s, f :: frames⟩ (.ended out frames) := by
  refine ⟨⟨hs, f.place, hlead, hstop⟩, ?_,
    (Relation.cutExpand_add_left 0).2 (Work.cutExpand_done _ _)⟩
  exact congrArg (g.settleAll settings source.utf8ByteSize frames) h.symm

/-- A frame gets the outcome it waits for and starts the next term. -/
theorem progresses_next (f' : Frame ρ ν) (hlead : LeadsTo source frames f.place)
    (hmove : f.place.Reaches f'.place) (hs : s'.Placed source)
    (h : f.settle g settings source.utf8ByteSize (allowance settings frames) (result, s) =
      f'.settle g settings source.utf8ByteSize (allowance settings frames)
        (g.evaluate settings source.utf8ByteSize
          ⟨allowance settings (f' :: frames), t, f'.place, s'⟩))
    (hinner : Work.Less
      ⟨allowance settings (f' :: frames), sizeOf t, source.utf8ByteSize - f'.place.offset + 1⟩
      (f.work source.utf8ByteSize (allowance settings frames)))
    (hframe : (f'.work source.utf8ByteSize (allowance settings frames)).Less
      (f.work source.utf8ByteSize (allowance settings frames))) :
    g.Progresses settings source ⟨.ended result, s, f :: frames⟩
      ⟨.start t f'.place, s', f' :: frames⟩ := by
  have hlead' : LeadsTo source (f' :: frames) f'.place := ⟨.refl _, hlead.move hmove⟩
  refine ⟨⟨hs, f'.place, hlead', rfl⟩, ?_, ?_⟩
  · exact congrArg (g.settleAll settings source.utf8ByteSize frames) h.symm
  · have hwork := Work.cutExpand_split hinner hframe
      (workOfFrames settings source.utf8ByteSize frames)
    rw [← zero_add ({f.work source.utf8ByteSize (allowance settings frames)} + _)] at hwork
    exact hwork

/-- An operator waits for its operand. -/
theorem progresses_startOperand (op : Operator ν) (hlead : LeadsTo source frames c)
    (hs : s.Placed source)
    (h : g.evaluate settings source.utf8ByteSize ⟨allowance settings frames, t', c, s⟩ =
      op.apply (t.run source.utf8ByteSize
        (g.runRule settings source.utf8ByteSize (allowance settings frames))) c s)
    (hsize : sizeOf t < sizeOf t') :
    g.Progresses settings source ⟨.start t' c, s, frames⟩
      (.startOperand c s frames op t) :=
  progresses_push hlead (op.placed_inside hs) rfl (h.trans (evaluate_operand op t))
    (Work.less_of_size hsize) (Work.less_of_size (Nat.zero_lt_of_lt hsize))

theorem exists_of_step_eq_none {k : Configuration ρ ν} (h : g.step settings k = none) :
    ∃ out, k = .ended out [] := by
  obtain ⟨focus, s, frames⟩ := k
  cases focus with
  | start t c => cases h
  | ended result =>
      cases frames with
      | nil => exact ⟨(result, s), rfl⟩
      | cons f frames => cases h

variable [LawfulBEq ρ] [LawfulHashable ρ]

/-- A term ends at once. -/
theorem progresses_end (hlead : LeadsTo source frames c) (hs : s.Placed source)
    (h : g.evaluate settings source.utf8ByteSize ⟨allowance settings frames, t, c, s⟩ = out) :
    g.Progresses settings source ⟨.start t c, s, frames⟩ (.ended out frames) := by
  obtain ⟨hplaced, hstop⟩ :=
    (runs_of_evaluate hlead.isPlaceOf hs h).placed hlead.isPlaceOf hs
  refine ⟨⟨hplaced, c, hlead, hstop⟩, ?_, ?_⟩
  · exact congrArg (g.settleAll settings source.utf8ByteSize frames) h.symm
  · exact (Relation.cutExpand_add_right _).2 Relation.cutExpand_zero

/-- Starting a rule either ends it at once or starts its body, in which one rule less may become
active. -/
theorem progresses_startRule (r : ρ) (hlead : LeadsTo source frames c) (hs : s.Placed source) :
    g.Progresses settings source ⟨.start (.rule r) c, s, frames⟩
      (g.startTerm settings c s frames (.rule r)) := by
  unfold startTerm
  cases hover : s.overflow with
  | some offset =>
      exact progresses_end hlead hs (by rw [evaluate_rule, runRule_of_overflow hover])
  | none =>
      simp only
      split
      case isTrue hlimit =>
        have hnone : allowance settings frames = 0 := Nat.sub_eq_zero_of_le hlimit
        exact progresses_end hlead hs (by rw [evaluate_rule, hnone, runRule_zero hover])
      case isFalse hbelow =>
        have hone : allowance settings frames =
            allowance settings (.rule r c s :: frames) + 1 := by
          simp only [allowance, List.countP_cons, Frame.isRule, if_true]
          omega
        cases hkept : s.memoized? settings.memoize r c.offset with
        | some kept =>
            exact progresses_end hlead hs
              (by rw [evaluate_rule, hone, runRule_of_kept hover hkept])
        | none =>
            refine progresses_push hlead (hs.enterRule settings g r hlead.isPlaceOf) rfl ?_
              (Work.less_of_rules ?_) (Work.less_of_size ?_)
            · rw [hone]
              exact evaluate_rule_of_new hover hkept
            · omega
            · simp

/-- Starting a term leads on. -/
theorem progresses_startTerm (t : Term ρ ν) (hlead : LeadsTo source frames c)
    (hs : s.Placed source) :
    g.Progresses settings source ⟨.start t c, s, frames⟩
      (g.startTerm settings c s frames t) := by
  have hplace := hlead.isPlaceOf
  cases t with
  | literal text ignoreCase | charIn k | anyChar => exact progresses_end hlead hs rfl
  | rule r => exact progresses_startRule r hlead hs
  | seq ts =>
      cases ts with
      | nil => exact progresses_end hlead hs rfl
      | cons t ts =>
          obtain ⟨hfirst, hrest⟩ := Term.sizeOf_lt_seq_cons t ts
          exact progresses_push hlead hs rfl (evaluate_seq_cons t ts) (Work.less_of_size hfirst)
            (Work.less_of_size hrest)
  | choice ts =>
      cases ts with
      | nil => exact progresses_end hlead hs rfl
      | cons t ts =>
          obtain ⟨hfirst, hrest⟩ := Term.sizeOf_lt_choice_cons t ts
          exact progresses_push hlead hs rfl (runChoice_cons t ts) (Work.less_of_size hfirst)
            (Work.less_of_size hrest)
  | star t =>
      exact progresses_push hlead hs rfl (evaluate_star t hplace hs) (Work.less_of_size (by simp))
        (Work.less_of_input (Nat.lt_succ_self _))
  | plus t =>
      exact progresses_push hlead hs rfl (evaluate_plus t hplace hs) (Work.less_of_size (by simp))
        (Work.less_of_input (Nat.lt_succ_self _))
  | opt t | not t | and t | label name t | action act t | text t | pick index t =>
      exact progresses_startOperand _ hlead hs rfl (by simp)

/-- A frame that gets the outcome it waits for leads on. -/
theorem progresses_resume (hlead : LeadsTo source frames f.place) (hs : s.Placed source)
    (hstop : ∀ m, result = some m → f.place.Reaches m.stop) :
    g.Progresses settings source ⟨.ended result, s, f :: frames⟩
      (g.resume settings frames f (result, s)) := by
  cases f with
  | rule r c outer =>
      exact progresses_pop hlead rfl (hs.leaveRule outer settings g r hlead.isPlaceOf hstop) hstop
  | operator op c outer =>
      obtain ⟨hplaced, hreaches⟩ := op.placed_finish outer hs hstop
      exact progresses_pop hlead rfl hplaced hreaches
  | seq c ts values labels =>
      cases result with
      | none => exact progresses_pop hlead rfl (hs.of_eq rfl rfl rfl rfl) (by rintro m ⟨⟩)
      | some m =>
          cases ts with
          | nil =>
              refine progresses_pop hlead ?_ hs ?_
              · simp [Frame.settle, Term.runSeq, Matcher.prepend, Matcher.endSeq]
              · rintro _ ⟨⟩
                exact hstop m rfl
          | cons t ts =>
              obtain ⟨hfirst, hrest⟩ := Term.sizeOf_lt_seq_cons t ts
              exact progresses_next (.seq m.stop ts (m.value :: values) labels) hlead
                (hstop m rfl) hs (endSeq_runSeq_cons t ts (m.value :: values) labels)
                (Work.less_of_size hfirst) (Work.less_of_size hrest)
  | choice c ts =>
      cases result with
      | some m => exact progresses_pop hlead rfl hs hstop
      | none =>
          cases ts with
          | nil => exact progresses_pop hlead rfl hs hstop
          | cons t ts =>
              obtain ⟨hfirst, hrest⟩ := Term.sizeOf_lt_choice_cons t ts
              exact progresses_next (.choice c ts) hlead (.refl c) hs (runChoice_cons t ts)
                (Work.less_of_size hfirst) (Work.less_of_size hrest)
  | loop atLeastOne c t values =>
      have hended (collected : List (Value ν)) : ∀ m,
          (Matcher.endLoop atLeastOne ((collected, c), s)).1 = some m → c.Reaches m.stop := by
        intro m hm
        obtain ⟨-, hhere⟩ := Option.ite_none_left_eq_some.mp hm
        cases hhere
        exact .refl c
      cases result with
      | none => exact progresses_pop hlead rfl hs (hended _)
      | some m =>
          by_cases hstays : m.stop.offset = c.offset
          · rw [resume, if_pos hstays]
            exact progresses_pop hlead (if_pos hstays) hs (hended _)
          · rw [resume, if_neg hstays]
            -- The round took input, so that less is left for the next one.
            have hreaches : c.Reaches m.stop := hstop m rfl
            have hplace' := hlead.isPlaceOf.move hreaches
            refine progresses_next (.loop atLeastOne m.stop t (m.value :: values)) hlead
              hreaches hs ?_ (Work.less_of_size ?_) (Work.less_of_input ?_)
            · rw [Frame.settle, if_neg hstays]
              exact runLoop_eq_settle t hplace' hs atLeastOne (m.value :: values)
            · simp
            · have hle := hreaches.offset_le
              have hend := hplace'.offset_le
              change source.utf8ByteSize - m.stop.offset < source.utf8ByteSize - c.offset
              omega

/-- Every step leads on. -/
theorem progresses_of_step {k k' : Configuration ρ ν} (hk : k.Placed source)
    (h : g.Steps settings k k') : g.Progresses settings source k k' := by
  obtain ⟨focus, s, frames⟩ := k
  obtain ⟨hs, c, hlead, hstarts⟩ := hk
  cases focus with
  | start t c' =>
      obtain rfl : c' = c := hstarts
      cases h
      exact progresses_startTerm t hlead hs
  | ended result =>
      cases frames with
      | nil => cases h
      | cons f frames =>
          cases h
          exact progresses_resume hlead.2 hs fun m hm => hlead.1.trans (hstarts m hm)

theorem placed_of_steps {k k' : Configuration ρ ν}
    (h : Relation.ReflTransGen (g.Steps settings) k k') (hk : k.Placed source) :
    k'.Placed source := by
  induction h with
  | refl => exact hk
  | tail _ hlast ih => exact (progresses_of_step ih hlast).placed

/-- From a configuration that knows only places of the source the steps end, with what the engine
makes of the configuration.  The induction is on the work that is still to be done. -/
theorem steps_ended {k : Configuration ρ ν} (hk : k.Placed source) :
    Relation.ReflTransGen (g.Steps settings) k
      (.ended (g.outcome settings source.utf8ByteSize k) []) := by
  induction hwork : k.work settings source.utf8ByteSize using
    Work.less_wellFounded.cutExpand.induction generalizing k with
  | _ work ih =>
      cases hstep : g.step settings k with
      | none =>
          obtain ⟨out, rfl⟩ := exists_of_step_eq_none hstep
          exact .refl
      | some k' =>
          have hprogress := progresses_of_step hk hstep
          have hrest := ih _ (hwork ▸ hprogress.work) hprogress.placed rfl
          rw [hprogress.outcome] at hrest
          exact .head hstep hrest

end Grammar

/-! ## Repetitions -/

section Repetitions

variable [LawfulBEq ρ] [LawfulHashable ρ] {g : Grammar ρ ν} {settings : Settings}
  {source : String} {n : Nat} {t : Term ρ ν} {c : Cursor} {s s' : Session ρ ν}

/-- A repetition has at most one value more than it takes bytes, since every round but the last
takes some. -/
theorem Runs.length_of_star {result : Option (Match ν)}
    (h : Runs g settings n (.star t) c s result s') (hplace : c.IsPlaceOf source)
    (hs : s.Placed source) :
    ∃ stop values, result = some ⟨stop, .list values⟩ ∧
      values.length ≤ stop.offset - c.offset + 1 := by
  generalize hstar : Term.star t = u at h
  induction h with
  | starStop h ih => exact ⟨_, [], rfl, Nat.zero_le _⟩
  | starEmpty h hstays ih => exact ⟨_, [_], rfl, Nat.le_add_left 1 _⟩
  | @starMore _ _ c stop _ _ _ m values h hmoved hrest ih ihrest =>
      obtain ⟨hs₁, hfirst⟩ := h.placed hplace hs
      have hreaches := hfirst m rfl
      have hplace₁ := hplace.move hreaches
      obtain ⟨_, _, hresult, hlength⟩ := ihrest hplace₁ hs₁ hstar
      cases hresult
      have hstop := ((hrest.placed hplace₁ hs₁).2 _ rfl).offset_le
      have hle := hreaches.offset_le
      refine ⟨stop, m.value :: values, rfl, ?_⟩
      simp only [List.length_cons] at hlength hstop ⊢
      omega
  | _ => cases hstar

end Repetitions

/-- A parse ends, whatever the rules refer to and whichever terms match nothing: single steps lead
from its start to an end, where the outcome is that of the engine.  Every step trades one piece of
work for smaller ones, which allow fewer rules, have a smaller term or, for a repetition, have less
input left.  A repetition that matches has at most one value more than it takes bytes. -/
theorem Grammar.parseFrom_terminates [LawfulBEq ρ] [LawfulHashable ρ] (g : Grammar ρ ν)
    (settings : Settings) (start : ρ) (source : String) :
    (∃ out : Outcome ρ ν,
      Relation.ReflTransGen (g.Steps settings) (.initial start source) (.ended out []) ∧
        g.step settings (.ended out []) = none ∧
        g.parseFrom settings start source = ⟨conclude source out.1 out.2, out.2⟩) ∧
    (WellFounded (Relation.CutExpand Work.Less) ∧ ∀ k k' : Configuration ρ ν,
      Relation.ReflTransGen (g.Steps settings) (.initial start source) k → g.Steps settings k k' →
        Relation.CutExpand Work.Less (k'.work settings source.utf8ByteSize)
          (k.work settings source.utf8ByteSize)) ∧
    ∀ (e : Evaluation ρ ν) (t : Term ρ ν) (m : Match ν) (s : Session ρ ν),
      g.Reached settings source (startEvaluation settings start source) e →
        e.term = .star t ∨ e.term = .plus t →
        g.evaluate settings source.utf8ByteSize e = (some m, s) →
          ∃ values, m.value = .list values ∧
            values.length ≤ m.stop.offset - e.place.offset + 1 := by
  have hinitial := Configuration.placed_initial (ν := ν) start source
  refine ⟨⟨_, steps_ended hinitial, rfl, parseFrom_eq_evaluate start⟩,
    ⟨Work.less_wellFounded.cutExpand, ?_⟩, ?_⟩
  · intro k k' hreached hstep
    exact (progresses_of_step (placed_of_steps hreached hinitial) hstep).work
  · intro e t m s hreached hterm heval
    have he := placed_of_reached hreached (placed_startEvaluation settings start source)
    obtain ⟨n, u, c, s₀⟩ := e
    have hrun := runs_of_evaluate he.place he.session heval
    rcases hterm with rfl | rfl
    · obtain ⟨stop, values, hresult, hlength⟩ := hrun.length_of_star he.place he.session
      cases hresult
      exact ⟨values, rfl, hlength⟩
    · cases hrun with
      | plus hstar =>
          obtain ⟨stop, values, hresult, hlength⟩ := hstar.length_of_star he.place he.session
          cases hresult
          exact ⟨_, rfl, hlength⟩

/-- Two rules that refer to each other, the second to itself before it takes input, and a
repetition of what may be empty. -/
def Grammar.circular : Grammar Bool Unit where
  symbols := [true, false]
  rule
    | true => { name := "Items", body := .star (.opt (.rule false)) }
    | false =>
      { name := "Item", body := .choice [.seq [.rule false, .lit "a"], .rule true, .lit "a"] }
  root := true

/-- Three rules may be active, and no outcome is kept. -/
def Settings.threeRules : Settings where
  memoize := false
  maxDepth := 3

theorem Grammar.parseFrom_terminates_circular :
    (∃ out : Outcome Bool Unit,
      Relation.ReflTransGen (circular.Steps .threeRules) (.initial true "aa") (.ended out []) ∧
        (circular.parseFrom .threeRules true "aa").session = out.2 ∧
        (circular.parseFrom .threeRules true "aa").session.overflow = some 0) ∧
    ∃ (e : Evaluation Bool Unit) (m : Match Unit) (s : Session Bool Unit)
        (values : List (Value Unit)),
      circular.Reached .threeRules "aa" (startEvaluation .threeRules true "aa") e ∧
        e.term = .star (.opt (.rule false)) ∧ circular.evaluate .threeRules 2 e = (some m, s) ∧
        m.value = .list values ∧ values.length ≤ m.stop.offset - e.place.offset + 1 := by
  obtain ⟨⟨out, hsteps, -, hparse⟩, -, hlength⟩ :=
    parseFrom_terminates circular .threeRules true "aa"
  refine ⟨⟨out, hsteps, by rw [hparse], rfl⟩, ?_⟩
  have hreached : circular.Reached .threeRules "aa" (startEvaluation .threeRules true "aa") _ :=
    .single (.rule rfl rfl)
  obtain ⟨values, hvalues⟩ := hlength _ _ _ _ hreached (.inl rfl) rfl
  exact ⟨_, _, _, values, hreached, rfl, rfl, hvalues⟩

end PegScript

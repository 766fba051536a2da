import PegScript.Proofs.Semantics.Evaluations
import PegScript.Proofs.Semantics.Framing

/-!
# Matching in single steps

The engine matches by recursion, with a bound on the rounds of each repetition that is set
beforehand.  Here matching is taken apart into steps, without recursion and without bounds.  A
configuration has a term to start or an outcome to hand over, and a stack of frames for all that
waits for it; `Grammar.step` gives the next configuration.  A rule is refused where too many rules
are on the stack, and a repetition stops after a round that takes no input.  Nothing else keeps the
steps from going on, whatever the rules refer to.

What the engine makes of a configuration is put together from the terms of its frames
(`Grammar.outcome`).  Each way to start a term has a lemma that says which frame it leaves.
-/

namespace PegScript

variable {ρ ν : Type} [BEq ρ] [Hashable ρ]

/-! ## Single steps -/

/-- An operator that matches its one operand once. -/
inductive Operator (ν : Type) where
  | opt
  | lookahead (positive : Bool)
  | label (name : String)
  | action (act : ActionM ν (Value ν))
  | text
  | pick (index : Nat)

namespace Operator

/-- The operator on matchers. -/
def apply : Operator ν → Matcher ρ ν → Matcher ρ ν
  | opt => Matcher.opt
  | lookahead positive => Matcher.lookahead positive
  | label name => Matcher.label name
  | action act => Matcher.action act
  | text => Matcher.text
  | pick index => Matcher.pick index

/-- The session in which the operand is matched. -/
def inside : Operator ν → Session ρ ν → Session ρ ν
  | lookahead _, s => { s with silent := s.silent + 1 }
  | action _, s => { s with labels := [] }
  | _, s => s

/-- What the operator makes of the outcome of its operand. -/
def finish (op : Operator ν) (c : Cursor) (outer : Session ρ ν) (out : Outcome ρ ν) :
    Outcome ρ ν :=
  op.apply (fun _ _ => out) c outer

theorem finish_inside (op : Operator ν) (p : Matcher ρ ν) (c : Cursor) (s : Session ρ ν) :
    op.finish c s (p c (op.inside s)) = op.apply p c s := by
  cases op <;> rfl

end Operator

/-- The outcome of a repetition that has ended. -/
def Matcher.endLoop (atLeastOne : Bool) :
    (List (Value ν) × Cursor) × Session ρ ν → Outcome ρ ν
  | ((values, stop), s) =>
    (if atLeastOne && values.isEmpty then none else some ⟨stop, .list values⟩, s)

/-- What waits for the outcome of a term that was started at the place `c`.  Collected values are in
reverse order. -/
inductive Frame (ρ ν : Type) [BEq ρ] [Hashable ρ] where
  /-- A rule, for its body. -/
  | rule (r : ρ) (c : Cursor) (outer : Session ρ ν)
  | operator (op : Operator ν) (c : Cursor) (outer : Session ρ ν)
  /-- A sequence, with the terms after the current one. -/
  | seq (c : Cursor) (terms : List (Term ρ ν)) (values : List (Value ν))
      (labels : List (String × Value ν))
  /-- A choice, with the terms after the current one. -/
  | choice (c : Cursor) (terms : List (Term ρ ν))
  /-- A repetition of a term. -/
  | loop (atLeastOne : Bool) (c : Cursor) (term : Term ρ ν) (values : List (Value ν))

namespace Frame

/-- Where the term was started whose outcome the frame waits for. -/
def place : Frame ρ ν → Cursor
  | rule _ c _ | operator _ c _ | seq c _ _ _ | choice c _ | loop _ c _ _ => c

/-- Whether a rule waits here. -/
def isRule : Frame ρ ν → Bool
  | rule .. => true
  | _ => false

end Frame

/-- What is about to happen: a term is started, or a term has ended. -/
inductive Focus (ρ ν : Type) where
  | start (t : Term ρ ν) (c : Cursor)
  | ended (result : Option (Match ν))

/-- All there is at one time of a parse.  The frames are those of the terms and rules that have
started and not ended, innermost first. -/
structure Configuration (ρ ν : Type) [BEq ρ] [Hashable ρ] where
  focus : Focus ρ ν
  session : Session ρ ν
  frames : List (Frame ρ ν)

namespace Configuration

/-- A term has ended. -/
def ended (out : Outcome ρ ν) (frames : List (Frame ρ ν)) : Configuration ρ ν :=
  ⟨.ended out.1, out.2, frames⟩

/-- A parse that is about to start. -/
def initial (start : ρ) (source : String) : Configuration ρ ν :=
  ⟨.start (.rule start) (Cursor.start source), {}, []⟩

/-- The operand of an operator is about to start. -/
def startOperand (c : Cursor) (s : Session ρ ν) (frames : List (Frame ρ ν)) (op : Operator ν)
    (t : Term ρ ν) : Configuration ρ ν :=
  ⟨.start t c, op.inside s, .operator op c s :: frames⟩

end Configuration

namespace Grammar

/-- Starts a term. -/
def startTerm (g : Grammar ρ ν) (settings : Settings) (c : Cursor) (s : Session ρ ν)
    (frames : List (Frame ρ ν)) : Term ρ ν → Configuration ρ ν
  | .literal text ignoreCase => .ended (Matcher.literal text ignoreCase c s) frames
  | .charIn k => .ended (Matcher.charIn k c s) frames
  | .anyChar => .ended (Matcher.anyChar c s) frames
  | .rule r =>
    match s.overflow with
    | some _ => .ended (none, s) frames
    | none =>
      if settings.maxDepth ≤ frames.countP Frame.isRule then
        .ended (none, { s with overflow := some c.offset }) frames
      else
        match s.memoized? settings.memoize r c.offset with
        | some result =>
          .ended (result, (s.reportEnter settings.traced r c).countHit.reportResult
            settings.traced r c result true) frames
        | none => ⟨.start (g.rule r).body c, s.enterRule settings g r c, .rule r c s :: frames⟩
  | .seq [] => .ended (some ⟨c, .list []⟩, s) frames
  | .seq (t :: ts) => ⟨.start t c, s, .seq c ts [] s.labels :: frames⟩
  | .choice [] => .ended (none, s) frames
  | .choice (t :: ts) => ⟨.start t c, s, .choice c ts :: frames⟩
  | .star t => ⟨.start t c, s, .loop false c t [] :: frames⟩
  | .plus t => ⟨.start t c, s, .loop true c t [] :: frames⟩
  | .opt t => .startOperand c s frames .opt t
  | .not t => .startOperand c s frames (.lookahead false) t
  | .and t => .startOperand c s frames (.lookahead true) t
  | .label name t => .startOperand c s frames (.label name) t
  | .action act t => .startOperand c s frames (.action act) t
  | .text t => .startOperand c s frames .text t
  | .pick index t => .startOperand c s frames (.pick index) t

/-- Hands the outcome of a term to the frame that waits for it. -/
def resume (g : Grammar ρ ν) (settings : Settings) (frames : List (Frame ρ ν)) :
    Frame ρ ν → Outcome ρ ν → Configuration ρ ν
  | .rule r c outer, (result, s) =>
    .ended (result, outer.leaveRule settings g r c result s) frames
  | .operator op c outer, out => .ended (op.finish c outer out) frames
  | .seq _ _ _ labels, (none, s) => .ended (none, { s with labels }) frames
  | .seq _ [] values _, (some m, s) =>
    .ended (some ⟨m.stop, .list (m.value :: values).reverse⟩, s) frames
  | .seq _ (t :: ts) values labels, (some m, s) =>
    ⟨.start t m.stop, s, .seq m.stop ts (m.value :: values) labels :: frames⟩
  | .choice _ _, (some m, s) => .ended (some m, s) frames
  | .choice _ [], (none, s) => .ended (none, s) frames
  | .choice c (t :: ts), (none, s) => ⟨.start t c, s, .choice c ts :: frames⟩
  | .loop atLeastOne c _ values, (none, s) =>
    .ended (Matcher.endLoop atLeastOne ((values.reverse, c), s)) frames
  | .loop atLeastOne c t values, (some m, s) =>
    if m.stop.offset = c.offset then
      .ended (Matcher.endLoop atLeastOne (((m.value :: values).reverse, c), s)) frames
    else ⟨.start t m.stop, s, .loop atLeastOne m.stop t (m.value :: values) :: frames⟩

/-- The next configuration, if the parse has not ended. -/
def step (g : Grammar ρ ν) (settings : Settings) (k : Configuration ρ ν) :
    Option (Configuration ρ ν) :=
  match k.focus, k.frames with
  | .start t c, frames => some (g.startTerm settings c k.session frames t)
  | .ended result, f :: frames => some (g.resume settings frames f (result, k.session))
  | .ended _, [] => none

/-- The parse goes on from one configuration to the next. -/
def Steps (g : Grammar ρ ν) (settings : Settings) (k k' : Configuration ρ ν) : Prop :=
  g.step settings k = some k'

/-- How many rules may become active inside of the frames. -/
def allowance (settings : Settings) (frames : List (Frame ρ ν)) : Nat :=
  settings.maxDepth - frames.countP Frame.isRule

end Grammar

/-! ## What the engine makes of a configuration -/

namespace Matcher

/-- A repetition that goes on after the rounds with the given values. -/
def runLoop (size : Nat) (p : Matcher ρ ν) (atLeastOne : Bool) (values : List (Value ν)) :
    Matcher ρ ν := fun c s =>
  endLoop atLeastOne (repeatFrom p (size - c.offset + 1) values c s)

theorem star_eq_runLoop (size : Nat) (p : Matcher ρ ν) : star size p = runLoop size p false [] := by
  funext c s
  simp [star, runLoop, endLoop]

theorem plus_eq_runLoop (size : Nat) (p : Matcher ρ ν) : plus size p = runLoop size p true [] := by
  funext c s
  unfold plus runLoop
  obtain ⟨⟨values, stop⟩, s'⟩ := repeatFrom p (size - c.offset + 1) [] c s
  cases values <;> simp [endLoop]

/-- A sequence that goes on after terms with the given values, in reverse order. -/
def prepend (values : List (Value ν)) :
    Option (Cursor × List (Value ν)) × Session ρ ν → Option (Cursor × List (Value ν)) × Session ρ ν
  | (some (stop, rest), s) => (some (stop, values.reverse ++ rest), s)
  | (none, s) => (none, s)

theorem prepend_nil (reached : Option (Cursor × List (Value ν)) × Session ρ ν) :
    prepend [] reached = reached := by
  obtain ⟨reached, s⟩ := reached
  cases reached <;> rfl

/-- Any bound larger than what is left of the source gives the same repetition. -/
theorem Performs.repeatFrom_bound [LawfulBEq ρ] [LawfulHashable ρ] {g : Grammar ρ ν}
    {settings : Settings} {source : String} {n : Nat} {t : Term ρ ν} {p : Matcher ρ ν}
    (h : Performs g settings source n t p) {bound bound' : Nat} {c : Cursor} {s : Session ρ ν}
    (hbound : byteLength c.rest < bound) (hbound' : byteLength c.rest < bound')
    (hplace : c.IsPlaceOf source) (hs : s.KeepsPlaces source) {values : List (Value ν)} :
    Matcher.repeatFrom p bound values c s = Matcher.repeatFrom p bound' values c s := by
  obtain ⟨items, stop, s₁, hloop, hruns⟩ := h.repeatFrom bound values c s hbound hplace hs
  obtain ⟨items', stop', s₂, hloop', hruns'⟩ := h.repeatFrom bound' values c s hbound' hplace hs
  obtain ⟨hresult, rfl⟩ := hruns.functional hruns'
  cases hresult
  rw [hloop, hloop']

end Matcher

/-- What the engine makes of a frame that gets an outcome. -/
def Frame.settle (g : Grammar ρ ν) (settings : Settings) (size n : Nat) :
    Frame ρ ν → Outcome ρ ν → Outcome ρ ν
  | .rule r c outer, (result, s) => (result, outer.leaveRule settings g r c result s)
  | .operator op c outer, out => op.finish c outer out
  | .seq _ ts values labels, (some m, s) =>
    Matcher.endSeq labels (Matcher.prepend (m.value :: values)
      (Term.runSeq size (g.runRule settings size n) ts m.stop s))
  | .seq _ _ _ labels, (none, s) => (none, { s with labels })
  | .choice _ _, (some m, s) => (some m, s)
  | .choice c ts, (none, s) => Term.runChoice size (g.runRule settings size n) ts c s
  | .loop atLeastOne c t values, (some m, s) =>
    if m.stop.offset = c.offset then
      Matcher.endLoop atLeastOne (((m.value :: values).reverse, c), s)
    else
      Matcher.runLoop size (t.run size (g.runRule settings size n)) atLeastOne (m.value :: values)
        m.stop s
  | .loop atLeastOne c _ values, (none, s) =>
    Matcher.endLoop atLeastOne ((values.reverse, c), s)

namespace Grammar

/-- What the engine makes of all frames, from the innermost outwards. -/
def settleAll (g : Grammar ρ ν) (settings : Settings) (size : Nat) :
    List (Frame ρ ν) → Outcome ρ ν → Outcome ρ ν
  | [], out => out
  | f :: frames, out =>
    g.settleAll settings size frames (f.settle g settings size (allowance settings frames) out)

/-- What the engine makes of a configuration. -/
def outcome (g : Grammar ρ ν) (settings : Settings) (size : Nat) (k : Configuration ρ ν) :
    Outcome ρ ν :=
  match k.focus with
  | .start t c => g.settleAll settings size k.frames
      (g.evaluate settings size ⟨allowance settings k.frames, t, c, k.session⟩)
  | .ended result => g.settleAll settings size k.frames (result, k.session)

section

variable {g : Grammar ρ ν} {settings : Settings} {size n : Nat} {c : Cursor} {s : Session ρ ν}

/-- The first term of a sequence, and then the others. -/
theorem endSeq_runSeq_cons (t : Term ρ ν) (ts : List (Term ρ ν)) (values : List (Value ν))
    (labels : List (String × Value ν)) :
    Matcher.endSeq labels (Matcher.prepend values
        (Term.runSeq size (g.runRule settings size n) (t :: ts) c s)) =
      (Frame.seq c ts values labels).settle g settings size n
        (g.evaluate settings size ⟨n, t, c, s⟩) := by
  unfold Term.runSeq evaluate
  cases t.run size (g.runRule settings size n) c s with
  | mk result s₁ =>
      cases result with
      | none => rfl
      | some m =>
          simp only [Frame.settle]
          cases Term.runSeq size (g.runRule settings size n) ts m.stop s₁ with
          | mk reached s₂ => cases reached <;> simp [Matcher.prepend]

theorem evaluate_seq_cons (t : Term ρ ν) (ts : List (Term ρ ν)) :
    g.evaluate settings size ⟨n, .seq (t :: ts), c, s⟩ =
      (Frame.seq c ts [] s.labels).settle g settings size n
        (g.evaluate settings size ⟨n, t, c, s⟩) := by
  rw [← endSeq_runSeq_cons, Matcher.prepend_nil]
  rfl

/-- The first term of a choice, and then the others. -/
theorem runChoice_cons (t : Term ρ ν) (ts : List (Term ρ ν)) :
    Term.runChoice size (g.runRule settings size n) (t :: ts) c s =
      (Frame.choice c ts).settle g settings size n (g.evaluate settings size ⟨n, t, c, s⟩) := by
  unfold Term.runChoice evaluate
  cases t.run size (g.runRule settings size n) c s with
  | mk result s₁ => cases result <;> rfl

/-- The operand, and then the operator. -/
theorem evaluate_operand (op : Operator ν) (t : Term ρ ν) :
    op.apply (t.run size (g.runRule settings size n)) c s =
      (Frame.operator op c s).settle g settings size n
        (g.evaluate settings size ⟨n, t, c, op.inside s⟩) :=
  (op.finish_inside (t.run size (g.runRule settings size n)) c s).symm

theorem evaluate_rule (r : ρ) :
    g.evaluate settings size ⟨n, .rule r, c, s⟩ = g.runRule settings size n r c s :=
  rfl

/-- A rule whose outcome at the place is not known is its body, put into the frame of the rule. -/
theorem evaluate_rule_of_new {r : ρ} (hover : s.overflow = none)
    (hnew : s.memoized? settings.memoize r c.offset = none) :
    g.evaluate settings size ⟨n + 1, .rule r, c, s⟩ =
      (Frame.rule r c s).settle g settings size (n + 1)
        (g.evaluate settings size ⟨n, (g.rule r).body, c, s.enterRule settings g r c⟩) := by
  rw [evaluate_rule, runRule_of_new hover hnew (runBody_eq ..)]
  rw [Session.closeRule_congr _ s (by simp) (by simp)]
  rfl

variable [LawfulBEq ρ] [LawfulHashable ρ] {source : String}

/-- The bound of a repetition may be set anew after each round. -/
theorem runLoop_eq_settle (t : Term ρ ν) (hplace : c.IsPlaceOf source) (hs : s.Placed source)
    (atLeastOne : Bool) (values : List (Value ν)) :
    Matcher.runLoop source.utf8ByteSize (t.run source.utf8ByteSize
        (g.runRule settings source.utf8ByteSize n)) atLeastOne values c s =
      (Frame.loop atLeastOne c t values).settle g settings source.utf8ByteSize n
        (g.evaluate settings source.utf8ByteSize ⟨n, t, c, s⟩) := by
  have hperforms : Matcher.Performs g settings source n t
      (t.run source.utf8ByteSize (g.runRule settings source.utf8ByteSize n)) :=
    Term.run_performs (runRule_performs settings n) t
  unfold Matcher.runLoop Matcher.repeatFrom evaluate
  cases hround : t.run source.utf8ByteSize (g.runRule settings source.utf8ByteSize n) c s with
  | mk result s₁ =>
      cases result with
      | none => rfl
      | some m =>
          simp only [Frame.settle]
          split
          case isTrue => rfl
          case isFalse hmoved =>
            have hruns := hperforms c s hplace hs.memo
            rw [hround] at hruns
            obtain ⟨hs₁, hstop⟩ := hruns.placed hplace hs
            have hreaches := hstop m rfl
            have hplace₁ := hplace.move hreaches
            have hless := hreaches.byteLength_lt fun heq => hmoved (by rw [heq])
            rw [hplace.byteLength_rest] at hless
            rw [hperforms.repeatFrom_bound hless (Matcher.byteLength_rest_lt_bound hplace₁)
              hplace₁ hs₁.memo]
            rfl

theorem evaluate_star (t : Term ρ ν) (hplace : c.IsPlaceOf source) (hs : s.Placed source) :
    g.evaluate settings source.utf8ByteSize ⟨n, .star t, c, s⟩ =
      (Frame.loop false c t []).settle g settings source.utf8ByteSize n
        (g.evaluate settings source.utf8ByteSize ⟨n, t, c, s⟩) := by
  rw [← runLoop_eq_settle t hplace hs, ← Matcher.star_eq_runLoop]
  rfl

theorem evaluate_plus (t : Term ρ ν) (hplace : c.IsPlaceOf source) (hs : s.Placed source) :
    g.evaluate settings source.utf8ByteSize ⟨n, .plus t, c, s⟩ =
      (Frame.loop true c t []).settle g settings source.utf8ByteSize n
        (g.evaluate settings source.utf8ByteSize ⟨n, t, c, s⟩) := by
  rw [← runLoop_eq_settle t hplace hs, ← Matcher.plus_eq_runLoop]
  rfl

end

end Grammar

end PegScript

import Mathlib.Logic.Relation
import PegScript.Proofs.Semantics.Runs

/-!
# The evaluations of a parse

An evaluation is a term that is about to be matched: at which place, in which session, and how many
more rules may become active.  `Grammar.evaluate` is what the engine makes of it.  To carry out one
evaluation the engine carries out others, and `Grammar.Calls` says which; an evaluation is reached
from another if a chain of calls leads to it.

Calls stay among the places of the source (`Grammar.placed_of_reached`), so whatever holds of all
runs holds of all evaluations that a parse reaches (`Grammar.runs_evaluate`).
-/

namespace PegScript

variable {ρ ν : Type} [BEq ρ] [Hashable ρ]

/-- A term that is about to be matched. -/
structure Evaluation (ρ ν : Type) [BEq ρ] [Hashable ρ] where
  /-- How many more rules may become active. -/
  allowance : Nat
  term : Term ρ ν
  place : Cursor
  session : Session ρ ν

/-- The evaluation stands at a place of the source and knows only places of the source. -/
structure Evaluation.Placed (source : String) (e : Evaluation ρ ν) : Prop where
  place : e.place.IsPlaceOf source
  session : e.session.Placed source

namespace Grammar

/-- What the engine makes of an evaluation in a source of `size` bytes. -/
def evaluate (g : Grammar ρ ν) (settings : Settings) (size : Nat) (e : Evaluation ρ ν) :
    Outcome ρ ν :=
  e.term.run size (g.runRule settings size e.allowance) e.place e.session

/-- `g.Calls settings size e e'`: to carry out `e`, the engine carries out `e'`.  The rest of a
sequence, of a choice or of a repetition counts as a term of its own. -/
inductive Calls (g : Grammar ρ ν) (settings : Settings) (size : Nat) :
    Evaluation ρ ν → Evaluation ρ ν → Prop where
  /-- The body of a rule is evaluated where no outcome of the rule is kept. -/
  | rule {n : Nat} {r : ρ} {c : Cursor} {s : Session ρ ν} (hover : s.overflow = none)
      (hnew : s.memoized? settings.memoize r c.offset = none) :
      Calls g settings size ⟨n + 1, .rule r, c, s⟩
        ⟨n, (g.rule r).body, c, s.enterRule settings g r c⟩
  | seqHead {n : Nat} {t : Term ρ ν} {ts : List (Term ρ ν)} {c : Cursor} {s : Session ρ ν} :
      Calls g settings size ⟨n, .seq (t :: ts), c, s⟩ ⟨n, t, c, s⟩
  | seqTail {n : Nat} {t : Term ρ ν} {ts : List (Term ρ ν)} {c : Cursor} {s s₁ : Session ρ ν}
      {m : Match ν} (hhead : g.evaluate settings size ⟨n, t, c, s⟩ = (some m, s₁)) :
      Calls g settings size ⟨n, .seq (t :: ts), c, s⟩ ⟨n, .seq ts, m.stop, s₁⟩
  | choiceHead {n : Nat} {t : Term ρ ν} {ts : List (Term ρ ν)} {c : Cursor} {s : Session ρ ν} :
      Calls g settings size ⟨n, .choice (t :: ts), c, s⟩ ⟨n, t, c, s⟩
  | choiceTail {n : Nat} {t : Term ρ ν} {ts : List (Term ρ ν)} {c : Cursor}
      {s s₁ : Session ρ ν} (hhead : g.evaluate settings size ⟨n, t, c, s⟩ = (none, s₁)) :
      Calls g settings size ⟨n, .choice (t :: ts), c, s⟩ ⟨n, .choice ts, c, s₁⟩
  | starRound {n : Nat} {t : Term ρ ν} {c : Cursor} {s : Session ρ ν} :
      Calls g settings size ⟨n, .star t, c, s⟩ ⟨n, t, c, s⟩
  /-- A round that takes no input is the last one. -/
  | starAgain {n : Nat} {t : Term ρ ν} {c : Cursor} {s s₁ : Session ρ ν} {m : Match ν}
      (hround : g.evaluate settings size ⟨n, t, c, s⟩ = (some m, s₁))
      (hmoved : m.stop.offset ≠ c.offset) :
      Calls g settings size ⟨n, .star t, c, s⟩ ⟨n, .star t, m.stop, s₁⟩
  | plus {n : Nat} {t : Term ρ ν} {c : Cursor} {s : Session ρ ν} :
      Calls g settings size ⟨n, .plus t, c, s⟩ ⟨n, .star t, c, s⟩
  | opt {n : Nat} {t : Term ρ ν} {c : Cursor} {s : Session ρ ν} :
      Calls g settings size ⟨n, .opt t, c, s⟩ ⟨n, t, c, s⟩
  | not {n : Nat} {t : Term ρ ν} {c : Cursor} {s : Session ρ ν} :
      Calls g settings size ⟨n, .not t, c, s⟩ ⟨n, t, c, { s with silent := s.silent + 1 }⟩
  | and {n : Nat} {t : Term ρ ν} {c : Cursor} {s : Session ρ ν} :
      Calls g settings size ⟨n, .and t, c, s⟩ ⟨n, t, c, { s with silent := s.silent + 1 }⟩
  | label {n : Nat} {name : String} {t : Term ρ ν} {c : Cursor} {s : Session ρ ν} :
      Calls g settings size ⟨n, .label name t, c, s⟩ ⟨n, t, c, s⟩
  | action {n : Nat} {act : ActionM ν (Value ν)} {t : Term ρ ν} {c : Cursor}
      {s : Session ρ ν} :
      Calls g settings size ⟨n, .action act t, c, s⟩ ⟨n, t, c, { s with labels := [] }⟩
  | text {n : Nat} {t : Term ρ ν} {c : Cursor} {s : Session ρ ν} :
      Calls g settings size ⟨n, .text t, c, s⟩ ⟨n, t, c, s⟩
  | pick {n : Nat} {index : Nat} {t : Term ρ ν} {c : Cursor} {s : Session ρ ν} :
      Calls g settings size ⟨n, .pick index t, c, s⟩ ⟨n, t, c, s⟩

/-- The evaluation `e'` is carried out in the course of `e`. -/
def Reached (g : Grammar ρ ν) (settings : Settings) (source : String)
    (e e' : Evaluation ρ ν) : Prop :=
  Relation.ReflTransGen (g.Calls settings source.utf8ByteSize) e e'

/-- The evaluation that a parse consists of. -/
def startEvaluation (settings : Settings) (start : ρ) (source : String) : Evaluation ρ ν :=
  ⟨settings.maxDepth, .rule start, Cursor.start source, {}⟩

theorem placed_startEvaluation (settings : Settings) (start : ρ) (source : String) :
    (startEvaluation (ν := ν) settings start source).Placed source :=
  ⟨Cursor.start_isPlaceOf source, Session.placed_empty⟩

variable {g : Grammar ρ ν} {settings : Settings} {source : String} {e e' : Evaluation ρ ν}

/-- A parse ends as the evaluation it consists of. -/
theorem parseFrom_eq_evaluate (start : ρ) :
    g.parseFrom settings start source =
      ⟨conclude source
          (g.evaluate settings source.utf8ByteSize (startEvaluation settings start source)).1
          (g.evaluate settings source.utf8ByteSize (startEvaluation settings start source)).2,
        (g.evaluate settings source.utf8ByteSize (startEvaluation settings start source)).2⟩ := by
  unfold evaluate startEvaluation Term.run
  rfl

variable [LawfulBEq ρ] [LawfulHashable ρ]

/-- At places of the source, evaluations are runs. -/
theorem runs_evaluate (g : Grammar ρ ν) (settings : Settings) (he : e.Placed source) :
    Runs g settings e.allowance e.term e.place e.session
      (g.evaluate settings source.utf8ByteSize e).1
      (g.evaluate settings source.utf8ByteSize e).2 :=
  Term.run_performs (runRule_performs settings e.allowance) e.term e.place e.session he.place
    he.session.memo

theorem runs_of_evaluate {n : Nat} {t : Term ρ ν} {c : Cursor} {s s' : Session ρ ν}
    {result : Option (Match ν)} (hplace : c.IsPlaceOf source) (hs : s.Placed source)
    (h : g.evaluate settings source.utf8ByteSize ⟨n, t, c, s⟩ = (result, s')) :
    Runs g settings n t c s result s' := by
  have hruns := Term.run_performs (runRule_performs (g := g) settings n) t c s hplace hs.memo
  have hends : t.run source.utf8ByteSize (g.runRule settings source.utf8ByteSize n) c s =
      (result, s') := h
  rwa [hends] at hruns

/-- Calls stay at places of the source. -/
theorem Calls.placed (h : g.Calls settings source.utf8ByteSize e e') (he : e.Placed source) :
    e'.Placed source := by
  obtain ⟨hplace, hs⟩ := he
  cases h with
  | rule hover hnew => exact ⟨hplace, hs.enterRule settings g _ hplace⟩
  | seqTail hhead | starAgain hhead hmoved =>
      obtain ⟨hs₁, hstop⟩ := (runs_of_evaluate hplace hs hhead).placed hplace hs
      exact ⟨hplace.move (hstop _ rfl), hs₁⟩
  | choiceTail hhead => exact ⟨hplace, ((runs_of_evaluate hplace hs hhead).placed hplace hs).1⟩
  | not | and | action => exact ⟨hplace, hs.of_eq rfl rfl rfl rfl⟩
  | seqHead | choiceHead | starRound | plus | opt | label | text | pick => exact ⟨hplace, hs⟩

theorem placed_of_reached (h : g.Reached settings source e e') (he : e.Placed source) :
    e'.Placed source := by
  induction h with
  | refl => exact he
  | tail _ hcall ih => exact hcall.placed ih

end Grammar

end PegScript

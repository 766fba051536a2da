import PegScript.Proofs.JavaScript.Marks

/-!
# The state that lowering leaves behind

Lowering changes the state on its way into a tree: it indents, opens scopes and reads names under
other ones.  When it gives a text, all of this is undone.  What stays are names at the end of the
innermost scope, helpers and numbers, and the numbers are exactly as many as there are numbered
pieces in the tree.  So no such piece is left out or lowered twice.
-/

namespace PegScript

namespace JavaScript

open Lower

variable {α : Type}

/-- The later state goes on from the earlier one, after so many numbers were given out. -/
structure Emitter.Extends (numbers : Nat) (s s' : Emitter) : Prop where
  level : s'.level = s.level
  rebind : s'.rebind = s.rebind
  /-- As many scopes are open as before. -/
  depth : s'.scopes.length = s.scopes.length
  /-- The scopes around the innermost one are the same. -/
  outer : s'.scopes.tail = s.scopes.tail
  /-- The innermost scope has the names it had, in their order, and possibly more behind them. -/
  innermost : s.scopes.headD [] <+: s'.scopes.headD []
  helpers : ∀ h, s.helpers.contains h = true → s'.helpers.contains h = true
  counter : s'.counter = s.counter + numbers

/-! ## Counting numbers -/

/-- A piece without a defect takes one number if it is numbered, and none otherwise. -/
theorem count_number_effects {piece : Piece} (hclean : ∀ d, Effect.defect d ∉ piece.effects) :
    piece.effects.count .number = if piece.isNumbered then 1 else 0 := by
  revert hclean
  unfold Piece.effects
  split
  case h_1 | h_4 | h_6 | h_9 | h_10 =>
    intro _
    split <;> simp
  case h_2 stages =>
    -- Only a pipeline without stages takes no number, and that is a defect.
    intro hclean
    cases stages with
    | nil => simp at hclean
    | cons stage stages => simp
  case h_3 | h_7 | h_8 => simp
  case h_5 =>
    intro _
    unfold AssignOp.effects
    split
    · simp
    · split <;> simp
  case h_11 =>
    intro _
    unfold Piece.isNumbered
    split <;> grind [Multiset.count_zero]

theorem count_number_effectsOf {pieces : List Piece}
    (hclean : ∀ d, Effect.defect d ∉ effectsOf pieces) :
    (effectsOf pieces).count .number = pieces.countP Piece.isNumbered := by
  induction pieces with
  | nil => rfl
  | cons piece pieces ih =>
      simp only [effectsOf_cons, Multiset.mem_add, not_or, forall_and] at hclean
      rw [effectsOf_cons, Multiset.count_add, count_number_effects hclean.1, ih hclean.2,
        List.countP_cons, Nat.add_comm]

/-! ## Lowerings -/

theorem Advances.extends {effects : Multiset Effect} {s s' : Emitter}
    (h : Advances effects s s') : Emitter.Extends (effects.count .number) s s' := by
  obtain ⟨names, hscopes⟩ := h.scopes
  refine ⟨h.level, h.rebind, ?_, ?_, ?_, ?_, h.counter⟩
  · rw [hscopes, List.length_modifyHead]
  · rw [hscopes, List.tail_modifyHead]
  · rw [hscopes]
    cases s.scopes with
    | nil => exact List.prefix_rfl
    | cons scope scopes => exact List.prefix_append scope names
  · intro helper hnoted
    exact (h.helpers helper).mpr (.inl hnoted)

/-- A lowering that has the effects of the pieces takes a number for each numbered piece. -/
theorem Costs.extends {pieces : List Piece} {m : Lower α} (hcosts : Costs (effectsOf pieces) m)
    {s s' : Emitter} {a : α} (hrun : m s = .ok (a, s')) :
    Emitter.Extends (pieces.countP Piece.isNumbered) s s' := by
  obtain ⟨hadvances, hclean⟩ := (hcosts s).1 a s' hrun
  rw [← count_number_effectsOf hclean]
  exact hadvances.extends

/-- When a statement, an expression, a pattern or a block is lowered to a text, from any state, then
the indentation, the replaced name and the open scopes are as they were, except that names may have
been added at the end of the innermost scope.  No helper is lost, and one number is given out for
each pipeline, each counting loop and each guarded evaluation in the tree.  A block is lowered to
lines, to a body in braces, to the body of a function or to what follows an arrow. -/
theorem lowering_extends (s s' : Emitter) (text : String) :
    (∀ stmt, stmtText stmt s = .ok (text, s') →
      s.Extends (stmt.pieces.countP Piece.isNumbered) s') ∧
    (∀ e, exprText e s = .ok (text, s') → s.Extends (e.pieces.countP Piece.isNumbered) s') ∧
    (∀ pattern, patternText pattern s = .ok (text, s') →
      s.Extends (pattern.pieces.countP Piece.isNumbered) s') ∧
    ∀ block : Block,
      (∃ use, blockLines use block s = .ok (text, s')) ∨ bodyText block s = .ok (text, s') ∨
          scopeText block s = .ok (text, s') ∨ arrowText block s = .ok (text, s') →
        s.Extends (block.pieces.countP Piece.isNumbered) s' := by
  refine ⟨?_, ?_, ?_, ?_⟩
  · intro stmt hrun
    exact (costs_stmtText stmt).extends hrun
  · intro e hrun
    exact (costs_exprText e).extends hrun
  · intro pattern hrun
    exact (costs_patternText pattern).extends hrun
  · rintro block (⟨use, hrun⟩ | hrun | hrun | hrun)
    · exact (costs_blockLines use block).extends hrun
    · exact (costs_bodyText block).extends hrun
    · exact (costs_scopeText block).extends hrun
    · exact (costs_arrowText block).extends hrun

/-- A state inside two functions and a pipeline stage. -/
def nestedState : Emitter where
  helpers := .ofList [.range]
  scopes := [["_ref4"], ["_ref1", "_ref2"]]
  rebind := some ⟨"x", "_ref4"⟩
  counter := 4
  level := 2

def pipedCall : Expr :=
  .pipeline (.ident "x") [.call (.ident "f")]

/-- A guarded pipeline whose fallback counts. -/
def guardedPipeline : Stmt :=
  .guard (some (.ident "v")) pipedCall "e"
    ⟨[.forRange "i" (.number "0") (.number "3") none ⟨[], none⟩], none⟩

theorem lowering_extends_guardedPipeline :
    (∃ text s', stmtText guardedPipeline nestedState = .ok (text, s') ∧
      nestedState.Extends 3 s' ∧ s'.scopes = [["_ref4", "_ref6"], ["_ref1", "_ref2"]]) ∧
    (∃ text s', exprText pipedCall nestedState = .ok (text, s') ∧ nestedState.Extends 1 s') ∧
    (∃ text s', patternText (.array [⟨.ident "a", some pipedCall⟩] none) nestedState =
      .ok (text, s') ∧ nestedState.Extends 1 s') ∧
    ∃ text s', bodyText ⟨[guardedPipeline], some pipedCall⟩ nestedState = .ok (text, s') ∧
      nestedState.Extends 4 s' := by
  refine ⟨⟨_, _, rfl, ?_, rfl⟩, ⟨_, _, rfl, ?_⟩, ⟨_, _, rfl, ?_⟩, ⟨_, _, rfl, ?_⟩⟩
  · exact (lowering_extends nestedState _ _).1 guardedPipeline rfl
  · exact (lowering_extends nestedState _ _).2.1 pipedCall rfl
  · exact (lowering_extends nestedState _ _).2.2.1 (.array [⟨.ident "a", some pipedCall⟩] none) rfl
  · exact (lowering_extends nestedState _ _).2.2.2 ⟨[guardedPipeline], some pipedCall⟩
      (.inr (.inl rfl))

end JavaScript

end PegScript

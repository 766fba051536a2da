import PegScript.JavaScript.Generate
import PegScript.Proofs.JavaScript.Emitter
import PegScript.Proofs.Tree.Containment

/-!
# The search for an `await`

A do block becomes a function that is called at once, and a guarded expression becomes a function
for a helper.  Either has to be an `async` function if it has an `await` of its own, and the
generator searches the tree for one.  The search is exact but for binding patterns, which it skips:
an `await` in the default value of a pattern is not found.
-/

namespace PegScript

namespace Piece

/-- Functions have awaits of their own. -/
@[simp]
def isFunction : Piece → Bool
  | .function _ | .expr (.function _) | .stmt (.function _) => true
  | _ => false

@[simp]
def isPattern : Piece → Bool
  | .pattern _ | .patternElement _ => true
  | _ => false

/-- The pieces below which no `await` is searched for. -/
def isSkipped (p : Piece) : Bool :=
  p.isFunction || p.isPattern

@[simp]
def isAwait : Piece → Bool
  | .expr (.await _) => true
  | _ => false

/-- Below the piece is an `await` that is not below one of the pieces where the search stops. -/
def ContainsAwait (stops : Piece → Bool) (p : Piece) : Prop :=
  ∃ q, p.Contains stops q ∧ q.isAwait = true

/-- Whether an `await` is found in the piece. -/
@[simp]
def awaits : Piece → Bool
  | .program ⟨body⟩ => stmtsAwait body
  | .block b => b.awaits
  | .stmt s => s.awaits
  | .expr e => e.awaits
  | .strPart part => part.awaits
  | .element e => e.awaits
  | .property prop => prop.awaits
  | .propertyKey key => key.awaits
  | .pipeStage stage => stage.awaits
  | .param ⟨_, default, _⟩ => exprAwaits? default
  | .assignTarget target => target.awaits
  | .branch b => b.awaits
  | .handler h => h.awaits
  | .suffix (.call args _) => elementsAwait args
  | .suffix (.index e) => e.awaits
  | .operand o => o.right.awaits
  | .suffix (.member _ _) | .function _ | .pattern _ | .patternElement _ | .importFrom _
  | .importSpec _ | .importClause _ => false

end Piece

/-! ## The search -/

namespace Piece

/-- Several trees await if one of them does. -/
theorem any_awaits_map {α : Type} {all : List α → Bool} {wrap : α → Piece} (hnil : all [] = false)
    (hcons : ∀ a as, all (a :: as) = ((wrap a).awaits || all as)) (as : List α) :
    (as.map wrap).any awaits = all as := by
  induction as with
  | nil => simp [hnil]
  | cons a as ih => simp [hcons, ← ih]

@[simp]
theorem any_awaits_parts (parts : List StrPart) :
    (parts.map strPart).any awaits = partsAwait parts :=
  any_awaits_map rfl (fun _ _ => rfl) parts

@[simp]
theorem any_awaits_elements (elements : List Element) :
    (elements.map element).any awaits = elementsAwait elements :=
  any_awaits_map rfl (fun _ _ => rfl) elements

@[simp]
theorem any_awaits_properties (props : List Property) :
    (props.map property).any awaits = propertiesAwait props :=
  any_awaits_map rfl (fun _ _ => rfl) props

@[simp]
theorem any_awaits_stages (stages : List PipeStage) :
    (stages.map pipeStage).any awaits = stagesAwait stages :=
  any_awaits_map rfl (fun _ _ => rfl) stages

@[simp]
theorem any_awaits_branches (branches : List Branch) :
    (branches.map branch).any awaits = branchesAwait branches :=
  any_awaits_map rfl (fun _ _ => rfl) branches

@[simp]
theorem any_awaits_stmts (stmts : List Stmt) :
    (stmts.map stmt).any awaits = stmtsAwait stmts :=
  any_awaits_map rfl (fun _ _ => rfl) stmts

@[simp]
theorem any_awaits_expr? (o : Option Expr) : (o.toList.map expr).any awaits = exprAwaits? o := by
  cases o <;> simp [exprAwaits?]

@[simp]
theorem any_awaits_block? (o : Option Block) :
    (o.toList.map block).any awaits = blockAwaits? o := by
  cases o <;> simp [blockAwaits?]

@[simp]
theorem any_awaits_handler? (o : Option Handler) :
    (o.toList.map handler).any awaits = handlerAwaits? o := by
  cases o <;> simp [handlerAwaits?]

@[simp]
theorem any_awaits_pattern? (o : Option Pattern) :
    (o.toList.map pattern).any awaits = false := by
  cases o <;> simp

/-- The search looks at a piece and, unless it is skipped, at its children. -/
theorem awaits_eq_any_children (p : Piece) :
    p.awaits = (p.isAwait || !p.isSkipped && p.children.any awaits) := by
  cases p with
  | program x | block x | function x | param x | branch x | handler x | operand x =>
    obtain ⟨⟩ := x
    simp [-List.any_map, isSkipped, Block.awaits, Branch.awaits, Handler.awaits]
  | stmt x => cases x <;> simp [-List.any_map, isSkipped, Stmt.awaits, Bool.or_assoc]
  | expr x => cases x <;> simp [-List.any_map, isSkipped, Expr.awaits, Bool.or_assoc]
  | strPart x => cases x <;> simp [isSkipped, StrPart.awaits]
  | element x => cases x <;> simp [isSkipped, Element.awaits]
  | property x => cases x <;> simp [isSkipped, Property.awaits]
  | propertyKey x => cases x <;> simp [isSkipped, PropertyKey.awaits]
  | pipeStage x => cases x <;> simp [isSkipped, PipeStage.awaits]
  | assignTarget x => cases x <;> simp [isSkipped, AssignTarget.awaits]
  | suffix x => cases x <;> simp [-List.any_map, isSkipped]
  | pattern x | patternElement x => simp [isSkipped]
  | importFrom x | importSpec x | importClause x => simp

/-- The search finds an `await` outside functions and patterns, and nothing else. -/
theorem awaits_iff_containsAwait (p : Piece) : p.awaits = true ↔ p.ContainsAwait isSkipped := by
  refine search_iff_contains (fun p => ?_) p
  rw [awaits_eq_any_children]
  simp

/-! ## Patterns without awaits -/

theorem ContainsAwait.of_child {stops : Piece → Bool} {p q : Piece} (hstops : stops p = false)
    (hq : q ∈ p.children) (h : q.ContainsAwait stops) : p.ContainsAwait stops := by
  obtain ⟨r, hr, hawait⟩ := h
  exact ⟨r, .head hstops hq hr, hawait⟩

theorem ContainsAwait.of_isSkipped {p : Piece} (h : p.ContainsAwait isSkipped) :
    p.ContainsAwait isFunction := by
  obtain ⟨q, hq, hawait⟩ := h
  exact ⟨q, hq.mono (by simp +contextual [isSkipped]), hawait⟩

/-- Outside functions, no pattern of the piece contains an `await`. -/
def PatternsFree (p : Piece) : Prop :=
  ∀ q, p.Contains isFunction q → q.isPattern = true → ¬ q.ContainsAwait isFunction

/-- Where no pattern contains an `await`, skipping patterns makes no difference. -/
theorem PatternsFree.containsAwait_iff {p : Piece} (hfree : p.PatternsFree) :
    p.ContainsAwait isSkipped ↔ p.ContainsAwait isFunction := by
  refine ⟨.of_isSkipped, ?_⟩
  rintro ⟨q, hq, hawait⟩
  refine ⟨q, ?_, hawait⟩
  induction hq using Relation.ReflTransGen.head_induction_on with
  | refl => exact .refl
  | @head p r hstep hrest ih =>
      have hpattern : p.isPattern = false := by
        by_contra htrue
        exact hfree p .refl (by simpa using htrue) ⟨q, .head hstep.1 hstep.2 hrest, hawait⟩
      have hskipped : p.isSkipped = false := by
        rw [isSkipped, hstep.1, hpattern]
        rfl
      refine .head hskipped hstep.2 (ih fun r hr => ?_)
      exact hfree r (.head hstep.1 hstep.2 hr)

/-- Whether an `await` is written for the piece itself: for an `await`, and for a function made of a
do block or a guarded expression in which an `await` was found. -/
@[simp]
def writesAwait : Piece → Bool
  | .expr (.await _) => true
  | .expr (.doBlock b) => b.awaits
  | .stmt (.guard _ e _ _) => e.awaits
  | _ => false

theorem containsAwait_of_writesAwait {p : Piece} (h : p.writesAwait = true) :
    p.ContainsAwait isFunction := by
  match p with
  | .expr (.await e) => exact ⟨_, .refl, rfl⟩
  | .expr (.doBlock b) =>
      have hblock := (awaits_iff_containsAwait (.block b)).mp h
      exact .of_child rfl (by simp) hblock.of_isSkipped
  | .stmt (.guard _ e _ _) =>
      have hexpr := (awaits_iff_containsAwait (.expr e)).mp h
      exact .of_child rfl (by simp) hexpr.of_isSkipped

/-- Where no pattern contains an `await`, the search is exact, and no `await` is written in a piece
in which none was found. -/
theorem PatternsFree.awaits_iff {p : Piece} (hfree : p.PatternsFree) :
    (p.awaits = true ↔ p.ContainsAwait isFunction) ∧
      (p.awaits = false → ∀ q, p.Contains isFunction q → q.writesAwait = false) := by
  have hexact : p.awaits = true ↔ p.ContainsAwait isFunction :=
    (awaits_iff_containsAwait p).trans hfree.containsAwait_iff
  refine ⟨hexact, fun hnone q hq => ?_⟩
  by_contra hwrites
  obtain ⟨r, hr, hawait⟩ := containsAwait_of_writesAwait (by simpa using hwrites)
  rw [hexact.mpr ⟨r, hq.trans hr, hawait⟩] at hnone
  cases hnone

end Piece

namespace JavaScript

/-! ## Functions made of blocks and expressions -/

/-- A do block and a guarded expression are lowered to an `async` function exactly if they contain
an `await` outside functions and patterns.  If no pattern contains an `await`, then this is the case
exactly if they contain an `await` outside functions, and no `await` is written directly inside a
function that is not `async`. -/
theorem async_iff_containsAwait (b : Block) (e : Expr) :
    (b.awaits = true ↔ (Piece.block b).ContainsAwait Piece.isSkipped) ∧
    (e.awaits = true ↔ (Piece.expr e).ContainsAwait Piece.isSkipped) ∧
    ((Piece.block b).PatternsFree →
      (b.awaits = true ↔ (Piece.block b).ContainsAwait Piece.isFunction) ∧
      (b.awaits = false → ∀ p, (Piece.block b).Contains Piece.isFunction p →
        p.writesAwait = false)) ∧
    ((Piece.expr e).PatternsFree →
      (e.awaits = true ↔ (Piece.expr e).ContainsAwait Piece.isFunction) ∧
      (e.awaits = false → ∀ p, (Piece.expr e).Contains Piece.isFunction p →
        p.writesAwait = false)) ∧
    exprText (.doBlock b) = (do return calledBlock b.awaits (← scopeText b)) ∧
    ∀ pattern error fallback, stmtText (.guard pattern e error fallback) =
      guardText e.awaits (do return grouped (guarded e) (← exprText (guarded e))) error
        (blockLines .discarded fallback) (patternText? pattern) :=
  ⟨Piece.awaits_iff_containsAwait (.block b), Piece.awaits_iff_containsAwait (.expr e),
    fun hfree => hfree.awaits_iff, fun hfree => hfree.awaits_iff, rfl,
    fun pattern => stmtText_guard pattern e⟩

/-- `let {b = await f()} = c` and the value of `b`. -/
def patternDefault : Block where
  body := [.decl .letDecl
    (.object [⟨"b", none, some (.await (.call (.ident "f") [] false))⟩] none)
    (some (.ident "c"))]
  tail := some (.ident "b")

/-- An `await` in the default value of a pattern is not found, so it is written into a function that
is not `async`. -/
theorem async_patternDefault :
    (Piece.block patternDefault).ContainsAwait Piece.isFunction ∧ patternDefault.awaits = false ∧
      ((exprText (.doBlock patternDefault)).run {}).toOption.map Prod.fst =
        some "(() => \x7b\n  let \x7b b = await f() \x7d = c;\n  return b;\n\x7d)()" := by
  refine ⟨?_, rfl, by decide +kernel⟩
  refine .of_child (q := .stmt _) rfl (by simp [patternDefault]; rfl) ?_
  refine .of_child (q := .pattern _) rfl (by simp; rfl) ?_
  refine .of_child (q := .patternElement _) rfl (by simp; rfl) ?_
  refine .of_child (q := .expr _) rfl (by simp; rfl) ?_
  exact ⟨_, .refl, rfl⟩

end JavaScript

end PegScript

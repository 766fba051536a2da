import Mathlib.Data.List.Basic
import Mathlib.Logic.Relation
import PegScript.Tree.Piece

/-!
# What a piece of a tree contains

The children of a piece are the pieces directly below it.  A piece contains itself and what its
children contain; `Contains` leaves out what is below pieces of a given sort, such as functions.
-/

namespace PegScript

namespace Piece

/-- The pieces directly below a piece, from left to right. -/
@[simp]
def children : Piece → List Piece
  | .program ⟨body⟩ => body.map .stmt
  | .block ⟨body, tail⟩ => body.map .stmt ++ tail.toList.map .expr
  | .stmt (.decl _ p init) => .pattern p :: init.toList.map .expr
  | .stmt (.assign target _ value) => [.assignTarget target, .expr value]
  | .stmt (.expr e) | .stmt (.throw e) | .stmt (.exportDefault e) => [.expr e]
  | .stmt (.ifElse branches otherwise) => branches.map .branch ++ otherwise.toList.map .block
  | .stmt (.whileLoop test body) => [.expr test, .block body]
  | .stmt (.loop body) => [.block body]
  | .stmt (.forIn p iterable body) => [.pattern p, .expr iterable, .block body]
  | .stmt (.forRange _ start stop step body) =>
    .expr start :: .expr stop :: step.toList.map .expr ++ [.block body]
  | .stmt (.ret value) => value.toList.map .expr
  | .stmt (.tryCatch body h finalizer) =>
    .block body :: h.toList.map .handler ++ finalizer.toList.map .block
  | .stmt (.guard p e _ fallback) =>
    p.toList.map .pattern ++ [.expr e, .block fallback]
  | .stmt (.function f) | .expr (.function f) => [.function f]
  | .stmt (.exportDecl decl) => [.stmt decl]
  | .stmt .breakLoop | .stmt .continueLoop | .stmt (.importFrom _) => []
  | .expr (.str parts) => parts.map .strPart
  | .expr (.array items) => items.map .element
  | .expr (.object props) => props.map .property
  | .expr (.doBlock b) => [.block b]
  | .expr (.unary _ e) | .expr (.await e) => [.expr e]
  | .expr (.binary _ left right) => [.expr left, .expr right]
  | .expr (.conditional test consequent alternate) =>
    [.expr test, .expr consequent, .expr alternate]
  | .expr (.call callee args _) | .expr (.new callee args) => .expr callee :: args.map .element
  | .expr (.member object _ _) => [.expr object]
  | .expr (.index object index) => [.expr object, .expr index]
  | .expr (.pipeline head stages) => .expr head :: stages.map .pipeStage
  | .expr (.range start stop step) => .expr start :: .expr stop :: step.toList.map .expr
  | .expr (.yield argument _) => argument.toList.map .expr
  | .expr (.number _) | .expr (.rawStr _) | .expr (.bool _) | .expr .null | .expr .undefined
  | .expr .this | .expr (.ident _) => []
  | .strPart (.text _) => []
  | .strPart (.expr e) => [.expr e]
  | .element (.expr e) | .element (.spread e) => [.expr e]
  | .property (.keyValue key value) => [.propertyKey key, .expr value]
  | .property (.shorthand _) => []
  | .property (.spread e) => [.expr e]
  | .propertyKey (.computed e) => [.expr e]
  | .propertyKey (.ident _) | .propertyKey (.str _) | .propertyKey (.number _) => []
  | .pipeStage (.bind _ e) | .pipeStage (.call e) => [.expr e]
  | .function ⟨_, params, body, _, _, _⟩ => params.map .param ++ [.block body]
  | .param ⟨p, default, _⟩ => .pattern p :: default.toList.map .expr
  | .pattern (.ident _) => []
  | .pattern (.object props _) => props.map fun prop => .patternElement (.prop prop)
  | .pattern (.array items rest) =>
    items.map (fun item => .patternElement (.item item)) ++ rest.toList.map .pattern
  | .patternElement (.prop ⟨_, value, default⟩) =>
    value.toList.map .pattern ++ default.toList.map .expr
  | .patternElement (.item ⟨p, default⟩) => .pattern p :: default.toList.map .expr
  | .patternElement (.rest p) => [.pattern p]
  | .assignTarget (.ident _) => []
  | .assignTarget (.member object _) => [.expr object]
  | .assignTarget (.index object index) => [.expr object, .expr index]
  | .assignTarget (.pattern p) => [.pattern p]
  | .branch ⟨test, body⟩ => [.expr test, .block body]
  | .handler ⟨p, body⟩ => p.toList.map .pattern ++ [.block body]
  | .suffix (.call args _) => args.map .element
  | .suffix (.member _ _) => []
  | .suffix (.index e) => [.expr e]
  | .operand ⟨_, right⟩ => [.expr right]
  | .importFrom _ | .importSpec _ | .importClause _ => []

/-- A child is smaller than its parent. -/
theorem sizeOf_lt_of_mem_children {p q : Piece} (h : q ∈ p.children) : sizeOf q < sizeOf p := by
  cases p with
  | program x | block x | function x | param x | branch x | handler x | operand x =>
    obtain ⟨⟩ := x
    simp at h
    grind [→ List.sizeOf_lt_of_mem]
  | stmt x | expr x | strPart x | element x | property x | propertyKey x | pipeStage x | pattern x
  | assignTarget x | suffix x =>
    cases x <;> simp at h <;> grind [→ List.sizeOf_lt_of_mem]
  | patternElement x =>
    rcases x with ⟨⟩ | ⟨⟩ | x <;> simp at h <;> grind
  | importFrom x | importSpec x | importClause x => simp at h

/-- The piece `q` is `p` or lies below it, and `stops` holds of none of the pieces from `p` down to
the one around `q`. -/
def Contains (stops : Piece → Bool) (p q : Piece) : Prop :=
  Relation.ReflTransGen (fun p q => stops p = false ∧ q ∈ p.children) p q

namespace Contains

variable {stops stops' : Piece → Bool} {p q r : Piece}

theorem refl : p.Contains stops p :=
  Relation.ReflTransGen.refl

theorem head (hstops : stops p = false) (hq : q ∈ p.children) (h : q.Contains stops r) :
    p.Contains stops r :=
  Relation.ReflTransGen.head ⟨hstops, hq⟩ h

theorem trans (h : p.Contains stops q) (h' : q.Contains stops r) : p.Contains stops r :=
  Relation.ReflTransGen.trans h h'

/-- What is left out below fewer pieces is less. -/
theorem mono (hmono : ∀ p, stops' p = true → stops p = true) (h : p.Contains stops q) :
    p.Contains stops' q := by
  induction h with
  | refl => exact .refl
  | @tail q r _ hstep ih =>
      have hstops : stops' q = false := by
        by_contra htrue
        have hsame := hmono q (by simpa using htrue)
        rw [hstep.1] at hsame
        cases hsame
      exact ih.trans (.head hstops hstep.2 .refl)

end Contains

/-- A search that looks at a piece and, unless it stops there, goes on with the children, finds what
the piece contains. -/
theorem search_iff_contains {found stops : Piece → Bool} {Target : Piece → Prop}
    (hsearch : ∀ p, found p = true ↔
      Target p ∨ stops p = false ∧ ∃ q ∈ p.children, found q = true) (p : Piece) :
    found p = true ↔ ∃ q, p.Contains stops q ∧ Target q := by
  constructor
  · -- Downwards the induction is on the size of the piece.
    intro hfound
    induction hsize : sizeOf p using Nat.strongRecOn generalizing p with
    | ind size ih =>
      subst hsize
      obtain htarget | ⟨hstops, q, hq, hfound⟩ := (hsearch p).mp hfound
      · exact ⟨p, .refl, htarget⟩
      · obtain ⟨r, hr, htarget⟩ := ih _ (sizeOf_lt_of_mem_children hq) q hfound rfl
        exact ⟨r, .head hstops hq hr, htarget⟩
  · rintro ⟨q, hq, htarget⟩
    induction hq using Relation.ReflTransGen.head_induction_on with
    | refl => exact (hsearch q).mpr (.inl htarget)
    | head hstep _ ih => exact (hsearch _).mpr (.inr ⟨hstep.1, _, hstep.2, ih⟩)

end Piece

end PegScript

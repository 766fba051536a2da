import PegScript.Proofs.JavaScript.Effects
import PegScript.Proofs.Tree.WellFormed

/-!
# Defects of programs

Lowering gives up exactly on the programs that have a defect somewhere, and reports one that the
program has.  A defect is found wherever it is, since every piece of the program is visited.
-/

namespace PegScript

/-- The piece itself has the defect, whatever the pieces below it are. -/
def Piece.HasDefect : Defect → Piece → Prop
  | .emptyPipeline, .expr (.pipeline _ stages) => stages = []
  | .anonymousDeclaration, .stmt (.function f) => f.name = none
  | .invalidExport, .stmt (.exportDecl decl) => ¬ decl.Declares
  | .compoundDestructuring, .stmt (.assign (.pattern _) op _) => op ≠ .assign
  | .missingInitializer, .stmt (.decl kind target none) =>
    kind = .constDecl ∨ target.Destructures
  | _, _ => False

namespace JavaScript

theorem isIdentPattern_eq_false_iff {pattern : Pattern} :
    isIdentPattern pattern = false ↔ pattern.Destructures := by
  cases pattern <;> simp [isIdentPattern, Pattern.Destructures]

theorem isDeclaration_iff {stmt : Stmt} : isDeclaration stmt = true ↔ stmt.Declares := by
  cases stmt <;> simp [isDeclaration, Stmt.Declares]

theorem defect_mem_effects {d : Defect} {piece : Piece} :
    Effect.defect d ∈ piece.effects ↔ piece.HasDefect d := by
  unfold Piece.effects
  split
  case h_1 => split <;> cases d <;> simp [Piece.HasDefect]
  case h_2 stages => cases stages <;> cases d <;> simp [Piece.HasDefect]
  case h_3 => cases d <;> simp [Piece.HasDefect]
  case h_4 kind target =>
    have hneeds : (kind = .constDecl || !isIdentPattern target) = true ↔
        kind = .constDecl ∨ target.Destructures := by
      rw [← isIdentPattern_eq_false_iff]
      simp
    split
    case isTrue h => cases d <;> simp [Piece.HasDefect, hneeds.mp h]
    case isFalse h => cases d <;> simp [Piece.HasDefect, mt hneeds.mpr h]
  case h_5 op _ =>
    unfold AssignOp.effects
    split
    · cases d <;> simp [Piece.HasDefect]
    · split <;> cases d <;> simp [Piece.HasDefect]
  case h_6 op _ => by_cases hop : op = .assign <;> cases d <;> simp [Piece.HasDefect, hop]
  case h_7 => cases d <;> simp [Piece.HasDefect]
  case h_8 => cases d <;> simp [Piece.HasDefect]
  case h_9 f => cases hname : f.name <;> cases d <;> simp [Piece.HasDefect, hname]
  case h_10 decl =>
    split
    case isTrue h => cases d <;> simp [Piece.HasDefect, isDeclaration_iff.mp h]
    case isFalse h => cases d <;> simp [Piece.HasDefect, mt isDeclaration_iff.mpr h]
  case h_11 =>
    unfold Piece.HasDefect
    split <;> grind

/-- The defect that lowering reports is that of a piece. -/
theorem hasDefect_of_generate_eq_error {program : Program} {d : Defect}
    (h : generate program = .error d) : ∃ piece ∈ program.pieces, piece.HasDefect d := by
  obtain ⟨piece, hpiece, heffect⟩ := mem_effectsOf.mp (effects_of_generate_eq_error h)
  exact ⟨piece, hpiece, defect_mem_effects.mp heffect⟩

/-- No piece of a program that is lowered has a defect. -/
theorem not_hasDefect_of_generate_eq_ok {program : Program} {g : Generated}
    (h : generate program = .ok g) {d : Defect} {piece : Piece} (hpiece : piece ∈ program.pieces) :
    ¬ piece.HasDefect d := by
  intro hdefect
  obtain ⟨-, hclean⟩ := effects_of_generate_eq_ok h
  exact hclean d (mem_effectsOf.mpr ⟨piece, hpiece, defect_mem_effects.mpr hdefect⟩)

/-- Lowering fails if and only if some piece of the program has a defect, and then with the defect
of a piece. -/
theorem generate_fails_iff (program : Program) :
    ((∃ d, generate program = .error d) ↔ ∃ d, ∃ piece ∈ program.pieces, piece.HasDefect d) ∧
      ∀ d, generate program = .error d → ∃ piece ∈ program.pieces, piece.HasDefect d := by
  refine ⟨⟨?_, ?_⟩, fun d => hasDefect_of_generate_eq_error⟩
  · rintro ⟨d, hd⟩
    exact ⟨d, hasDefect_of_generate_eq_error hd⟩
  · rintro ⟨d, piece, hpiece, hdefect⟩
    cases hgenerate : generate program with
    | error d' => exact ⟨d', rfl⟩
    | ok g => exact absurd hdefect (not_hasDefect_of_generate_eq_ok hgenerate hpiece)

end JavaScript

end PegScript

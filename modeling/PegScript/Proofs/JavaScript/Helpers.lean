import PegScript.Proofs.JavaScript.Landmarks

/-!
# The helpers of generated programs

A generated program notes exactly the helpers that its pieces need, and its text calls each of them.
-/

namespace PegScript

namespace JavaScript

/-- The text calls the helper: its name stands there with an opening parenthesis behind it. -/
def Calls (h : Helper) (text : String) : Prop :=
  (h.name ++ "(").toList <:+: text.toList

/-- One of the texts calls the helper. -/
def CallsAmong (h : Helper) (texts : List String) : Prop :=
  ∃ text ∈ texts, Calls h text

/-- The piece needs the helper. -/
def NeededBy : Helper → Piece → Prop
  | .safe, .stmt (.guard _ e _ _) => e.awaits = false
  | .safeAsync, .stmt (.guard _ e _ _) => e.awaits = true
  | .range, .expr (.range ..) => True
  | .get, .expr (.index _ index) => isStaticIndex index = false
  | .get, .stmt (.assign (.index _ index) op _) => isStaticIndex index = false ∧ op ≠ .assign
  | .set, .stmt (.assign (.index _ index) _ _) => isStaticIndex index = false
  | _, _ => False

theorem helper_mem_effects {h : Helper} {piece : Piece} :
    Effect.helper h ∈ piece.effects ↔ NeededBy h piece := by
  unfold Piece.effects
  split
  case h_1 index => cases hstatic : isStaticIndex index <;> cases h <;> simp [NeededBy, hstatic]
  case h_2 => split <;> cases h <;> simp [NeededBy]
  case h_3 => cases h <;> simp [NeededBy]
  case h_4 => split <;> cases h <;> simp [NeededBy]
  case h_5 index op _ =>
    unfold AssignOp.effects
    cases hstatic : isStaticIndex index with
    | true => cases h <;> simp [NeededBy, hstatic]
    | false => by_cases hop : op = .assign <;> cases h <;> simp [NeededBy, hstatic, hop]
  case h_6 => split <;> cases h <;> simp [NeededBy]
  case h_7 => cases h <;> simp [NeededBy]
  case h_8 e _ _ => cases hawaits : e.awaits <;> cases h <;> simp [NeededBy, hawaits]
  case h_9 => split <;> cases h <;> simp [NeededBy]
  case h_10 => split <;> cases h <;> simp [NeededBy]
  case h_11 =>
    unfold NeededBy
    split <;> grind

/-- A helper that is noted is called in the text of a statement. -/
theorem callsAmong_of_generate {program : Program} {g : Generated} {h : Helper}
    (hgenerate : generate program = .ok g) (hnoted : g.helpers.contains h = true) :
    CallsAmong h g.body := by
  obtain ⟨-, -, -, hcalls⟩ := exists_shown_of_generate hgenerate
  exact hcalls h hnoted

theorem CallsAmong.calls_text {g : Generated} {h : Helper} (hbody : CallsAmong h g.body) :
    Calls h g.text :=
  OccursAmong.occurs_text hbody

/-- A generated program notes a helper if and only if one of the pieces of the program needs it, and
the text calls each helper that is noted. -/
theorem helpers_of_generate {program : Program} {g : Generated}
    (hgenerate : generate program = .ok g) :
    (∀ h, g.helpers.contains h = true ↔ ∃ piece ∈ program.pieces, NeededBy h piece) ∧
      ∀ h, g.helpers.contains h = true → Calls h g.text := by
  constructor
  · intro h
    rw [(effects_of_generate_eq_ok hgenerate).1, mem_effectsOf]
    simp only [helper_mem_effects]
  · intro h hnoted
    exact (callsAmong_of_generate hgenerate hnoted).calls_text

/-- An item that is increased inside a guarded evaluation needs three helpers. -/
theorem helpers_of_generate_increase :
    ∃ g, generate ⟨[.guard none (.doBlock ⟨[.assign (.index (.ident "a") (.ident "i")) .add
          (.number "1")], none⟩) "e" ⟨[], none⟩]⟩ = .ok g ∧
      (∀ h, g.helpers.contains h = true ↔ h = .safe ∨ h = .set ∨ h = .get) ∧
      Calls .safe g.text ∧ Calls .set g.text ∧ Calls .get g.text := by
  refine ⟨_, rfl, ?_⟩
  have h := @helpers_of_generate ⟨[.guard none (.doBlock ⟨[.assign (.index (.ident "a")
    (.ident "i")) .add (.number "1")], none⟩) "e" ⟨[], none⟩]⟩ _ rfl
  refine ⟨?_, h.2 .safe (by decide), h.2 .set (by decide), h.2 .get (by decide)⟩
  intro h'
  rw [h.1]
  have hawaits : (Expr.doBlock ⟨[.assign (.index (.ident "a") (.ident "i")) .add (.number "1")],
    none⟩).awaits = false := rfl
  cases h' <;> simp [Program.pieces, stmtsPieces, NeededBy, isStaticIndex, hawaits]

end JavaScript

end PegScript

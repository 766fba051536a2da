import PegScript.Proofs.Semantics.Limit

/-!
# Rules of bounded depth

A rule whose body refers to no rules, or only to such rules, and so on up to some depth, needs no
higher nesting limit than that depth, whatever the source.  `Grammar.fits` decides this from the
bodies of the rules.
-/

namespace PegScript

variable {ρ ν : Type}

mutual

/-- Whether all rules that the term refers to are of some kind. -/
def Term.refersOnly (p : ρ → Bool) : Term ρ ν → Bool
  | .literal _ _ | .charIn _ | .anyChar => true
  | .rule r => p r
  | .seq ts | .choice ts => refersOnlyAll p ts
  | .star t | .plus t | .opt t | .not t | .and t | .label _ t | .action _ t | .text t
  | .pick _ t => refersOnly p t

/-- Whether all rules that the terms refer to are of some kind. -/
def Term.refersOnlyAll (p : ρ → Bool) : List (Term ρ ν) → Bool
  | [] => true
  | t :: ts => refersOnly p t && refersOnlyAll p ts

end

namespace Grammar

/-- Whether the term can be matched with at most `n` rules active at a time. -/
def fits (g : Grammar ρ ν) : Nat → Term ρ ν → Bool
  | 0, t => t.refersOnly fun _ => false
  | n + 1, t => t.refersOnly fun r => fits g n (g.rule r).body

variable {g : Grammar ρ ν} {n : Nat}

theorem fits_rule_iff {r : ρ} :
    g.fits n (.rule r) = true ↔ ∃ k, n = k + 1 ∧ g.fits k (g.rule r).body = true := by
  cases n with
  | zero => simp [fits, Term.refersOnly]
  | succ n => simp [fits, Term.refersOnly]

/-- How deep a term goes depends on the rules it refers to. -/
theorem fits_mono {t u : Term ρ ν} (h : g.fits n t = true)
    (hrefers : ∀ p : ρ → Bool, t.refersOnly p = true → u.refersOnly p = true) :
    g.fits n u = true := by
  cases n with
  | zero => exact hrefers _ h
  | succ n => exact hrefers _ h

end Grammar

variable [BEq ρ] [Hashable ρ] {g : Grammar ρ ν} {settings : Settings} {source : String}
  {e e' : Evaluation ρ ν}

/-- The evaluation needs no more rules than may become active. -/
def Evaluation.Fits (g : Grammar ρ ν) (e : Evaluation ρ ν) : Prop :=
  ∃ n ≤ e.allowance, g.fits n e.term = true

theorem Evaluation.Fits.not_atLimit (h : e.Fits g) : ¬ e.AtLimit := by
  rintro ⟨hzero, r, hterm⟩
  obtain ⟨n, hle, hfits⟩ := h
  rw [hterm, Grammar.fits_rule_iff] at hfits
  obtain ⟨k, rfl, -⟩ := hfits
  omega

namespace Grammar

/-- A call makes at most one rule active, and then the term needs one rule less. -/
theorem Calls.fits {size : Nat} (h : g.Calls settings size e e') (he : e.Fits g) : e'.Fits g := by
  obtain ⟨n, hle, hfits⟩ := he
  cases h with
  | rule hover hnew =>
      obtain ⟨k, rfl, hbody⟩ := fits_rule_iff.mp hfits
      exact ⟨k, Nat.le_of_succ_le_succ hle, hbody⟩
  | seqHead | choiceHead =>
      exact ⟨n, hle, fits_mono hfits fun p hp => (Bool.and_eq_true_iff.mp hp).1⟩
  | seqTail hhead | choiceTail hhead =>
      exact ⟨n, hle, fits_mono hfits fun p hp => (Bool.and_eq_true_iff.mp hp).2⟩
  | starRound | starAgain hround hmoved | plus | opt | not | and | label | action | text | pick =>
      exact ⟨n, hle, fits_mono hfits fun p hp => hp⟩

/-- A parse from a rule of bounded depth stays within a limit of that depth. -/
theorem overflow_eq_none_of_fits [LawfulBEq ρ] [LawfulHashable ρ] {start : ρ} {n : Nat}
    (h : g.fits n (.rule start) = true) (hle : n ≤ settings.maxDepth) :
    (g.parseFrom settings start source).session.overflow = none := by
  refine overflow_eq_none_iff.mpr fun e hreached => Evaluation.Fits.not_atLimit (g := g) ?_
  induction hreached with
  | refl => exact ⟨n, hle, h⟩
  | tail _ hcall ih => exact hcall.fits ih

end Grammar

end PegScript

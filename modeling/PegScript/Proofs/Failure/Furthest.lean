import Mathlib.Order.Defs.PartialOrder
import PegScript.Failure.Diagnosis

/-!
# One record of failures says no more than another

A record says no more than another if the other one is further, or lists at least the same
expectations at the same offset.  Taking a failure into account makes a record say more, and doing
so in both of two records keeps their order (`FurthestFailure.add_le_add`).

A diagnosis shows each text of a record once, so the order of two records shows in their diagnoses
(`FurthestFailure.texts_subset_of_le`).
-/

namespace PegScript

namespace FurthestFailure

/-- `r ≤ r'` if the record `r` says no more than `r'`. -/
instance : Preorder FurthestFailure where
  le r r' := r.offset < r'.offset ∨ r.offset = r'.offset ∧ r.expected ⊆ r'.expected
  le_refl r := .inr ⟨rfl, List.Subset.refl _⟩
  le_trans r r' r'' h h' := by
    rcases h with hfurther | ⟨hsame, hsub⟩
    · rcases h' with hfurther' | ⟨hsame', -⟩
      · exact .inl (Nat.lt_trans hfurther hfurther')
      · exact .inl (hsame' ▸ hfurther)
    · rcases h' with hfurther' | ⟨hsame', hsub'⟩
      · exact .inl (hsame ▸ hfurther')
      · exact .inr ⟨hsame.trans hsame', List.Subset.trans hsub hsub'⟩

variable {r r' : FurthestFailure}

theorem le_def :
    r ≤ r' ↔ r.offset < r'.offset ∨ r.offset = r'.offset ∧ r.expected ⊆ r'.expected :=
  Iff.rfl

theorem offset_le_of_le (h : r ≤ r') : r.offset ≤ r'.offset := by
  rcases le_def.mp h with hfurther | ⟨hsame, -⟩
  · exact Nat.le_of_lt hfurther
  · exact Nat.le_of_eq hsame

/-! ## Taking a failure into account -/

theorem add_of_gt {offset : Nat} (h : offset < r.offset) (e : Expectation) :
    r.add offset e = r := by
  rw [add, if_pos h]

/-- A failure beyond the record takes its place. -/
theorem add_of_lt {offset : Nat} (h : r.offset < offset) (e : Expectation) :
    r.add offset e = ⟨offset, [e]⟩ := by
  rw [add, if_neg (Nat.not_lt_of_lt h), if_pos h]

/-- The first failure is all that a record says. -/
theorem empty_add (offset : Nat) (e : Expectation) :
    ({} : FurthestFailure).add offset e = ⟨offset, [e]⟩ := by
  by_cases hpos : 0 < offset
  · exact add_of_lt hpos e
  · obtain rfl : offset = 0 := by omega
    rfl

theorem offset_add_self (r : FurthestFailure) (e : Expectation) :
    (r.add r.offset e).offset = r.offset := by
  rw [add, if_neg (Nat.lt_irrefl _), if_neg (Nat.lt_irrefl _)]
  split <;> rfl

/-- At the offset of the record, the expectation joins those that are listed. -/
theorem mem_expected_add_self {e e' : Expectation} :
    e' ∈ (r.add r.offset e).expected ↔ e' ∈ r.expected ∨ e' = e := by
  rw [add, if_neg (Nat.lt_irrefl _), if_neg (Nat.lt_irrefl _)]
  by_cases hlisted : e ∈ r.expected
  · rw [if_pos hlisted]
    constructor
    · exact .inl
    · rintro (hold | rfl)
      · exact hold
      · exact hlisted
  · rw [if_neg hlisted, List.mem_append, List.mem_singleton]

theorem mem_expected_of_mem_add {offset : Nat} {e e' : Expectation}
    (h : e' ∈ (r.add offset e).expected) : e' ∈ r.expected ∨ e' = e := by
  rcases Nat.lt_trichotomy offset r.offset with hbefore | rfl | hbeyond
  · rw [add_of_gt hbefore] at h
    exact .inl h
  · exact mem_expected_add_self.mp h
  · rw [add_of_lt hbeyond] at h
    exact .inr (List.mem_singleton.mp h)

theorem le_add (r : FurthestFailure) (offset : Nat) (e : Expectation) : r ≤ r.add offset e := by
  rcases Nat.lt_trichotomy offset r.offset with hbefore | rfl | hbeyond
  · rw [add_of_gt hbefore]
  · refine .inr ⟨(offset_add_self r e).symm, ?_⟩
    intro e' he'
    exact mem_expected_add_self.mpr (.inl he')
  · rw [add_of_lt hbeyond]
    exact .inl hbeyond

/-- A record is at least as far as every failure that it takes into account. -/
theorem le_offset_add (r : FurthestFailure) (offset : Nat) (e : Expectation) :
    offset ≤ (r.add offset e).offset := by
  rcases Nat.lt_trichotomy offset r.offset with hbefore | rfl | hbeyond
  · rw [add_of_gt hbefore]
    exact Nat.le_of_lt hbefore
  · exact Nat.le_of_eq (offset_add_self r e).symm
  · exact Nat.le_of_eq (congrArg FurthestFailure.offset (add_of_lt hbeyond e)).symm

theorem add_le_add (h : r ≤ r') (offset : Nat) (e : Expectation) :
    r.add offset e ≤ r'.add offset e := by
  rcases Nat.lt_trichotomy offset r'.offset with hbefore | rfl | hbeyond
  · -- the failure does not count for `r'`, and `r` gets no further than `r'` by it
    rw [add_of_gt hbefore]
    rcases Nat.lt_trichotomy offset r.offset with hbefore' | rfl | hbeyond'
    · rwa [add_of_gt hbefore']
    · refine .inl ?_
      rwa [offset_add_self]
    · rw [add_of_lt hbeyond']
      exact .inl hbefore
  · rcases le_def.mp h with hfurther | ⟨hsame, hsub⟩
    · rw [add_of_lt hfurther]
      refine .inr ⟨(offset_add_self r' e).symm, ?_⟩
      intro e' he'
      exact mem_expected_add_self.mpr (.inr (List.mem_singleton.mp he'))
    · refine .inr ⟨?_, ?_⟩
      · rw [offset_add_self, ← hsame, offset_add_self]
      · intro e' he'
        rw [← hsame] at he'
        rcases mem_expected_add_self.mp he' with hold | hnew
        · exact mem_expected_add_self.mpr (.inl (hsub hold))
        · exact mem_expected_add_self.mpr (.inr hnew)
  · rw [add_of_lt hbeyond, add_of_lt (Nat.lt_of_le_of_lt (offset_le_of_le h) hbeyond)]

end FurthestFailure

/-! ## What a diagnosis shows of a record -/

theorem mem_of_mem_dropRepeatedKeys {α : Type} {entries : List (String × α)} {entry : String × α}
    (h : entry ∈ dropRepeatedKeys entries) : entry ∈ entries := by
  fun_induction dropRepeatedKeys entries with
  | case1 => exact h
  | case2 a => exact h
  | case3 a b rest hsame ih =>
      rcases List.mem_cons.mp (ih h) with hfirst | hrest
      · exact List.mem_cons.mpr (.inl hfirst)
      · exact List.mem_cons_of_mem _ (List.mem_cons_of_mem _ hrest)
  | case4 a b rest hdiffer ih =>
      rcases List.mem_cons.mp h with hfirst | hrest
      · exact List.mem_cons.mpr (.inl hfirst)
      · exact List.mem_cons_of_mem _ (ih hrest)

/-- No key gets lost. -/
theorem exists_mem_dropRepeatedKeys {α : Type} {entries : List (String × α)}
    {entry : String × α} (h : entry ∈ entries) :
    ∃ entry' ∈ dropRepeatedKeys entries, entry'.1 = entry.1 := by
  fun_induction dropRepeatedKeys entries generalizing entry with
  | case1 => cases h
  | case2 a => exact ⟨entry, h, rfl⟩
  | case3 a b rest hsame ih =>
      rcases List.mem_cons.mp h with rfl | hlater
      · exact ih (List.mem_cons_self ..)
      · rcases List.mem_cons.mp hlater with rfl | hrest
        · obtain ⟨entry', hmem, hkey⟩ := ih (List.mem_cons_self ..)
          exact ⟨entry', hmem, hkey.trans hsame⟩
        · exact ih (List.mem_cons_of_mem _ hrest)
  | case4 a b rest hdiffer ih =>
      rcases List.mem_cons.mp h with rfl | hlater
      · exact ⟨entry, List.mem_cons_self .., rfl⟩
      · obtain ⟨entry', hmem, hkey⟩ := ih hlater
        exact ⟨entry', List.mem_cons_of_mem _ hmem, hkey⟩

theorem mem_of_mem_sortExpectations {expected : List Expectation} {e : Expectation}
    (h : e ∈ sortExpectations expected) : e ∈ expected := by
  unfold sortExpectations at h
  obtain ⟨entry, hentry, rfl⟩ := List.mem_map.mp h
  have hkeyed := List.mem_mergeSort.mp (mem_of_mem_dropRepeatedKeys hentry)
  obtain ⟨e, he, rfl⟩ := List.mem_map.mp hkeyed
  exact he

/-- No text gets lost. -/
theorem exists_mem_sortExpectations {expected : List Expectation} {e : Expectation}
    (h : e ∈ expected) : ∃ e' ∈ sortExpectations expected, e'.text = e.text := by
  have hkeyed : (e.text, e) ∈ (expected.map fun e => (e.text, e)).mergeSort
      fun a b => decide (a.1 ≤ b.1) :=
    List.mem_mergeSort.mpr (List.mem_map.mpr ⟨e, h, rfl⟩)
  obtain ⟨entry, hentry, hkey⟩ := exists_mem_dropRepeatedKeys hkeyed
  have hpair := List.mem_mergeSort.mp (mem_of_mem_dropRepeatedKeys hentry)
  obtain ⟨e', -, rfl⟩ := List.mem_map.mp hpair
  exact ⟨e', List.mem_map.mpr ⟨_, hentry, rfl⟩, hkey⟩

theorem FurthestFailure.diagnose_empty_add (offset : Nat) (e : Expectation) (source : String) :
    ((({} : FurthestFailure).add offset e).diagnose source).offset = offset ∧
      ((({} : FurthestFailure).add offset e).diagnose source).expected = [e] := by
  rw [empty_add]
  refine ⟨rfl, ?_⟩
  simp [diagnose, sortExpectations, dropRepeatedKeys]

/-- At the same offset, the diagnosis of a record that says no more shows no further text. -/
theorem FurthestFailure.texts_subset_of_le {r r' : FurthestFailure} (h : r ≤ r')
    (source : String) (hsame : r.offset = r'.offset) :
    (r.diagnose source).expected.map Expectation.text ⊆
      (r'.diagnose source).expected.map Expectation.text := by
  intro text htext
  obtain ⟨e, he, rfl⟩ := List.mem_map.mp htext
  rcases le_def.mp h with hfurther | ⟨-, hsub⟩
  · exact absurd hsame (Nat.ne_of_lt hfurther)
  · obtain ⟨e', he', heq⟩ := exists_mem_sortExpectations (hsub (mem_of_mem_sortExpectations he))
    exact List.mem_map.mpr ⟨e', he', heq⟩

end PegScript

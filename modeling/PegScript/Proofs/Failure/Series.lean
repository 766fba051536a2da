import Mathlib.Data.List.Induction
import Mathlib.Data.List.Perm.Basic
import PegScript.Proofs.Failure.Furthest

/-!
# The diagnosis of a series of failures

A record takes failures into account one after the other.  In the end it has the furthest of their
offsets, with what was expected there in the order of the first reports.  The diagnosis sorts these
expectations by their texts and shows each text once, for the expectation that was reported first.

Which texts there are does not depend on the order of the failures, and sorted texts have only one
order.  So the order of the failures shows neither in the place of the diagnosis nor in what is
written about it (`FurthestFailure.diagnose_ofFailures`).
-/

namespace PegScript

/-! ## The first of equal keys -/

variable {α : Type} {entries : List (String × α)}

/-- In sorted entries neighbours with equal keys are all there are of the key, so that the keys that
are left increase. -/
theorem pairwise_dropRepeatedKeys (h : entries.Pairwise fun a b => a.1 ≤ b.1) :
    (dropRepeatedKeys entries).Pairwise fun a b => a.1 < b.1 := by
  fun_induction dropRepeatedKeys entries with
  | case1 => exact .nil
  | case2 a => exact List.pairwise_singleton ..
  | case3 a b rest hsame ih =>
      exact ih (h.sublist (.cons_cons a (List.sublist_cons_self b rest)))
  | case4 a b rest hdiffer ih =>
      obtain ⟨hfirst, hlater⟩ := List.pairwise_cons.mp h
      refine List.pairwise_cons.mpr ⟨fun c hc => ?_, ih hlater⟩
      have hab : a.1 < b.1 := Std.lt_of_le_of_ne (hfirst b (List.mem_cons_self ..)) hdiffer
      rcases List.mem_cons.mp (mem_of_mem_dropRepeatedKeys hc) with rfl | hrest
      · exact hab
      · exact Std.lt_of_lt_of_le hab ((List.pairwise_cons.mp hlater).1 c hrest)

/-- Of the entries with one key the first is left. -/
theorem find?_of_mem_dropRepeatedKeys (h : entries.Pairwise fun a b => a.1 ≤ b.1)
    {entry : String × α} (hmem : entry ∈ dropRepeatedKeys entries) :
    entries.find? (fun other => other.1 = entry.1) = some entry := by
  fun_induction dropRepeatedKeys entries with
  | case1 => cases hmem
  | case2 a =>
      obtain rfl := List.mem_singleton.mp hmem
      simp
  | case3 a b rest hsame ih =>
      have hfound := ih (h.sublist (.cons_cons a (List.sublist_cons_self b rest))) hmem
      rw [List.find?_cons] at hfound ⊢
      rw [List.find?_cons, ← hsame]
      split at hfound
      · exact hfound
      · exact hfound
  | case4 a b rest hdiffer ih =>
      have hkeys := pairwise_dropRepeatedKeys h
      rw [dropRepeatedKeys, if_neg hdiffer, List.pairwise_cons] at hkeys
      rcases List.mem_cons.mp hmem with rfl | hrest
      · simp
      · have hne : ¬ a.1 = entry.1 := Std.ne_of_lt (hkeys.1 entry hrest)
        rw [List.find?_cons, decide_eq_false hne]
        exact ih (List.pairwise_cons.mp h).2 hrest

theorem keyLe_trans (a b c : String × α) (hab : decide (a.1 ≤ b.1) = true)
    (hbc : decide (b.1 ≤ c.1) = true) : decide (a.1 ≤ c.1) = true := by
  rw [decide_eq_true_eq] at hab hbc ⊢
  exact String.le_trans hab hbc

theorem keyLe_total (a b : String × α) :
    (decide (a.1 ≤ b.1) || decide (b.1 ≤ a.1)) = true := by
  simpa using String.le_total a.1 b.1

theorem pairwise_mergeSort_key (entries : List (String × α)) :
    (entries.mergeSort fun a b => decide (a.1 ≤ b.1)).Pairwise fun a b => a.1 ≤ b.1 :=
  (List.pairwise_mergeSort keyLe_trans keyLe_total entries).imp of_decide_eq_true

/-- Sorting by key keeps the order of the entries with one key. -/
theorem find?_mergeSort_key (entries : List (String × α)) (key : String) :
    (entries.mergeSort fun a b => decide (a.1 ≤ b.1)).find? (fun entry => entry.1 = key) =
      entries.find? fun entry => entry.1 = key := by
  have hperm := List.mergeSort_perm entries fun a b => decide (a.1 ≤ b.1)
  have hequal : (entries.filter fun entry => entry.1 = key).Pairwise
      fun a b => decide (a.1 ≤ b.1) = true := by
    refine List.pairwise_of_forall_mem_list fun a ha b hb => ?_
    simp only [List.mem_filter, decide_eq_true_eq] at ha hb
    simp [ha.2, hb.2]
  have hsub := (List.sublist_mergeSort keyLe_trans keyLe_total hequal List.filter_sublist).filter
    fun entry => decide (entry.1 = key)
  simp only [List.filter_filter, Bool.and_self] at hsub
  have hsame := hsub.eq_of_length (hperm.filter _).length_eq.symm
  rw [← List.head?_filter, ← List.head?_filter, hsame]

/-! ## The expectations of a diagnosis -/

variable {expected : List Expectation} {e : Expectation}

/-- The texts increase, so that no text is shown twice. -/
theorem pairwise_text_sortExpectations (expected : List Expectation) :
    ((sortExpectations expected).map Expectation.text).Pairwise (· < ·) := by
  have hkeys := pairwise_dropRepeatedKeys
    (pairwise_mergeSort_key (expected.map fun e => (e.text, e)))
  rw [sortExpectations, List.map_map, List.pairwise_map]
  refine hkeys.imp_of_mem fun {a b} ha hb hab => ?_
  have htext {entry : String × Expectation} (hentry : entry ∈ dropRepeatedKeys
      ((expected.map fun e => (e.text, e)).mergeSort fun a b => decide (a.1 ≤ b.1))) :
      entry.2.text = entry.1 := by
    obtain ⟨e, -, rfl⟩ :=
      List.mem_map.mp (List.mem_mergeSort.mp (mem_of_mem_dropRepeatedKeys hentry))
    rfl
  rw [Function.comp_apply, Function.comp_apply, htext ha, htext hb]
  exact hab

theorem mem_text_sortExpectations {text : String} :
    text ∈ (sortExpectations expected).map Expectation.text ↔
      text ∈ expected.map Expectation.text := by
  simp only [List.mem_map]
  constructor
  · rintro ⟨e, he, rfl⟩
    exact ⟨e, mem_of_mem_sortExpectations he, rfl⟩
  · rintro ⟨e, he, rfl⟩
    exact exists_mem_sortExpectations he

/-- Of the expectations with one text the first is shown. -/
theorem find?_of_mem_sortExpectations (h : e ∈ sortExpectations expected) :
    expected.find? (fun other => other.text = e.text) = some e := by
  obtain ⟨entry, hentry, rfl⟩ := List.mem_map.mp h
  have hfound := find?_of_mem_dropRepeatedKeys (pairwise_mergeSort_key _) hentry
  rw [find?_mergeSort_key, List.find?_map] at hfound
  obtain ⟨e, he, rfl⟩ := Option.map_eq_some_iff.mp hfound
  exact he

/-- Equal sets of texts are shown in the same way. -/
theorem text_sortExpectations_congr {expected' : List Expectation}
    (h : ∀ text, text ∈ expected.map Expectation.text ↔ text ∈ expected'.map Expectation.text) :
    (sortExpectations expected).map Expectation.text =
      (sortExpectations expected').map Expectation.text := by
  have hsorted := pairwise_text_sortExpectations expected
  have hsorted' := pairwise_text_sortExpectations expected'
  refine List.Perm.eq_of_pairwise ?_ hsorted hsorted' ?_
  · intro a b _ _ hab hba
    exact absurd (Std.lt_trans hab hba) (String.lt_irrefl a)
  · rw [List.perm_ext_iff_of_nodup (hsorted.imp Std.ne_of_lt) (hsorted'.imp Std.ne_of_lt)]
    intro text
    rw [mem_text_sortExpectations, mem_text_sortExpectations, h]

/-- One more expectation behind those that are each listed once. -/
theorem eraseDups_concat (expected : List Expectation) (e : Expectation) :
    (expected ++ [e]).eraseDups =
      if e ∈ expected then expected.eraseDups else expected.eraseDups ++ [e] := by
  rw [List.eraseDups_append]
  split
  case isTrue hlisted => simp [List.removeAll, hlisted]
  case isFalse hnew => simp [List.removeAll, hnew, List.eraseDups_cons]

/-- Where each expectation is listed once, the first of a kind is found as before. -/
theorem find?_eraseDups (p : Expectation → Bool) (expected : List Expectation) :
    expected.eraseDups.find? p = expected.find? p := by
  induction expected using List.reverseRecOn with
  | nil => rfl
  | append_singleton expected e ih =>
      rw [eraseDups_concat, List.find?_append]
      split
      case isTrue hlisted =>
        rw [ih]
        cases hfound : expected.find? p with
        | some e' => rfl
        | none => simp [List.find?_eq_none.mp hfound e hlisted]
      case isFalse hnew => rw [List.find?_append, ih]

/-- What a report shows of a diagnosis are its place, its texts and the character found. -/
theorem Diagnosis.render_congr {d d' : Diagnosis} (hoffset : d.offset = d'.offset)
    (htexts : d.expected.map Expectation.text = d'.expected.map Expectation.text)
    (hfound : d.found = d'.found) (source : String) :
    d.message = d'.message ∧ d.render source = d'.render source := by
  have hmessage : d.message = d'.message := by
    rw [message, message, htexts, hfound]
  refine ⟨hmessage, ?_⟩
  rw [render, render, hmessage, hoffset]

/-! ## A series of failures -/

namespace FurthestFailure

/-- The record after all of the failures, each an offset and what was expected there. -/
def ofFailures (failures : List (Nat × Expectation)) : FurthestFailure :=
  failures.foldl (fun r failure => r.add failure.1 failure.2) {}

/-- The furthest offset of the failures, zero if there are none. -/
def furthestOffset (failures : List (Nat × Expectation)) : Nat :=
  (failures.map Prod.fst).max?.getD 0

/-- What was expected at the furthest offset, in the order of the failures. -/
def furthestExpected (failures : List (Nat × Expectation)) : List Expectation :=
  (failures.filter fun failure => failure.1 = furthestOffset failures).map Prod.snd

variable {failures failures' : List (Nat × Expectation)}

theorem furthestOffset_eq_foldl (failures : List (Nat × Expectation)) :
    furthestOffset failures = (failures.map Prod.fst).foldl max 0 := by
  rw [List.foldl_max, Nat.zero_max, furthestOffset]

theorem furthestOffset_concat (failures : List (Nat × Expectation)) (failure : Nat × Expectation) :
    furthestOffset (failures ++ [failure]) = max (furthestOffset failures) failure.1 := by
  simp [furthestOffset_eq_foldl]

theorem le_furthestOffset {failure : Nat × Expectation} (h : failure ∈ failures) :
    failure.1 ≤ furthestOffset failures :=
  List.le_max?_getD_of_mem (List.mem_map_of_mem h)

theorem ofFailures_concat (failures : List (Nat × Expectation)) (failure : Nat × Expectation) :
    ofFailures (failures ++ [failure]) = (ofFailures failures).add failure.1 failure.2 := by
  simp [ofFailures]

theorem furthestExpected_concat (failures : List (Nat × Expectation))
    (failure : Nat × Expectation) :
    furthestExpected (failures ++ [failure]) =
      ((failures ++ [failure]).filter fun other =>
        other.1 = max (furthestOffset failures) failure.1).map Prod.snd := by
  rw [furthestExpected, furthestOffset_concat]

/-- At the offset of the record, an expectation joins the others unless it is listed. -/
theorem add_eraseDups (offset : Nat) (expected : List Expectation) (e : Expectation) :
    (⟨offset, expected.eraseDups⟩ : FurthestFailure).add offset e =
      ⟨offset, (expected ++ [e]).eraseDups⟩ := by
  rw [add, if_neg (Nat.lt_irrefl offset), if_neg (Nat.lt_irrefl offset), eraseDups_concat]
  by_cases hlisted : e ∈ expected
  · rw [if_pos (List.mem_eraseDups.mpr hlisted), if_pos hlisted]
  · rw [if_neg (mt List.mem_eraseDups.mp hlisted), if_neg hlisted]

/-- The record of a series of failures.  The induction adds one failure behind the others, which is
before the furthest of them, at the same offset or beyond it. -/
theorem ofFailures_eq (failures : List (Nat × Expectation)) :
    ofFailures failures =
      ⟨furthestOffset failures, (furthestExpected failures).eraseDups⟩ := by
  induction failures using List.reverseRecOn with
  | nil => rfl
  | append_singleton failures failure ih =>
      rw [ofFailures_concat, ih, furthestExpected_concat, furthestOffset_concat]
      rcases Nat.lt_trichotomy failure.1 (furthestOffset failures) with hbefore | hsame | hbeyond
      · rw [add_of_gt hbefore, Nat.max_eq_left (Nat.le_of_lt hbefore)]
        simp [furthestExpected, Nat.ne_of_lt hbefore]
      · rw [hsame, Nat.max_self, add_eraseDups]
        simp [furthestExpected, hsame]
      · have hnone : failures.filter (fun other => other.1 = failure.1) = [] := by
          rw [List.filter_eq_nil_iff]
          intro other hother heq
          have hle := le_furthestOffset hother
          rw [decide_eq_true_eq] at heq
          omega
        rw [add_of_lt hbeyond, Nat.max_eq_right (Nat.le_of_lt hbeyond), List.filter_append, hnone]
        simp [List.eraseDups_cons]

theorem furthestOffset_perm (h : failures.Perm failures') :
    furthestOffset failures = furthestOffset failures' := by
  rw [furthestOffset_eq_foldl, furthestOffset_eq_foldl]
  exact (h.map Prod.fst).foldl_eq 0

theorem furthestExpected_perm (h : failures.Perm failures') :
    (furthestExpected failures).Perm (furthestExpected failures') := by
  rw [furthestExpected, furthestExpected, furthestOffset_perm h]
  exact (h.filter _).map Prod.snd

/-- What a report shows is the same for another order of the failures. -/
theorem diagnose_perm (h : failures.Perm failures') (source : String) :
    ((ofFailures failures').diagnose source).offset =
        ((ofFailures failures).diagnose source).offset ∧
      ((ofFailures failures').diagnose source).found =
        ((ofFailures failures).diagnose source).found ∧
      ((ofFailures failures').diagnose source).expected.map Expectation.text =
        ((ofFailures failures).diagnose source).expected.map Expectation.text := by
  rw [ofFailures_eq, ofFailures_eq, furthestOffset_perm h]
  refine ⟨rfl, rfl, text_sortExpectations_congr fun text => ?_⟩
  simp [(furthestExpected_perm h).mem_iff]

/-- A record has the furthest offset of the failures, and lists what was expected there, in the
order of the failures and without repetitions.  The diagnosis shows the texts of these expectations
in increasing order, and with each text the expectation that was reported first.  So another order
of the same failures changes neither the place of the diagnosis nor what is written about it. -/
theorem diagnose_ofFailures (failures : List (Nat × Expectation)) (source : String) :
    (ofFailures failures).offset = furthestOffset failures ∧
      (ofFailures failures).expected = (furthestExpected failures).eraseDups ∧
      (((ofFailures failures).diagnose source).expected.map Expectation.text).Pairwise (· < ·) ∧
      (∀ text, text ∈ ((ofFailures failures).diagnose source).expected.map Expectation.text ↔
        text ∈ (furthestExpected failures).map Expectation.text) ∧
      (∀ e ∈ ((ofFailures failures).diagnose source).expected,
        (furthestExpected failures).find? (fun other => other.text = e.text) = some e) ∧
      ∀ failures', failures.Perm failures' →
        ((ofFailures failures').diagnose source).offset =
            ((ofFailures failures).diagnose source).offset ∧
          ((ofFailures failures').diagnose source).position source =
            ((ofFailures failures).diagnose source).position source ∧
          ((ofFailures failures').diagnose source).message =
            ((ofFailures failures).diagnose source).message ∧
          ((ofFailures failures').diagnose source).render source =
            ((ofFailures failures).diagnose source).render source := by
  rw [ofFailures_eq]
  refine ⟨rfl, rfl, pairwise_text_sortExpectations _, ?_, ?_, ?_⟩
  · intro text
    rw [diagnose, mem_text_sortExpectations]
    simp
  · intro e he
    rw [← find?_eraseDups]
    exact find?_of_mem_sortExpectations he
  · intro failures' hperm
    obtain ⟨hoffset, hfound, htexts⟩ := diagnose_perm hperm source
    rw [ofFailures_eq failures] at hoffset hfound htexts
    obtain ⟨hmessage, hrender⟩ := Diagnosis.render_congr hoffset htexts hfound source
    have hposition := congrArg (LineMap.positionIn source) hoffset
    exact ⟨hoffset, hposition, hmessage, hrender⟩

/-- Two expectations with one text are listed in the order of their reports, and the report is the
same in either order. -/
theorem diagnose_ofFailures_alike :
    ∃ failures failures', failures.Perm failures' ∧
      (ofFailures failures).expected = [.named "x", .charIn "x"] ∧
      (ofFailures failures').expected = [.charIn "x", .named "x"] ∧
      ((ofFailures failures').diagnose "ab").render "ab" =
        ((ofFailures failures).diagnose "ab").render "ab" := by
  have hperm : [(1, Expectation.named "x"), (0, .anyChar), (1, .charIn "x")].Perm
      [(1, .charIn "x"), (1, .named "x"), (0, .anyChar)] := by decide
  obtain ⟨-, -, -, -, -, hreports⟩ := diagnose_ofFailures
    [(1, .named "x"), (0, .anyChar), (1, .charIn "x")] "ab"
  obtain ⟨-, -, -, hrender⟩ := hreports _ hperm
  exact ⟨_, _, hperm, by decide, by decide, hrender⟩

end FurthestFailure

end PegScript

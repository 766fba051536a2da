import PegScript.JavaScript.Generate

/-!
# White space at the end of a statement

What stands before the last visible character of a text stays when the text is trimmed.  Nearly all
statements end in a semicolon or a brace, and lose nothing.
-/

namespace PegScript

namespace JavaScript

theorem trimEnd_append (t t' : String) :
    trimEnd (t ++ t') = if trimEnd t' = "" then trimEnd t else t ++ trimEnd t' := by
  unfold trimEnd
  rw [String.toList_append, List.reverse_append, List.dropWhile_append]
  by_cases hblank : t'.toList.reverse.dropWhile isWhiteSpace = []
  · simp [hblank]
  · simp [hblank, String.ofList_append]

/-- What is trimmed is white space. -/
theorem exists_append_blanks (t : String) :
    ∃ blanks : List Char, t.toList = (trimEnd t).toList ++ blanks ∧
      ∀ c ∈ blanks, isWhiteSpace c = true := by
  refine ⟨(t.toList.reverse.takeWhile isWhiteSpace).reverse, ?_, ?_⟩
  · rw [trimEnd, String.toList_ofList, ← List.reverse_append, List.takeWhile_append_dropWhile,
      List.reverse_reverse]
  · intro c hc
    exact List.all_eq_true.mp List.all_takeWhile c (List.mem_reverse.mp hc)

/-- The text ends in a visible character. -/
def Trimmed (text : String) : Prop :=
  text ≠ "" ∧ trimEnd text = text

instance (text : String) : Decidable (Trimmed text) :=
  inferInstanceAs (Decidable (text ≠ "" ∧ trimEnd text = text))

theorem Trimmed.append {s t : String} (h : Trimmed t) : Trimmed (s ++ t) := by
  constructor
  · intro hempty
    exact h.1 (String.append_eq_empty_iff.mp hempty).2
  · rw [trimEnd_append, h.2, if_neg h.1]

/-- Texts that end in a visible character stay as lowering has made them. -/
theorem generate_of_trimmed {program : Program} {g : Generated}
    (hrun : (Lower.inScope (stmtTexts program.body) {}).map (fun r => (r.1, r.2.helpers)) =
      .ok ((g.body, g.hoisted), g.helpers))
    (htexts : ∀ t ∈ g.body, Trimmed t) : generate program = .ok g := by
  have htrim : g.body.map trimEnd = g.body :=
    (List.map_congr_left fun t ht => (htexts t ht).2).trans (List.map_id g.body)
  change (Lower.inScope (stmtTexts program.body) {}).bind _ = _
  cases hscope : Lower.inScope (stmtTexts program.body) {} with
  | error d =>
      rw [hscope] at hrun
      cases hrun
  | ok r =>
      rw [hscope] at hrun
      obtain ⟨hlowered, hhelpers⟩ := Prod.mk.inj (Except.ok.inj hrun)
      change Except.ok (Generated.mk r.1.2 (r.1.1.map trimEnd) r.2.helpers) = _
      rw [hlowered, hhelpers, htrim]

end JavaScript

end PegScript

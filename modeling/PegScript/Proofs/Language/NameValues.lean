import PegScript.Proofs.Language.Tokens

/-!
# The values of names and numbers

What the rules for names and numbers read is a name or a number.  Unlike for other rules, this
depends on the characters of the source and not only on the values of the parts.
-/

namespace PegScript

namespace Language

variable {c : Cursor} {m : Reading Piece}

/-! ## Names -/

theorem ends_dropWhile (k : List Char) : Ends (k.dropWhile isNamePart) := by
  intro a ha
  have hhead := List.head?_dropWhile_not isNamePart k
  rw [Option.mem_def.mp ha] at hhead
  exact hhead

/-- A name that was read is the longest name at the place. -/
theorem exists_name_of_derives (h : Derives grammar Lexical.identifierName c (some m)) :
    ∃ (name : String) (k : List Char), isName name = true ∧ Ends k ∧
      c.rest = name.toList ++ k ∧ m.value = .text name := by
  have hfirst : ∃ a rest, c.rest = a :: rest ∧ isNameStart a = true := by
    cases h with
    | text hseq =>
      cases hseq with
      | seqCons hstart htail =>
        cases hstart with
        | rule hclass =>
            obtain ⟨a, rest, hrest, hmem, -⟩ := Derives.charIn_some_iff.mp hclass
            rw [contains_identStart] at hmem
            exact ⟨a, rest, hrest, hmem⟩
  obtain ⟨a, rest, hrest, ha⟩ := hfirst
  have hname : isName (String.ofList (a :: rest.takeWhile isNamePart)) = true := by
    simp [isName, ha, List.all_takeWhile]
  have hsplit : c.rest =
      (String.ofList (a :: rest.takeWhile isNamePart)).toList ++ rest.dropWhile isNamePart := by
    simp [hrest]
  have hread := (ends_dropWhile rest).reads_name hname c.offset (some m)
  rw [← hsplit] at hread
  have hvalue := congrArg Reading.value (Option.some.inj (hread h))
  exact ⟨_, _, hname, ends_dropWhile rest, hsplit, hvalue⟩

theorem gives_identifierName (h : Derives grammar (body .identifierName) c (some m)) :
    Gives .identifierName m.value := by
  obtain ⟨name, k, hname, -, -, hvalue⟩ := exists_name_of_derives h
  exact ⟨name, hname, hvalue.symm⟩

/-- Where no keyword can be read, the name there is none. -/
theorem isKeyword_eq_false {name : String} {k : List Char} (hk : Ends k)
    (h : Derives grammar (.rule .keyword) ⟨c.offset, name.toList ++ k⟩ none) :
    isKeyword name = false := by
  by_contra hword
  have hmem : name ∈ keywords := by
    simpa [isKeyword] using hword
  have hread : Reads grammar (.rule .keyword) name.toList k _ [] :=
    (hk.reads_words hmem (List.Subset.refl _)).rule
  cases hread _ _ h

/-- A name of a variable that was read is the longest name at the place, and no keyword. -/
theorem exists_variable_of_derives (h : Derives grammar (body .identifier) c (some m)) :
    ∃ (name : String) (k : List Char), isVariable name = true ∧ Ends k ∧
      c.rest = name.toList ++ k ∧ m.value = .text name := by
  cases h with
  | pick hseq =>
    cases hseq with
    | seqCons hnot hrest =>
      cases hnot with
      | not hkeyword =>
        cases hrest with
        | seqCons hread hnil =>
          cases hnil
          obtain ⟨name, k, hname, hk, hsplit, hvalue⟩ := exists_name_of_derives hread
          have hword : isKeyword name = false := by
            apply isKeyword_eq_false (c := c) hk
            rw [← hsplit]
            exact hkeyword
          refine ⟨name, k, by simp [isVariable, hname, hword], hk, hsplit, ?_⟩
          rw [hvalue]
          rfl

theorem gives_identifier (h : Derives grammar (body .identifier) c (some m)) :
    Gives .identifier m.value := by
  obtain ⟨name, k, hvariable, -, -, hvalue⟩ := exists_variable_of_derives h
  exact ⟨name, hvariable, hvalue.symm⟩

/-! ## Numbers -/

theorem quiet_of_numberForm (h : Derives grammar numberForm c (some m)) :
    Quiet (c.textTo m.stop) := by
  obtain ⟨cs, hrest, hoffset⟩ := h.reaches
  rw [Cursor.textTo_eq_ofList hrest hoffset]
  intro f hmem hf
  rw [String.toList_ofList] at hmem
  have hafter : f ∈ afterNumber := List.mem_append_right _ hf
  obtain ⟨ds, hrest', hds⟩ := h.avoids (numberRules_unaware hafter) numberForm_unaware
  have hsame : cs = ds := List.append_cancel_right (hrest.symm.trans hrest')
  rw [hsame] at hmem
  exact hds hmem

theorem gives_number (h : Derives grammar (body .number) c (some m)) : Gives .number m.value := by
  cases h with
  | action hform hact =>
    rw [buildNumber_apply] at hact
    split at hact
    case isFalse => cases hact
    case isTrue =>
      cases hact
      refine ⟨_, ?_, rfl⟩
      simpa using quiet_of_numberForm hform

end Language

end PegScript

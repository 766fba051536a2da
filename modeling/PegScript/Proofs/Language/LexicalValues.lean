import PegScript.Proofs.Language.Values

/-!
# The values of strings

The rules for strings keep what is known of their values.  For a string that needs the places as
well: its texts end where no character of a text can follow, so no text follows a text;
and a character of a text that does not end the source is a backslash with the character after it,
or a character that means nothing in a string.
-/

namespace PegScript

namespace Language

open Lexical

theorem keeps_rawString : Keeps .rawString := by
  simp [rawString, Term.noneOf]
  intro _
  refine Term.ensures_star_any (by simp) ?_
  simp [buildRawString]

/-! ## Characters of strings -/

/-- What a character of a string reads: a backslash and the character after it, or a character that
stands for itself. -/
inductive StringUnit : List Char → List Char → Prop where
  | escape (a : Char) (rest : List Char) : StringUnit ['\\', a] rest
  | plain {a : Char} {rest : List Char} (hquote : a ≠ '"') (hslash : a ≠ '\\')
      (hopen : ¬ (a = '#' ∧ rest.head? = some '\x7b')) : StringUnit [a] rest

/-- Where neither a backslash with a character nor the end of a text can be read, the next character
stands for itself. -/
theorem stringUnit_of_fails {c : Cursor} {a : Char} {rest : List Char}
    (hrest : c.rest = a :: rest) (hmore : rest ≠ [])
    (hslash : Derives grammar (.seq [.lit "\\", .anyChar]) c none)
    (hclosed : Derives grammar (.choice [.lit "\"", .lit "#\x7b"]) c none) :
    StringUnit [a] rest := by
  have hfails := Derives.choice_none_iff.mp hclosed
  refine .plain ?_ ?_ ?_
  · rintro rfl
    have hquote := Derives.lit_none_iff.mp (hfails (.lit "\"") (by simp))
    exact hquote ⟨rest, hrest.symm⟩
  · rintro rfl
    obtain ⟨b, rest', rfl⟩ := List.exists_cons_of_ne_nil hmore
    have hread : Derives grammar (.seq [.lit "\\", .anyChar]) c (some ⟨_, _, _⟩) :=
      .seqCons (Derives.lit_some_iff.mpr ⟨_, hrest, rfl⟩)
        (.seqCons (Derives.anyChar_some_iff.mpr ⟨b, rest', rfl, rfl⟩) .seqNil)
    cases hslash.functional hread
  · rintro ⟨rfl, hhead⟩
    obtain ⟨rest', rfl⟩ := List.head?_eq_some_iff.mp hhead
    have hopen := Derives.lit_none_iff.mp (hfails (.lit "#\x7b") (by simp))
    exact hopen ⟨rest', hrest.symm⟩

/-- A backslash stands alone only at the end of the source. -/
theorem stringChar_reads {c : Cursor} {m : Reading Piece}
    (h : Derives grammar (.rule .stringChar) c (some m)) :
    ∃ cs, cs ≠ [] ∧ c.rest = cs ++ m.stop.rest ∧
      m.stop.offset = c.offset + byteLength cs ∧
      (m.stop.rest ≠ [] → StringUnit cs m.stop.rest) := by
  cases h with
  | rule h =>
    cases h with
    | choiceHere h =>
        cases h with
        | seqCons hslash h =>
            obtain ⟨rest, hrest, rfl⟩ := Derives.lit_some_iff.mp hslash
            cases h with
            | seqCons hany h =>
                obtain ⟨a, rest', hrest', rfl⟩ := Derives.anyChar_some_iff.mp hany
                cases h
                refine ⟨['\\', a], by simp, ?_, ?_, fun _ => .escape a _⟩
                · rw [hrest]
                  simpa using hrest'
                · simp [Nat.add_assoc]
    | choiceLater hslash h =>
        cases h with
        | choiceLater hfail h => cases h
        | choiceHere h =>
            cases h with
            | seqCons hnot h =>
                cases hnot with
                | not hclosed =>
                    cases h with
                    | seqCons hany h =>
                        obtain ⟨a, rest, hrest, rfl⟩ := Derives.anyChar_some_iff.mp hany
                        cases h
                        refine ⟨[a], by simp, by simpa using hrest, by simp, fun hmore => ?_⟩
                        exact stringUnit_of_fails hrest hmore hslash hclosed

theorem StringUnit.append {cs ds rest : List Char} (hunit : StringUnit cs (ds ++ rest))
    (hds : IsStringText ds) : IsStringText (cs ++ ds) := by
  cases hunit with
  | escape a => exact .escape a hds
  | @plain a _ hquote hslash hopen =>
      have hopen' : ¬ (a = '#' ∧ ds.head? = some '\x7b') := by
        rintro ⟨ha, hhead⟩
        exact hopen ⟨ha, by simp [List.head?_append, hhead]⟩
      exact .plain hquote hslash hopen' hds

/-! ## Texts of strings -/

/-- Characters one after the other make up a text, and none can follow the last. -/
theorem stringChar_rounds {c stop : Cursor} {values : List (Value Piece)}
    {labels : List (String × Value Piece)}
    (h : Rounds grammar (.rule .stringChar) c stop values labels) :
    (∃ cs, c.rest = cs ++ stop.rest ∧ stop.offset = c.offset + byteLength cs ∧
      (stop.rest ≠ [] → IsStringText cs) ∧ (values ≠ [] → cs ≠ [])) ∧
    Derives grammar (.rule .stringChar) stop none := by
  induction h with
  | stop h => exact ⟨⟨[], by simp [IsStringText.nil]⟩, h⟩
  | empty h =>
      obtain ⟨cs, hne, hrest, -⟩ := stringChar_reads h
      exact absurd (List.self_eq_append_left.mp hrest) hne
  | more h hmoved hrest ih =>
      obtain ⟨cs, hne, hcs, hoffset, hunit⟩ := stringChar_reads h
      obtain ⟨⟨ds, hds, hoffset', htext, -⟩, hfail⟩ := ih
      refine ⟨⟨cs ++ ds, ?_, ?_, ?_, ?_⟩, hfail⟩
      · rw [hcs, hds, List.append_assoc]
      · rw [hoffset', hoffset, byteLength_append, Nat.add_assoc]
      · intro hstop
        rw [hds] at hunit
        exact (hunit (by simp [hstop])).append (htext hstop)
      · simp [hne]

/-- A text of a string stands between a place where a character can be read and one where none
can. -/
theorem stringText_reads {c : Cursor} {m : Reading Piece}
    (h : Derives grammar (.rule .stringText) c (some m)) :
    ∃ cs, m.value = .ofNode (StrPart.text (String.ofList cs)) ∧ cs ≠ [] ∧
      (m.stop.rest ≠ [] → IsStringText cs) ∧
      ¬ Derives grammar (.rule .stringChar) c none ∧
      Derives grammar (.rule .stringChar) m.stop none := by
  cases h with
  | rule h =>
    cases h with
    | action h hact =>
      cases hact
      cases h with
      | plus h =>
        obtain ⟨values, hvalues, hrounds⟩ := h.rounds
        cases hvalues
        obtain ⟨⟨cs, hrest, hoffset, htext, hne⟩, hfail⟩ := stringChar_rounds hrounds
        refine ⟨cs, ?_, hne (by simp), htext, ?_, hfail⟩
        · rw [Cursor.textTo_eq_ofList hrest hoffset]
          rfl
        · intro hfirst
          cases h.functional (.starStop hfirst)

/-! ## Parts of strings -/

/-- A part is an expression, or a text that stands between a place where a character can be read and
one where none can. -/
theorem stringPart_reads {c : Cursor} {m : Reading Piece}
    (h : Derives grammar (.rule .stringPart) c (some m)) :
    ∃ part : StrPart, m.value = .ofNode part ∧
      (part.isText = true →
        ¬ Derives grammar (.rule .stringChar) c none ∧
        Derives grammar (.rule .stringChar) m.stop none) ∧
      (m.stop.rest ≠ [] → ∀ s, part = .text s → s ≠ "" ∧ IsStringText s.toList) := by
  cases h with
  | rule h =>
    cases h with
    | choiceHere h =>
        cases h with
        | rule h =>
          have hvalue : interpolation.Ensures (fun _ _ => True)
              fun v _ => ∃ e, v = .ofNode (StrPart.expr e) := by
            simp [interpolation, buildInterpolation]
            intro _ e _
            exact ⟨e, rfl⟩
          obtain ⟨e, he⟩ := h.ensured hvalue
          exact ⟨.expr e, he, by simp [StrPart.isText], by simp⟩
    | choiceLater hfail h =>
        cases h with
        | choiceLater hfail h => cases h
        | choiceHere h =>
            obtain ⟨cs, hvalue, hne, htext, hfirst, hlast⟩ := stringText_reads h
            refine ⟨.text (String.ofList cs), hvalue, fun _ => ⟨hfirst, hlast⟩, ?_⟩
            rintro hmore s ⟨⟩
            exact ⟨by simpa using hne, by simpa using htext hmore⟩

/-- The parts of a string, up to a place that is not the end of the source.  Where no character of a
text can be read, the first part is not a text. -/
theorem stringPart_rounds {c stop : Cursor} {values : List (Value Piece)}
    {labels : List (String × Value Piece)}
    (h : Rounds grammar (.rule .stringPart) c stop values labels) (hstop : stop.rest ≠ []) :
    ∃ parts : List StrPart, .list values = Value.ofNodes (ν := Piece) parts ∧
      StringParts parts ∧
      (Derives grammar (.rule .stringChar) c none → ∀ p ∈ parts.head?, p.isText = false) := by
  induction h with
  | stop h => exact ⟨[], rfl, .nil, by simp⟩
  | empty h =>
      obtain ⟨part, hvalue, hplaces, htext⟩ := stringPart_reads h
      cases hvalue
      refine ⟨[part], rfl, StringParts.nil.cons (htext hstop) (by simp), ?_⟩
      rintro hfail p ⟨⟩
      exact Bool.eq_false_iff.mpr fun hhere => (hplaces hhere).1 hfail
  | @more _ _ m _ _ h hmoved hrest ih =>
      obtain ⟨part, hvalue, hplaces, htext⟩ := stringPart_reads h
      obtain ⟨parts, hvalues, hparts, hfirst⟩ := ih hstop
      have hmore : m.stop.rest ≠ [] := by
        obtain ⟨cs, hcs, -⟩ := hrest.reaches
        simp [hcs, hstop]
      cases hvalues
      refine ⟨part :: parts, ?_, hparts.cons (htext hmore) ?_, ?_⟩
      · rw [hvalue]
        rfl
      · intro hhere
        exact hfirst (hplaces hhere).2
      · rintro hfail p ⟨⟩
        exact Bool.eq_false_iff.mpr fun hhere => (hplaces hhere).1 hfail

theorem ensures_buildString {parts : List StrPart} {labels : List (String × Value Piece)}
    {v : Value Piece} {c stop : Cursor} :
    buildString.Ensures ⟨("parts", .ofNodes parts) :: labels, v, c, stop⟩
      fun w _ => w = .ofNode (Expr.str parts) := by
  simp [buildString]

/-- The parts of a string as a whole. -/
theorem string_reads {c : Cursor} {m : Reading Piece}
    (h : Derives grammar (body .string) c (some m)) :
    ∃ parts, m.value = .ofNode (Expr.str parts) ∧ StringParts parts := by
  cases h with
  | action h hact =>
    cases h with
    | seqCons hopen h =>
      cases hopen
      cases h with
      | seqCons hlabel h =>
        cases hlabel with
        | label hparts =>
          cases h with
          | seqCons hclose h =>
            cases h
            obtain ⟨rest, hrest, rfl⟩ := Derives.lit_some_iff.mp hclose
            obtain ⟨values, hvalues, hrounds⟩ := hparts.rounds
            obtain ⟨parts, hlist, hgood, -⟩ := stringPart_rounds hrounds fun hend => by
              simp [hend] at hrest
            refine ⟨parts, ?_, hgood⟩
            rw [hvalues, hlist] at hact
            exact ensures_buildString _ _ hact

theorem isStringText_of_plainText? {e : Expr} {text : String}
    (he : Sound e.pieces) (h : plainText? e = some text) : IsStringText text.toList := by
  unfold plainText? at h
  split at h
  · cases h
    exact .nil
  · cases h
    have hparts : StringParts [.text text] := by
      simpa using he
    exact (hparts.texts text List.mem_cons_self).2
  · cases h

/-! ## Rules for strings -/

theorem keeps_stringPart : Keeps .stringPart := by
  simp +contextual [stringPart]

theorem keeps_interpolation : Keeps .interpolation := by
  simp +contextual [interpolation, buildInterpolation]

theorem keeps_stringText : Keeps .stringText := by
  refine ⟨fun _ => True, fun v _ => ⟨trivial, rfl⟩, ?_⟩
  simp [buildStringText]

theorem keeps_plainString : Keeps .plainString := by
  simp [plainString, buildPlainString]
  intro e he text htext
  exact isStringText_of_plainText? he htext

/-- The parts of a string are sound one by one, and they fit together. -/
theorem gives_string {c : Cursor} {m : Reading Piece}
    (h : Derives grammar (body .string) c (some m))
    (hensured : ∀ P, (body .string).Ensures Gives P → P m.value m.labels) :
    Gives .string m.value := by
  have hparts : (body .string).Ensures Gives fun v _ => v.Holds fun e : Expr =>
      ∃ parts, e = .str parts ∧ ∀ p ∈ parts, Sound p.pieces := by
    simp [string]
    intro _
    refine Term.ensures_star (fun p : StrPart => Sound p.pieces) ?_ ?_
    · simp
    · intro parts hparts
      simpa [buildString] using hparts
  obtain ⟨_, ⟨parts, rfl, hsound⟩, hvalue⟩ := hensured _ hparts
  obtain ⟨parts', hvalue', hgood⟩ := string_reads h
  cases Value.ofNode_inj (hvalue.trans hvalue')
  refine ⟨.str parts, ?_, hvalue⟩
  simpa using ⟨hgood, hsound⟩

end Language

end PegScript

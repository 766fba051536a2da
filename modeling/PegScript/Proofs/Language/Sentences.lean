import PegScript.Proofs.Language.Precedence
import PegScript.Proofs.Semantics.Spans

/-!
# Reading an expression as a program

An expression with a semicolon behind it is a program.  The other kinds of statements start with
words that no expression starts with, except for assignments: an assignment starts with a target,
and what is read as a target has to be shown to have no assignment operator behind it.
-/

namespace PegScript

namespace Language

open Statement

variable {k u : List Char} {e : Expr}

/-! ## Statements that start with a word -/

theorem OpensExpr.refuses_statement (h : OpensExpr u) (hk : Ends k) :
    ∀ t ∈ [.rule .declaration, .rule .functionDeclaration, .rule .ifStatement,
      .rule .whileStatement, .rule .loopStatement, .rule .forStatement, .rule .returnStatement,
      .rule .breakStatement, .rule .continueStatement, .rule .throwStatement, .rule .tryStatement,
      .rule .guardStatement, .rule .importStatement, .rule .exportStatement],
      Refuses grammar t (u ++ k) := by
  have hword {w : String} (hw : w ∈ statementWords) : Refuses grammar (word w) (u ++ k) := by
    have hsub : statementWords ⊆ keywords := by decide
    exact h.refuses_word hk hw (hsub hw)
  have hkind : Refuses grammar (.choice [word "let", word "const"]) (u ++ k) :=
    (hword (by decide)).choice_cons ((hword (by decide)).choice_cons (refuses_choice (by simp)))
  have hasync := hword (w := "async") (by decide)
  have hfn := hword (w := "fn") (by decide)
  intro t ht
  simp only [List.mem_cons, List.not_mem_nil, or_false] at ht
  rcases ht with rfl | rfl | rfl | rfl | rfl | rfl | rfl | rfl | rfl | rfl | rfl | rfl | rfl | rfl
  · exact hkind.text.label.seq_head.action.rule
  · exact (Refuses.seq_tail (hasync.seq_head.opt.label "async") hfn.seq_head).action.rule
  · exact (hword (by decide)).seq_head.action.rule
  · exact (hword (by decide)).seq_head.action.rule
  · exact (hword (by decide)).seq_head.action.rule
  · exact (hword (by decide)).seq_head.action.rule
  · exact (hword (by decide)).seq_head.action.rule
  · exact (hword (by decide)).action.rule
  · exact (hword (by decide)).action.rule
  · exact (hword (by decide)).seq_head.action.rule
  · exact (hword (by decide)).seq_head.action.rule
  · have hguard := (hword (w := "guard") (by decide))
    exact (hguard.seq_head.action.choice_cons
      (hguard.seq_head.action.choice_cons (refuses_choice (by simp)))).rule
  · have himport := (hword (w := "import") (by decide))
    exact (himport.seq_head.action.choice_cons
      (himport.seq_head.action.choice_cons (refuses_choice (by simp)))).rule
  · have hexport := (hword (w := "export") (by decide))
    exact (hexport.seq_head.action.choice_cons
      (hexport.seq_head.action.choice_cons (refuses_choice (by simp)))).rule

/-! ## No assignment -/

theorem Calm.refuses_lit (h : Calm k) {text : String} (hbad : ¬ Calm text.toList) :
    Refuses grammar (.lit text) k :=
  PegScript.refuses_lit fun hpre => h.not_occurs hbad hpre.isInfix

/-- An equals sign behind anything but a comparison sign does not assign. -/
theorem refuses_assignOperator {x : Char} (hcalm : Calm (x :: k)) (hlt : x ≠ '<') (hgt : x ≠ '>') :
    Refuses grammar (.rule .assignOperator) k := by
  have hk : Calm k := hcalm.of_append (u := [x])
  have hplain : Refuses grammar (.lit "=") k := by
    apply PegScript.refuses_lit
    rintro ⟨rest, rfl⟩
    have hpair : Adjacent x '=' := (List.isChain_cons_cons.mp hcalm).1
    rcases hpair.2 rfl with h | h
    · exact hlt h
    · exact hgt h
  refine (refuses_choice ?_).rule
  intro t ht
  simp only [List.mem_cons, List.not_mem_nil, or_false] at ht
  rcases ht with rfl | rfl | rfl | rfl | rfl | rfl | rfl | rfl | rfl | rfl
  -- a compound operator has two signs side by side that a calm text keeps apart
  any_goals exact hk.refuses_lit (by decide)
  exact hplain.seq_head

theorem Calm.refuses_comment (h : Calm k) : Refuses grammar (.rule .comment) k := by
  have hline : Refuses grammar (.rule .lineComment) k := (h.refuses_lit (by decide)).seq_head.rule
  have hblock : Refuses grammar (.rule .blockComment) k := (h.refuses_lit (by decide)).seq_head.rule
  exact (hline.choice_cons (hblock.choice_cons (refuses_choice (by simp)))).rule

theorem Calm.blank_rounds {c stop : Cursor} {values : List (Value Piece)}
    {labels : List (String × Value Piece)} (hcalm : Calm c.rest)
    (h : Rounds grammar (.choice [.oneOf [(' ', ' '), ('\t', '\t')], .rule .comment]) c stop values
      labels) :
    ∃ cs, c.rest = cs ++ stop.rest ∧ ∀ a ∈ cs, a ∈ [' ', '\t'] := by
  induction h with
  | stop hfail | empty hread => exact ⟨[], rfl, by simp⟩
  | @more c stop m values labels hread hmoved hrest ih =>
      have hround : ∃ a, c.rest = a :: m.stop.rest ∧ a ∈ [' ', '\t'] := by
        cases hread with
        | choiceHere hclass =>
            obtain ⟨a, rest, hsource, hmem, rfl⟩ := Derives.charIn_some_iff.mp hclass
            rw [contains_blank, List.contains_iff_mem] at hmem
            exact ⟨a, hsource, hmem⟩
        | choiceLater hfail hcomment =>
            have hrefuses : Refuses grammar (.choice [.rule .comment]) c.rest :=
              hcalm.refuses_comment.choice_cons (refuses_choice (by simp))
            exact absurd hcomment hrefuses.not_reads
      obtain ⟨a, ha, hblank⟩ := hround
      rw [ha] at hcalm
      obtain ⟨cs, hcs, hblanks⟩ := ih (hcalm.of_append (u := [a]))
      refine ⟨a :: cs, ?_, ?_⟩
      · rw [ha, hcs, List.cons_append]
      · exact List.forall_mem_cons.mpr ⟨hblank, hblanks⟩

/-- A calm text has no comments, so a reading of blanks is one of blanks and tabulators. -/
theorem Calm.blank_reading {c : Cursor} {m : Reading Piece} (hcalm : Calm c.rest)
    (h : Derives grammar (.rule .blank) c (some m)) :
    ∃ cs, c.rest = cs ++ m.stop.rest ∧ ∀ a ∈ cs, a ∈ [' ', '\t'] := by
  cases h with
  | rule hbody =>
      obtain ⟨values, -, hrounds⟩ := Derives.rounds hbody
      exact hcalm.blank_rounds hrounds

/-- Behind a character other than a comparison sign, and blanks, comes no assignment. -/
theorem Calm.refuses_assignment {x : Char} {rest : List Body} (hcalm : Calm (x :: k))
    (hx : x ≠ '<' ∧ x ≠ '>') :
    Refuses grammar
      (.seq (.rule .blank :: .label "op" (.text (.rule .assignOperator)) :: rest)) k := by
  have hk : Calm k := hcalm.of_append (u := [x])
  refine refuses_of_not_reads ?_
  intro o m hread
  cases hread with
  | @seqCons _ _ _ stop first values labels hblank hrest =>
      obtain ⟨cs, hcs, hblanks⟩ := Calm.blank_reading (c := ⟨o, k⟩) hk hblank
      dsimp only at hcs
      have hplain : ∀ a ∈ x :: cs, a ≠ '<' ∧ a ≠ '>' := by
        have hblank : ∀ a ∈ [' ', '\t'], a ≠ '<' ∧ a ≠ '>' := by decide
        exact List.forall_mem_cons.mpr ⟨hx, fun a ha => hblank a (hblanks a ha)⟩
      obtain ⟨before, y, hy⟩ := List.eq_nil_or_concat (x :: cs) |>.resolve_left (by simp)
      rw [hcs, ← List.cons_append, hy, List.concat_eq_append, List.append_assoc] at hcalm
      have hlast := hplain y (by rw [hy]; simp)
      have hrefuses := refuses_assignOperator hcalm.of_append hlast.1 hlast.2
      exact hrefuses.text.label.seq_head.not_reads hrest

/-- What is read as a pattern for an array ends with a bracket. -/
theorem rest_of_arrayPattern {c : Cursor} {m : Reading Piece}
    (h : Derives grammar (.rule .arrayPattern) c (some m)) :
    ∃ before, c.rest = before ++ ("]".toList ++ m.stop.rest) := by
  cases h with
  | rule hbody =>
    cases hbody with
    | action hlabel hact =>
      cases hlabel with
      | label hpick =>
        cases hpick with
        | pick hseq =>
          obtain ⟨before, hbefore⟩ := Derives.rest_of_seq_lit [_, _, _, _, _] hseq
          exact ⟨before, hbefore⟩

/-- In front of a semicolon there is no assignment. -/
theorem Calm.refuses_assignment_semicolon {rest : List Body} (h : Calm (';' :: k)) :
    Refuses grammar
      (.seq (.rule .blank :: .label "op" (.text (.rule .assignOperator)) :: rest)) (';' :: k) :=
  Calm.refuses_assignment (x := ' ') (List.isChain_cons_cons.mpr ⟨by decide, h⟩) (by decide)

/-- Where a target ends there is no assignment, if operands end where the text `u` does. -/
theorem refuses_after_target {rest : List Body} (hopens : OpensExpr u)
    (hcalm : Calm (u ++ ';' :: k))
    (hoperand : (∃ v, Reads grammar (.rule .suffixed) u (';' :: k) v []) ∨
      Refuses grammar (.rule .suffixed) (u ++ ';' :: k))
    {o : Nat} {m : Reading Piece}
    (h : Derives grammar (.rule .assignTarget) ⟨o, u ++ ';' :: k⟩ (some m)) :
    Refuses grammar (.seq (.rule .blank :: .label "op" (.text (.rule .assignOperator)) :: rest))
      m.stop.rest := by
  have hobject : Refuses grammar (.rule .objectPattern) (u ++ ';' :: k) :=
    (hopens.refuses_lit rfl (by decide)).seq_head.pick.label.action.rule
  cases h with
  | rule hbody =>
    cases hbody with
    | choiceHere hread => exact absurd hread hobject.action.not_reads
    | choiceLater hfail hlater =>
      cases hlater with
      | choiceHere hread =>
        cases hread with
        | action harray hact =>
          obtain ⟨before, hbefore⟩ := rest_of_arrayPattern harray
          dsimp only at hbefore
          rw [hbefore] at hcalm
          exact Calm.refuses_assignment (x := ']') hcalm.of_append (by decide)
      | choiceLater hfail' hlast =>
        cases hlast with
        | choiceHere hread =>
          cases hread with
          | action hsuffixed hact =>
            rcases hoperand with ⟨v, hreads⟩ | hrefuses
            · cases hreads _ _ hsuffixed
              exact hcalm.of_append.refuses_assignment_semicolon
            · exact absurd hsuffixed hrefuses.not_reads
        | choiceLater hfail'' hnone => cases hnone

theorem refuses_assignment (hopens : OpensExpr u) (hcalm : Calm (u ++ ';' :: k))
    (hoperand : (∃ v, Reads grammar (.rule .suffixed) u (';' :: k) v []) ∨
      Refuses grammar (.rule .suffixed) (u ++ ';' :: k)) :
    Refuses grammar (.rule .assignment) (u ++ ';' :: k) := by
  refine Refuses.rule (Refuses.action (refuses_of_not_reads ?_))
  intro o m hread
  cases hread with
  | seqCons htarget hrest =>
    cases htarget with
    | label htarget =>
      exact (refuses_after_target hopens hcalm hoperand htarget).not_reads hrest

/-! ## Programs -/

/-- An expression in front of a semicolon is a statement. -/
theorem reads_statement (hopens : OpensExpr u) (hcalm : Calm (u ++ ';' :: k))
    (hexpr : Reads grammar (.rule .expression) u (';' :: k) (.ofNode e) [])
    (hoperand : (∃ v, Reads grammar (.rule .suffixed) u (';' :: k) v []) ∨
      Refuses grammar (.rule .suffixed) (u ++ ';' :: k)) :
    Reads grammar (.rule .statement) u (';' :: k) (.ofNode (Stmt.expr e)) [] := by
  have hends : Ends (';' :: k) := by simp [Ends, isNamePart]
  have hread : Reads grammar (.action buildExprStatement (.rule .expression)) u (';' :: k)
      (.ofNode (Stmt.expr e)) [] := hexpr.action fun c d _ => ⟨_, rfl⟩
  have hassign := refuses_assignment hopens hcalm hoperand
  exact ((hread.choice_here.choice_later hassign).choice_after
    (hopens.refuses_statement hends)).rule

/-- A program of one statement, where no other statement and only semicolons can follow. -/
theorem reads_program_of_statement {stmt : Stmt} (hsolid : solid (u ++ k) = true)
    (hend : solid k = true) (hstatement : Reads grammar (.rule .statement) u k (.ofNode stmt) [])
    (hmore : Refuses grammar (.pick 1 (.seq [.rule .separator, .rule .statement])) k)
    (hsemicolons : ∃ v, Reads grammar semicolons k [] v []) :
    Reads grammar (.rule .program) (u ++ k) [] (.ofNode (Program.mk [stmt])) [] := by
  have hlist : Reads grammar (.rule .statementList) u k (.ofNodes [stmt]) [] := by
    have hseq := (hstatement.label "head").seq_cons (hmore.star.label "tail").seq_last
    rw [List.append_nil] at hseq
    exact (hseq.action fun c d _ => ⟨_, rfl⟩).rule
  obtain ⟨v, hsemicolons⟩ := hsemicolons
  have hlast : Reads grammar (.rule .layout) [] (k ++ []) (.list []) [] := by
    rw [List.append_nil]
    exact reads_layout_nil hend
  rw [← List.append_nil k] at hlist
  have hbody := (hlist.opt.label "body").seq_cons (hlast.seq_cons hsemicolons.seq_last)
  have hlayout : Reads grammar (.rule .layout) [] (u ++ k ++ []) (.list []) [] := by
    rw [List.append_nil]
    exact reads_layout_nil hsolid
  exact ((hlayout.seq_cons hbody).action fun c d _ => ⟨_, rfl⟩).rule

/-- A program of one expression. -/
theorem reads_program (hopens : OpensExpr u) (hcalm : Calm (u ++ [';']))
    (hexpr : Reads grammar (.rule .expression) u [';'] (.ofNode e) [])
    (hoperand : (∃ v, Reads grammar (.rule .suffixed) u [';'] v []) ∨
      Refuses grammar (.rule .suffixed) (u ++ [';'])) :
    Reads grammar (.rule .program) (u ++ [';']) [] (.ofNode (Program.mk [.expr e])) [] :=
  reads_program_of_statement hopens.solid rfl (reads_statement hopens hcalm hexpr hoperand)
    (refuses_at_end [';'] (by decide +kernel)) (reads_at_end (p := [';']) (by decide +kernel))

/-- A parse of a text that is read as a program gives that program, unless too many rules become
active. -/
theorem parse_of_reads {text : String} {program : Program}
    (h : Reads grammar (.rule .program) text.toList [] (.ofNode program) []) (settings : Settings) :
    parse settings text = .ok program ∨
      ∃ offset, (grammar.parse settings text).session.overflow = some offset ∧
        parse settings text =
          .error ((({} : FurthestFailure).add offset .lessNesting).diagnose text) := by
  cases hover : (grammar.parse settings text).session.overflow with
  | some offset =>
      have houtcome : (grammar.parse settings text).outcome =
          .error ((({} : FurthestFailure).add offset .lessNesting).diagnose text) :=
        Grammar.outcome_of_overflow hover
      refine Or.inr ⟨offset, rfl, ?_⟩
      rw [parse, houtcome]
      rfl
  | none =>
      have houtcome : (grammar.parse settings text).outcome = .ok (.ofNode program) :=
        Grammar.parseFrom_eq_ok_of_reads h hover
      refine Or.inl ?_
      rw [parse, houtcome]
      rfl

end Language

end PegScript

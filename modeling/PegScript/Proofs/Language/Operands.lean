import PegScript.Proofs.Language.Tokens

/-!
# Reading operands

What stands between the operators of an expression: names, constants and numbers, bracketed
expressions, and what calls and member accesses make of them.  Each lemma says of a printed form
that the grammar reads it back, whatever follows it within what may follow it.

Two things have to be ruled out over and over.  A bracket might start the parameters of an arrow
function: printed expressions have no `=>`, which is part of what `Calm` says of a text.  And a name
might start with a word of the language: the first word of the text decides (`firstWord`).
-/

namespace PegScript

namespace Language

open Expression

variable {k u w : List Char} {e : Expr}

/-! ## Texts without arrows, comments and assignments -/

/-- Neighbours in a printed expression: an equals sign ends a comparison, a slash is a division. -/
def Adjacent (a b : Char) : Prop :=
  (a = '=' ∨ a = '/' → b = ' ') ∧ (b = '=' → a = '<' ∨ a = '>')

instance (a b : Char) : Decidable (Adjacent a b) :=
  inferInstanceAs (Decidable (_ ∧ _))

/-- All neighbours in the text are such neighbours. -/
def Calm (k : List Char) : Prop :=
  k.IsChain Adjacent

theorem Calm.of_append (h : Calm (u ++ k)) : Calm k :=
  List.IsChain.suffix h (List.suffix_append u k)

instance (k : List Char) : Decidable (Calm k) :=
  inferInstanceAs (Decidable (k.IsChain Adjacent))

theorem Calm.not_occurs (h : Calm k) {text : String} (hbad : ¬ Calm text.toList) :
    ¬ text.toList <:+: k := by
  intro hoccurs
  have hcalm : Calm text.toList := List.IsChain.infix h hoccurs
  exact hbad hcalm

theorem refuses_arrow (h : Calm k) : Refuses grammar (.rule .arrow) k := by
  have hno : ¬ "=>".toList <:+: k := h.not_occurs (by decide)
  exact (refuses_seq_of_lit_mem (by simp) hno).action.rule

/-! ## Starts of expressions -/

/-- How a printed form starts: with a character of names or one of the given characters, and, if no
name goes on behind it, with none of the given words. -/
structure Opens (heads : List Char) (words : List String) (u : List Char) : Prop where
  head : ∃ a ∈ u.head?, isNamePart a = true ∨ a ∈ heads
  firstWord_ne : ∀ k, Ends k → ∀ w ∈ words, firstWord (u ++ k) ≠ w.toList

theorem Opens.mono {heads heads' : List Char} {words words' : List String}
    (h : Opens heads words u) (hheads : heads ⊆ heads') (hwords : words' ⊆ words) :
    Opens heads' words' u := by
  obtain ⟨⟨a, ha, hhead⟩, hword⟩ := h
  refine ⟨⟨a, ha, ?_⟩, ?_⟩
  · exact hhead.imp_right fun hmem => hheads hmem
  · intro k hk w hw
    exact hword k hk w (hwords hw)

/-- What comes behind does not change how a text starts. -/
theorem Opens.append {heads : List Char} {words : List String} (h : Opens heads words u)
    (hw : ∀ k, Ends k → Ends (w ++ k)) : Opens heads words (u ++ w) := by
  obtain ⟨⟨a, ha, hhead⟩, hword⟩ := h
  refine ⟨⟨a, ?_, hhead⟩, ?_⟩
  · rw [List.head?_append, ha]
    rfl
  · intro k hk
    rw [List.append_assoc]
    exact hword (w ++ k) (hw k hk)

/-- A text that starts with none of the characters of names. -/
theorem opens_of_not_isNamePart {a : Char} {heads : List Char} {words : List String}
    (ha : isNamePart a = false) (hmem : a ∈ heads) (hwords : "" ∉ words) :
    Opens heads words (a :: u) := by
  refine ⟨⟨a, rfl, Or.inr hmem⟩, ?_⟩
  intro k _ w hw heq
  rw [List.cons_append, firstWord, List.takeWhile_cons, ha] at heq
  have hempty : w = "" := String.toList_eq_nil_iff.mp heq.symm
  exact hwords (hempty ▸ hw)

/-- A name that is none of the words. -/
theorem opens_of_isName {name : String} {heads : List Char} {words : List String}
    (hname : isName name = true) (hwords : name ∉ words) : Opens heads words name.toList := by
  have hparts := all_isNamePart_of_isName hname
  refine ⟨?_, ?_⟩
  · obtain ⟨a, as, htext, ha, -⟩ := exists_of_isName hname
    rw [htext]
    exact ⟨a, rfl, Or.inl (isNamePart_of_isNameStart ha)⟩
  · intro k hk w hw heq
    rw [hk.firstWord_append_eq hparts, String.toList_inj] at heq
    exact hwords (heq ▸ hw)

/-- The words that no printed expression starts with. -/
def statementWords : List String := [
  "async", "break", "const", "continue", "do", "export", "fn", "for", "guard", "if", "import",
  "let", "loop", "return", "throw", "try", "while", "yield"]

/-- How an operand starts that has no operator in front. -/
abbrev OpensOperand (u : List Char) : Prop :=
  Opens ['(', '['] (["await", "not", "typeof"] ++ statementWords) u

/-- How an expression starts. -/
abbrev OpensExpr (u : List Char) : Prop :=
  Opens ['(', '[', '!', '-', '+'] statementWords u

section Opens

variable {heads : List Char} {words : List String}

/-- A character that the text does not start with. -/
theorem Opens.head_ne (h : Opens heads words u) {c : Char}
    (hc : isNamePart c = false ∧ c ∉ heads) : ∀ a ∈ (u ++ k).head?, a ≠ c := by
  obtain ⟨⟨b, hb, hhead⟩, -⟩ := h
  intro a ha
  rw [List.head?_append, hb] at ha
  cases ha
  rintro rfl
  rcases hhead with hname | hmem
  · rw [hc.1] at hname
    cases hname
  · exact hc.2 hmem

theorem Opens.refuses_lit (h : Opens heads words u) {text : String} {c : Char} {cs : List Char}
    (htext : text.toList = c :: cs) (hc : isNamePart c = false ∧ c ∉ heads) :
    Refuses grammar (.lit text) (u ++ k) := by
  apply PegScript.refuses_lit
  rintro ⟨rest, hrest⟩
  rw [htext, List.cons_append] at hrest
  exact h.head_ne (k := k) hc c (by rw [← hrest]; rfl) rfl

theorem Opens.refuses_word (h : Opens heads words u) (hk : Ends k) {w : String}
    (hw : w ∈ words) (hkeyword : w ∈ keywords) : Refuses grammar (word w) (u ++ k) :=
  refuses_keyword hkeyword (h.firstWord_ne k hk w hw)

end Opens

theorem OpensExpr.solid (h : OpensExpr u) : solid (u ++ k) = true := by
  have hne : ∀ c ∈ [' ', '\t', '\n', '\r', '/'], ∀ a ∈ (u ++ k).head?, a ≠ c := by
    intro c hc
    have hbad : ∀ c ∈ [' ', '\t', '\n', '\r', '/'],
        isNamePart c = false ∧ c ∉ ['(', '[', '!', '-', '+'] := by
      decide
    exact h.head_ne (hbad c hc)
  generalize u ++ k = source at hne
  cases source with
  | nil => rfl
  | cons a source =>
    have hne' : ∀ c ∈ [' ', '\t', '\n', '\r', '/'], a ≠ c := fun c hc => hne c hc a rfl
    simp only [List.mem_cons, List.not_mem_nil, or_false, forall_eq_or_imp, forall_eq] at hne'
    simp [Language.solid, hne']

theorem OpensOperand.opensExpr (h : OpensOperand u) : OpensExpr u :=
  h.mono (by decide) (by decide)

/-! ## Names and constants -/

/-- The alternatives of an operand that start with a word, apart from constructors. -/
theorem OpensOperand.refuses_function (h : OpensOperand u) (hk : Ends k)
    (harrow : Refuses grammar (.rule .arrow) (u ++ k)) :
    ∀ t ∈ [.rule .arrow, .rule .functionExpression, .rule .doExpression],
      Refuses grammar t (u ++ k) := by
  have hasync := h.refuses_word hk (w := "async") (by decide) (by decide)
  have hfn := h.refuses_word hk (w := "fn") (by decide) (by decide)
  have hdo := h.refuses_word hk (w := "do") (by decide) (by decide)
  intro t ht
  simp only [List.mem_cons, List.not_mem_nil, or_false] at ht
  rcases ht with rfl | rfl | rfl
  · exact harrow
  · exact (Refuses.seq_tail (hasync.seq_head.opt.label "async") hfn.seq_head).action.rule
  · exact hdo.seq_head.action.rule

/-- The alternatives of an operand that start with a bracket or a quote. -/
theorem Opens.refuses_bracket {words : List String} (h : Opens [] words u) :
    ∀ t ∈ [.rule .parenthesized, .rule .array, .rule .object, .rule .string, .rule .rawString],
      Refuses grammar t (u ++ k) := by
  intro t ht
  simp only [List.mem_cons, List.not_mem_nil, or_false] at ht
  rcases ht with rfl | rfl | rfl | rfl | rfl
  · exact (h.refuses_lit rfl (by decide)).seq_head.pick.rule
  · exact (h.refuses_lit rfl (by decide)).seq_head.pick.label.action.rule
  · exact (h.refuses_lit rfl (by decide)).seq_head.pick.label.action.rule
  · exact (h.refuses_lit rfl (by decide)).seq_head.action.rule
  · exact (h.refuses_lit rfl (by decide)).seq_head.action.rule

/-- How numbers, constants and variables start. -/
abbrev OpensPlain (u : List Char) : Prop :=
  Opens [] ("new" :: ["await", "not", "typeof"] ++ statementWords) u

theorem OpensPlain.opensOperand (h : OpensPlain u) : OpensOperand u :=
  h.mono (by simp) (by simp)

/-- The alternatives of an operand that come before numbers. -/
theorem OpensPlain.refuses_before_number (h : OpensPlain u) (hk : Ends k)
    (harrow : Refuses grammar (.rule .arrow) (u ++ k)) :
    ∀ t ∈ [.rule .arrow, .rule .functionExpression, .rule .doExpression, .rule .newExpression,
      .rule .parenthesized, .rule .array, .rule .object], Refuses grammar t (u ++ k) := by
  have hfunction := h.opensOperand.refuses_function hk harrow
  have hbracket := h.refuses_bracket (k := k)
  have hnew := h.refuses_word hk (w := "new") (by decide) (by decide)
  intro t ht
  simp only [List.mem_cons, List.not_mem_nil, or_false] at ht
  rcases ht with rfl | rfl | rfl | rfl | rfl | rfl | rfl
  · exact hfunction _ (by simp)
  · exact hfunction _ (by simp)
  · exact hfunction _ (by simp)
  · exact hnew.seq_head.action.rule
  · exact hbracket _ (by simp)
  · exact hbracket _ (by simp)
  · exact hbracket _ (by simp)

theorem isDigit_of_isNameStart {a : Char} (h : isNameStart a = true) : a.isDigit = false := by
  have hall : ∀ i : Fin 128, isNameStart (Char.ofNat i) = true →
      (Char.ofNat i).isDigit = false := by
    decide
  have ha := hall ⟨a.toNat, toNat_lt_of_isNamePart (isNamePart_of_isNameStart h)⟩
  rw [Char.ofNat_toNat] at ha
  exact ha h

/-- The alternatives of an operand between numbers and constants, which no name starts. -/
theorem OpensPlain.refuses_before_literal {name : String} (h : OpensPlain name.toList)
    (hname : isName name = true) :
    ∀ t ∈ [.rule .number, .rule .string, .rule .rawString],
      Refuses grammar t (name.toList ++ k) := by
  have hbracket := h.refuses_bracket (k := k)
  have hnumber : Refuses grammar (.rule .number) (name.toList ++ k) := by
    obtain ⟨a, as, htext, ha, -⟩ := exists_of_isName hname
    apply refuses_number
    rw [htext]
    rintro b ⟨⟩
    exact isDigit_of_isNameStart ha
  intro t ht
  simp only [List.mem_cons, List.not_mem_nil, or_false] at ht
  rcases ht with rfl | rfl | rfl
  · exact hnumber
  · exact hbracket _ (by simp)
  · exact hbracket _ (by simp)

/-- A constant or a variable is read as an operand if it is read by the last two alternatives. -/
theorem OpensPlain.reads_primary {name : String} (h : OpensPlain name.toList)
    (hname : isName name = true) (hk : Ends k)
    (harrow : Refuses grammar (.rule .arrow) (name.toList ++ k))
    (hread : Reads grammar (.choice [.rule .literal, .action buildIdent (.rule .identifier)])
      name.toList k (.ofNode e) []) :
    Reads grammar (.rule .primary) name.toList k (.ofNode e) [] :=
  ((hread.choice_after (h.refuses_before_literal hname)).choice_after
    (h.refuses_before_number hk harrow)).rule

/-- The words for constants and for the current object. -/
def constantWords : List String :=
  ["true", "false", "null", "undefined", "this"]

theorem reads_primary_constant {w : String} (hw : w ∈ constantWords) (hk : Ends k)
    (hcalm : Calm (w.toList ++ k)) :
    Reads grammar (.rule .primary) w.toList k (.ofNode (constantOf w)) [] := by
  have hall : ∀ w ∈ constantWords, isName w = true ∧
      w ∉ "new" :: ["await", "not", "typeof"] ++ statementWords := by
    decide
  obtain ⟨hname, hwords⟩ := hall w hw
  have hopens : OpensPlain w.toList := opens_of_isName hname hwords
  have hliteral : Reads grammar (.rule .literal) w.toList k (.ofNode (constantOf w)) [] := by
    refine ((hk.reads_words hw (by decide)).text.action ?_).rule
    intro c d hmatched
    rw [String.ofList_toList] at hmatched
    rw [← hmatched]
    exact ⟨_, rfl⟩
  exact hopens.reads_primary hname hk (refuses_arrow hcalm) hliteral.choice_here

theorem reads_primary_ident {name : String} (hname : isName name = true)
    (hword : isKeyword name = false) (hk : Ends k)
    (harrow : Refuses grammar (.rule .arrow) (name.toList ++ k)) :
    Reads grammar (.rule .primary) name.toList k (.ofNode (Expr.ident name)) [] := by
  have hnot {words : List String} (hsub : words ⊆ keywords) : name ∉ words := by
    intro hmem
    simp [isKeyword, hsub hmem] at hword
  have hopens : OpensPlain name.toList := opens_of_isName hname (hnot (by decide))
  have hconstant : Opens [] constantWords name.toList := opens_of_isName hname (hnot (by decide))
  have hliteral : Refuses grammar (.rule .literal) (name.toList ++ k) :=
    (refuses_words (by decide) (hconstant.firstWord_ne k hk)).text.action.rule
  have hident : Reads grammar (.action buildIdent (.rule .identifier)) name.toList k
      (.ofNode (Expr.ident name)) [] :=
    (hk.reads_identifier hname hword).action fun c d _ => ⟨_, rfl⟩
  exact hopens.reads_primary hname hk harrow (hident.choice_here.choice_later hliteral)

/-! ## Lists of arguments and items -/

/-- A term that fails on the given characters fails whatever follows them. -/
theorem refuses_on {t : Body} (p : List Char)
    (h : (grammar.probe false 150 t p).isFails = true) : Refuses grammar t (p ++ k) :=
  refuses_of_probe (by simp) h

/-- A term that reads some of the given characters reads them whatever follows. -/
theorem reads_on {t : Body} {p u rest : List Char}
    (h : (grammar.probe false 150 t p).isReadingOf u rest = true) :
    ∃ v, Reads grammar t u (rest ++ k) v [] :=
  reads_of_probe (by simp) h

/-- The same at the end of the source. -/
theorem refuses_at_end {t : Body} (p : List Char)
    (h : (grammar.probe true 150 t p).isFails = true) : Refuses grammar t p := by
  have hrefuses : Refuses grammar t (p ++ []) := refuses_of_probe (fun _ => rfl) h
  rw [List.append_nil] at hrefuses
  exact hrefuses

theorem reads_at_end {t : Body} {p u : List Char}
    (h : (grammar.probe true 150 t p).isReadingOf u [] = true) :
    ∃ v, Reads grammar t u [] v [] :=
  reads_of_probe (fun _ => rfl) h

/-- The text goes on with the end of a bracket, of an item or of a statement. -/
def Closes (k : List Char) : Prop :=
  ∃ c ∈ [')', ']', ',', ';'], k.head? = some c

/-- A text that is read as an item of a list. -/
structure IsItem (text : List Char) (item : Element) : Prop where
  solid : ∀ k, solid (text ++ k) = true
  reads : ∀ k, Closes k → Calm (text ++ k) →
    Reads grammar (.rule .argument) text k (.ofNode item) []

theorem reads_comma (hk : solid k = true) :
    Reads grammar comma [',', ' '] k (.list [.list [], .text ",", .list [.text " "]]) [] := by
  have hcomma := (reads_lit ",").seq_cons (reads_layout_space hk).seq_last
  exact (reads_layout_nil rfl).seq_cons hcomma

/-- The items behind the first one, each with a comma in front. -/
def moreItems (texts : List (List Char)) : List Char :=
  texts.flatMap fun text => ',' :: ' ' :: text

theorem intercalate_cons_eq (text : List Char) (texts : List (List Char)) :
    [',', ' '].intercalate (text :: texts) = text ++ moreItems texts := by
  induction texts generalizing text with
  | nil => simp [moreItems]
  | cons text' texts ih =>
      rw [List.intercalate_cons_cons, ih]
      simp [moreItems]

theorem closes_moreItems {texts : List (List Char)} {c : Char} (hc : c ∈ [')', ']']) :
    Closes (moreItems texts ++ c :: k) := by
  have hsub : [')', ']'] ⊆ [')', ']', ',', ';'] := by decide
  cases texts with
  | nil => exact ⟨c, hsub hc, rfl⟩
  | cons text texts => exact ⟨',', by decide, rfl⟩

theorem solid_of_mem_closers {c : Char} (hc : c ∈ [')', ']']) : solid (c :: k) = true := by
  simp only [List.mem_cons, List.not_mem_nil, or_false] at hc
  rcases hc with rfl | rfl
  · rfl
  · rfl

theorem reads_moreItems {texts : List (List Char)} {items : List Element} {c : Char}
    (hitems : List.Forall₂ IsItem texts items) (hc : c ∈ [')', ']'])
    (hcalm : Calm (moreItems texts ++ c :: k)) :
    Reads grammar (.star (.pick 1 (.seq [comma, .rule .argument]))) (moreItems texts) (c :: k)
      (.ofNodes items) [] := by
  induction hitems with
  | nil =>
      have hstop : ∀ c ∈ [')', ']'], (grammar.probe false 150
          (.pick 1 (.seq [comma, .rule .argument])) [c]).isFails = true := by
        decide
      exact (refuses_on [c] (hstop c hc)).star
  | @cons text item texts items hitem hitems ih =>
      have hsplit : moreItems (text :: texts) = ([',', ' '] ++ text) ++ moreItems texts := rfl
      rw [hsplit, List.append_assoc, List.append_assoc] at hcalm
      have hread := (hitem.reads _ (closes_moreItems hc) hcalm.of_append).seq_last
      have hround := (reads_comma (hitem.solid (moreItems texts ++ c :: k))).seq_cons hread
      exact (hround.pick 1).star_cons (by simp) (ih hcalm.of_append.of_append)

/-- The end of a list. -/
theorem reads_listEnd {closing : String} {c : Char} (hclosing : closing.toList = [c])
    (hc : c ∈ [')', ']']) :
    Reads grammar (.seq [.opt (.seq [.rule .layout, .lit ","]), .rule .layout, .lit closing]) [c] k
      (.list [.absent, .list [], .text closing]) [] := by
  have hstop : ∀ c ∈ [')', ']'],
      (grammar.probe false 150 (.seq [.rule .layout, .lit ","]) [c]).isFails = true := by
    decide
  have hlast := (reads_lit (g := grammar) (k := k) closing).seq_last
  rw [hclosing] at hlast
  have hlayout := reads_layout_nil (solid_of_mem_closers (k := k) hc)
  exact (refuses_on [c] (hstop c hc)).opt.seq_cons (hlayout.seq_cons hlast)

/-- Items between brackets, with commas between them. -/
def bracketed (o c : Char) (texts : List (List Char)) : List Char :=
  [o] ++ ([',', ' '].intercalate texts ++ [c])

theorem reads_listOf {opening closing : String} {o c : Char} (hopening : opening.toList = [o])
    (hclosing : closing.toList = [c]) (hc : c ∈ [')', ']']) {texts : List (List Char)}
    {items : List Element} (hitems : List.Forall₂ IsItem texts items)
    (hcalm : Calm (bracketed o c texts ++ k)) :
    ∃ v, v.toNodes? = some items ∧
      Reads grammar (listOf .argument opening closing) (bracketed o c texts) k v [] := by
  unfold bracketed at hcalm ⊢
  have hend := reads_listEnd (k := k) hclosing hc
  have hopen (k : List Char) : Reads grammar (.lit opening) [o] k (.text opening) [] := by
    rw [← hopening]
    exact reads_lit opening
  cases hitems with
  | nil =>
      have hnone : ∀ c ∈ [')', ']'],
          (grammar.probe false 150 (.separated .argument comma) [c]).isFails = true := by
        decide +kernel
      have hlist := (refuses_on (k := k) [c] (hnone c hc)).opt.seq_cons hend
      have hlayout := reads_layout_nil (solid_of_mem_closers (k := k) hc)
      have hseq := (hopen _).seq_cons (hlayout.seq_cons hlist)
      exact ⟨.absent, rfl, hseq.pick 2⟩
  | @cons text item texts items hitem hitems =>
      rw [intercalate_cons_eq] at hcalm ⊢
      have hrest : Calm (text ++ (moreItems texts ++ c :: k)) := by
        simp only [List.append_assoc] at hcalm
        exact hcalm.of_append
      have hhead := (hitem.reads _ (closes_moreItems hc) hrest).label "head"
      have htail := (reads_moreItems hitems hc hrest.of_append).label "tail"
      have hseq : Reads grammar (.separated .argument comma) (text ++ moreItems texts) ([c] ++ k)
          (.ofNodes (item :: items)) [] :=
        (hhead.seq_cons htail.seq_last).action fun c d _ => ⟨_, rfl⟩
      have hlist := hseq.opt.seq_cons hend
      have hlayout : Reads grammar (.rule .layout) [] (text ++ moreItems texts ++ [c] ++ k)
          (.list []) [] := by
        apply reads_layout_nil
        simp only [List.append_assoc]
        exact hitem.solid _
      have hseq := (hopen _).seq_cons (hlayout.seq_cons hlist)
      refine ⟨.ofNodes (item :: items), Value.toNodes?_ofNodes _, ?_⟩
      exact hseq.pick 2

/-- A text that is read as an expression in front of what closes one. -/
structure IsExpr (u : List Char) (e : Expr) : Prop where
  opens : OpensExpr u
  reads : ∀ k, Closes k → Calm (u ++ k) → Reads grammar (.rule .expression) u k (.ofNode e) []

theorem IsExpr.item (h : IsExpr u e) : IsItem u (.expr e) := by
  refine ⟨fun k => h.opens.solid, ?_⟩
  intro k hk hcalm
  have hspread : Refuses grammar (.action buildSpreadElement spread) (u ++ k) :=
    (h.opens.refuses_lit rfl (by decide)).seq_head.action
  have hread : Reads grammar (.action buildElement (.rule .expression)) u k
      (.ofNode (Element.expr e)) [] :=
    (h.reads k hk hcalm).action fun c d _ => ⟨_, rfl⟩
  exact (hread.choice_here.choice_later hspread).rule

theorem IsExpr.spread (h : IsExpr u e) : IsItem ("...".toList ++ u) (.spread e) := by
  refine ⟨fun k => rfl, ?_⟩
  intro k hk hcalm
  rw [List.append_assoc] at hcalm
  have hexpr := ((h.reads k hk hcalm.of_append).label "expr").seq_last
  have hlayout := reads_layout_nil (h.opens.solid (k := k))
  have hread := (reads_lit "...").seq_cons (hlayout.seq_cons hexpr)
  exact (hread.action fun c d _ => ⟨_, rfl⟩).choice_here.rule

/-! ## Brackets and constructors -/

/-- A text that is read as an operand without suffixes, wherever no name goes on behind it. -/
structure IsPrimary (u : List Char) (e : Expr) : Prop where
  opens : OpensOperand u
  reads : ∀ k, Ends k → Calm (u ++ k) → Reads grammar (.rule .primary) u k (.ofNode e) []

theorem isPrimary_constant {w : String} (hw : w ∈ constantWords) :
    IsPrimary w.toList (constantOf w) := by
  have hall : ∀ w ∈ constantWords, isName w = true ∧
      w ∉ ["await", "not", "typeof"] ++ statementWords := by
    decide
  exact ⟨opens_of_isName (hall w hw).1 (hall w hw).2, fun k => reads_primary_constant hw⟩

theorem isPrimary_ident {name : String} (hname : isName name = true)
    (hword : isKeyword name = false) : IsPrimary name.toList (.ident name) := by
  refine ⟨opens_of_isName hname ?_, fun k hk hcalm =>
    reads_primary_ident hname hword hk (refuses_arrow hcalm)⟩
  intro hmem
  have hsub : ["await", "not", "typeof"] ++ statementWords ⊆ keywords := by decide
  simp [isKeyword, hsub hmem] at hword

/-- The alternatives before bracketed operands. -/
theorem refuses_before_bracket {a : Char} (ha : a ∈ ['(', '[']) (hk : Ends k)
    (hcalm : Calm (a :: u ++ k)) :
    ∀ t ∈ [.rule .arrow, .rule .functionExpression, .rule .doExpression, .rule .newExpression],
      Refuses grammar t (a :: u ++ k) := by
  have hname : ∀ a ∈ ['(', '['], isNamePart a = false := by decide
  have hopens : OpensOperand (a :: u) := opens_of_not_isNamePart (hname a ha) ha (by decide)
  have hnew : Opens ['(', '['] ["new"] (a :: u) :=
    opens_of_not_isNamePart (hname a ha) ha (by decide)
  have hfunction := hopens.refuses_function hk (refuses_arrow hcalm)
  have hword := hnew.refuses_word hk (w := "new") (by decide) (by decide)
  intro t ht
  simp only [List.mem_cons, List.not_mem_nil, or_false] at ht
  rcases ht with rfl | rfl | rfl | rfl
  · exact hfunction _ (by simp)
  · exact hfunction _ (by simp)
  · exact hfunction _ (by simp)
  · exact hword.seq_head.action.rule

/-- An expression in parentheses. -/
theorem isPrimary_parens (hopens : OpensExpr u)
    (hread : ∀ k, Calm (u ++ ')' :: k) →
      Reads grammar (.rule .expression) u (')' :: k) (.ofNode e) []) :
    IsPrimary ('(' :: u ++ [')']) e := by
  refine ⟨opens_of_not_isNamePart (by decide) (by decide) (by decide), ?_⟩
  intro k hk hcalm
  have hfirst := refuses_before_bracket (by decide) hk hcalm
  have hinner : Calm (u ++ ')' :: k) := by
    have hsplit : '(' :: u ++ [')'] ++ k = ['('] ++ (u ++ ')' :: k) := by simp
    rw [hsplit] at hcalm
    exact hcalm.of_append
  have hclose := (reads_layout_nil (k := ')' :: k) rfl).seq_cons (reads_lit ")").seq_last
  have hrest := (hread k hinner).seq_cons hclose
  have hlayout : Reads grammar (.rule .layout) [] (u ++ [')'] ++ k) (.list []) [] := by
    apply reads_layout_nil
    rw [List.append_assoc]
    exact hopens.solid
  have hparens := (reads_lit "(").seq_cons (hlayout.seq_cons hrest)
  exact ((hparens.pick 2).rule.choice_here.choice_after hfirst).rule

theorem reads_items {texts : List (List Char)} {items : List Element}
    (hitems : List.Forall₂ IsItem texts items) (hcalm : Calm (bracketed '[' ']' texts ++ k)) :
    ∃ v, v.toNodes? = some items ∧
      Reads grammar (listOf .argument "[" "]") (bracketed '[' ']' texts) k v [] :=
  reads_listOf rfl rfl (by decide) hitems hcalm

theorem isPrimary_array {texts : List (List Char)} {items : List Element}
    (hitems : List.Forall₂ IsItem texts items) :
    IsPrimary (bracketed '[' ']' texts) (.array items) := by
  refine ⟨opens_of_not_isNamePart (by decide) (by decide) (by decide), ?_⟩
  intro k hk hcalm
  have hfirst := refuses_before_bracket (a := '[') (by decide) hk hcalm
  have hparens : Refuses grammar (.rule .parenthesized) (bracketed '[' ']' texts ++ k) := by
    rw [bracketed, List.append_assoc]
    exact refuses_on ['['] (by decide)
  obtain ⟨v, hv, hlist⟩ := reads_items hitems hcalm
  have harray : Reads grammar (.rule .array) _ k (.ofNode (Expr.array items)) [] :=
    ((hlist.label "items").action fun c d _ =>
      ActionM.exists_bind_eq_some (ActionM.nodes_eq_some "items" hv) ⟨_, rfl⟩).rule
  exact ((harray.choice_here.choice_later hparens).choice_after hfirst).rule

/-! ## Suffixes -/

/-- An operand and its suffixes, which are read by the rule `x`. -/
def chainOf (x : Symbol) : Body :=
  .action buildSuffixed <| .seq [
    .label "head" (.rule .primary),
    .label "tail" (.star (.rule x))]

/-- A text that starts a chain of suffixes: whichever suffixes go on behind it, the whole is read
with `e` at its head. -/
structure StartsChain (x : Symbol) (u : List Char) (e : Expr) : Prop where
  opens : OpensOperand u
  reads : ∀ w k tail, Ends (w ++ k) → Calm (u ++ (w ++ k)) →
    Reads grammar (.star (.rule x)) w k (.ofNodes tail) [] →
    Reads grammar (chainOf x) (u ++ w) k (.ofNode (tail.foldl applySuffix e)) []

theorem IsPrimary.startsChain (h : IsPrimary u e) (x : Symbol) : StartsChain x u e := by
  refine ⟨h.opens, ?_⟩
  intro w k tail hk hcalm htail
  have hhead := (h.reads (w ++ k) hk hcalm).label "head"
  have hchain := hhead.seq_cons (htail.label "tail").seq_last
  refine hchain.action fun c d _ => ActionM.exists_bind_eq_some rfl ?_
  have hnodes := Value.toNodes?_ofNodes (ν := Piece) tail
  exact ActionM.exists_bind_eq_some (ActionM.nodes_eq_some "tail" hnodes) ⟨_, rfl⟩

/-- A text that is read as one suffix by the rule `x`. -/
structure IsSuffix (x : Symbol) (s : List Char) (suffix : Suffix) : Prop where
  ends : ∀ k, Ends (s ++ k)
  ne_nil : s ≠ []
  reads : ∀ k, Ends k → Calm (s ++ k) → Reads grammar (.rule x) s k (.ofNode suffix) []

theorem StartsChain.append {x : Symbol} {s : List Char} {suffix : Suffix}
    (h : StartsChain x u e) (hs : IsSuffix x s suffix) :
    StartsChain x (u ++ s) (applySuffix e suffix) := by
  refine ⟨h.opens.append fun k _ => hs.ends k, ?_⟩
  intro w k tail hk hcalm htail
  rw [List.append_assoc] at hcalm ⊢
  have hnext := hs.reads (w ++ k) hk hcalm.of_append
  have hmore : Reads grammar (.star (.rule x)) (s ++ w) k (.ofNodes (suffix :: tail)) [] :=
    hnext.star_cons hs.ne_nil htail
  rw [← List.append_assoc s w k] at hcalm
  have hends : Ends (s ++ w ++ k) := by
    rw [List.append_assoc]
    exact hs.ends (w ++ k)
  exact h.reads (s ++ w) k (suffix :: tail) hends hcalm hmore

theorem StartsChain.reads_end {x : Symbol} (h : StartsChain x u e) (hk : Ends k)
    (hcalm : Calm (u ++ k)) (hstop : Refuses grammar (.rule x) k) :
    Reads grammar (chainOf x) u k (.ofNode e) [] := by
  have hread := h.reads [] k [] hk hcalm hstop.star
  rw [List.append_nil] at hread
  exact hread

section Suffixes

variable {texts : List (List Char)} {items : List Element} {name : String}

theorem reads_arguments (hitems : List.Forall₂ IsItem texts items)
    (hcalm : Calm (bracketed '(' ')' texts ++ k)) :
    ∃ v, v.toNodes? = some items ∧
      Reads grammar (listOf .argument "(" ")") (bracketed '(' ')' texts) k v [] :=
  reads_listOf rfl rfl (by decide) hitems hcalm

theorem ends_bracketed {c : Char} : Ends (bracketed '(' c texts ++ k) := by
  simp [bracketed, Ends, isNamePart]

theorem isSuffix_call (hitems : List.Forall₂ IsItem texts items) :
    IsSuffix .suffix (bracketed '(' ')' texts) (.call items false) := by
  refine ⟨fun k => ends_bracketed, by simp [bracketed], ?_⟩
  intro k hk hcalm
  obtain ⟨v, hv, hlist⟩ := reads_arguments hitems hcalm
  have hcall : Reads grammar (.rule .call) _ k (.ofNode (Suffix.call items false)) [] :=
    ((hlist.label "args").action fun c d _ =>
      ActionM.exists_bind_eq_some (ActionM.nodes_eq_some "args" hv) ⟨_, rfl⟩).rule
  exact hcall.choice_here.rule

theorem isSuffix_optionalCall (hitems : List.Forall₂ IsItem texts items) :
    IsSuffix .suffix ("?.".toList ++ bracketed '(' ')' texts) (.call items true) := by
  refine ⟨fun k => by simp [Ends, isNamePart], by simp, ?_⟩
  intro k hk hcalm
  have hcall : Refuses grammar (.rule .call) ("?.".toList ++ bracketed '(' ')' texts ++ k) := by
    rw [List.append_assoc]
    exact refuses_on "?.".toList (by decide)
  rw [List.append_assoc] at hcalm
  obtain ⟨v, hv, hlist⟩ := reads_arguments hitems hcalm.of_append
  have hread := (reads_lit "?.").seq_cons (hlist.label "args").seq_last
  have hoptional : Reads grammar (.rule .optionalCall) _ k (.ofNode (Suffix.call items true)) [] :=
    (hread.action fun c d _ =>
      ActionM.exists_bind_eq_some (ActionM.nodes_eq_some "args" hv) ⟨_, rfl⟩).rule
  exact (hoptional.choice_here.choice_later hcall).rule

/-- A name does not start with a bracket or a dot. -/
theorem refuses_lit_of_isName (hname : isName name = true) (text : String) {c : Char}
    {cs : List Char} (htext : text.toList = c :: cs) (hc : isNamePart c = false) :
    Refuses grammar (.lit text) (name.toList ++ k) := by
  have hopens : Opens [] [] name.toList := opens_of_isName hname (by simp)
  exact hopens.refuses_lit htext ⟨hc, by simp⟩

theorem isSuffix_member (hname : isName name = true) :
    IsSuffix .member (".".toList ++ name.toList) (.member name false) := by
  refine ⟨fun k => by simp [Ends, isNamePart], by simp, ?_⟩
  intro k hk hcalm
  have hproperty := ((hk.reads_identifierName hname).label "property").seq_last
  have hnot := (refuses_lit_of_isName (k := k) hname "." rfl (by decide)).not
  have hdot := (reads_lit ".").seq_cons (hnot.seq_cons hproperty)
  have hlayout := reads_layout_nil (k := ".".toList ++ name.toList ++ k) rfl
  exact ((hlayout.seq_cons hdot).action fun c d _ => ⟨_, rfl⟩).rule

theorem isSuffix_plainMember (hname : isName name = true) :
    IsSuffix .suffix (".".toList ++ name.toList) (.member name false) := by
  have hmember := isSuffix_member hname
  refine ⟨hmember.ends, hmember.ne_nil, ?_⟩
  intro k hk hcalm
  have hfirst : ∀ t ∈ [.rule .call, .rule .optionalCall, .rule .optionalMember],
      Refuses grammar t (".".toList ++ name.toList ++ k) := by
    have hprobe : ∀ r ∈ [Symbol.call, .optionalCall, .optionalMember],
        (grammar.probe false 150 (.rule r) ".".toList).isFails = true := by
      decide
    rw [List.append_assoc]
    simpa using fun r hr => refuses_on (k := name.toList ++ k) ".".toList (hprobe r hr)
  exact ((hmember.reads k hk hcalm).choice_here.choice_after hfirst).rule

theorem isSuffix_optionalMember (hname : isName name = true) :
    IsSuffix .suffix ("?.".toList ++ name.toList) (.member name true) := by
  refine ⟨fun k => by simp [Ends, isNamePart], by simp, ?_⟩
  intro k hk hcalm
  have hcall : Refuses grammar (.rule .call) ("?.".toList ++ name.toList ++ k) := by
    rw [List.append_assoc]
    exact refuses_on "?.".toList (by decide)
  have hoptional : Refuses grammar (.rule .optionalCall) ("?.".toList ++ name.toList ++ k) := by
    rw [List.append_assoc]
    have hopening := refuses_lit_of_isName (k := k) hname "(" rfl (by decide)
    exact (Refuses.seq_tail (reads_lit "?.") hopening.seq_head.pick.label.seq_head).action.rule
  have hproperty := ((hk.reads_identifierName hname).label "property").seq_last
  have hmark := (reads_lit "?.").seq_cons hproperty
  have hlayout := reads_layout_nil (k := "?.".toList ++ name.toList ++ k) rfl
  have hmember : Reads grammar (.rule .optionalMember) ("?.".toList ++ name.toList) k
      (.ofNode (Suffix.member name true)) [] :=
    ((hlayout.seq_cons hmark).action fun c d _ => ⟨_, rfl⟩).rule
  exact ((hmember.choice_here.choice_later hoptional).choice_later hcall).rule

/-- A constructor call: what it constructs is a chain of members. -/
theorem isPrimary_new (hcallee : StartsChain .member u e)
    (hitems : List.Forall₂ IsItem texts items) :
    IsPrimary ("new".toList ++ ([' '] ++ (u ++ bracketed '(' ')' texts))) (.new e items) := by
  have hopens : OpensOperand "new".toList := opens_of_isName (by decide) (by decide)
  have hends (k : List Char) : Ends ([' '] ++ (u ++ bracketed '(' ')' texts) ++ k) := by
    simp [Ends, isNamePart]
  have hwhole : OpensOperand ("new".toList ++ ([' '] ++ (u ++ bracketed '(' ')' texts))) :=
    hopens.append fun k _ => hends k
  refine ⟨hwhole, ?_⟩
  intro k hk hcalm
  have hfirst := hwhole.refuses_function hk (refuses_arrow hcalm)
  simp only [List.append_assoc] at hcalm
  -- The chain ends at the arguments, since no member starts with a bracket.
  have hstop : Refuses grammar (.rule .member) (bracketed '(' ')' texts ++ k) := by
    rw [bracketed, List.append_assoc]
    exact refuses_on ['('] (by decide)
  have hread : Reads grammar (.rule .newCallee) u (bracketed '(' ')' texts ++ k) (.ofNode e) [] :=
    (hcallee.reads_end ends_bracketed hcalm.of_append.of_append hstop).rule
  obtain ⟨v, hv, hlist⟩ := reads_arguments hitems hcalm.of_append.of_append.of_append
  have hrest := (hread.label "callee").seq_cons (hlist.opt.label "args").seq_last
  have hsolid : solid (u ++ bracketed '(' ')' texts ++ k) = true := by
    rw [List.append_assoc]
    exact hcallee.opens.opensExpr.solid
  have hnew := ((hends k).reads_word "new").seq_cons ((reads_blank_space hsolid).seq_cons hrest)
  have haccept (value : Value Piece) (c d : Cursor) :
      ∃ left, buildNew ⟨[("args", v), ("callee", .ofNode e)], value, c, d⟩ =
        some (.ofNode (Expr.new e items), left) := by
    refine ActionM.exists_bind_eq_some rfl ?_
    exact ActionM.exists_bind_eq_some (ActionM.nodes_eq_some "args" hv) ⟨_, rfl⟩
  have hprimary := (hnew.action fun c d _ => haccept _ c d).rule (r := Symbol.newExpression)
  exact (hprimary.choice_here.choice_after hfirst).rule

end Suffixes

end Language

end PegScript

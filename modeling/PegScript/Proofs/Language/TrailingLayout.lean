import PegScript.Proofs.Language.Sentences
import PegScript.Proofs.Language.WellFormed
import PegScript.Proofs.Semantics.ListedTable
import PegScript.Proofs.Semantics.Outlook

/-!
# Layout at the end of a source

Blanks and line breaks behind a program do not change it.  They do change what rules make of the end
of the source: a line comment goes on, a separator is met where there was none, a carriage return
gets a line feed, a string that is not closed gets longer.  The outlook of nearly every rule is
still that its outcomes are stable; the few rules with another outlook are looked at one by one.
-/

namespace PegScript

namespace Language

open Lexical Statement

variable {c c' : Cursor} {d d' : Option (Reading Piece)} {m m' : Reading Piece} {k w : List Char}

/-- The characters of layout outside of comments. -/
def layoutChars : List Char :=
  [' ', '\t', '\n', '\r']

/-- No action of the language uses the offsets of its match. -/
theorem placeless_body (r : Symbol) :
    (grammar.rule r).body.Accounted fun act _ => act.Placeless := by
  cases r <;> repeat' first
    | exact trivial
    | infer_instance
    | refine And.intro ?_ ?_
    -- A definition has to be opened for its first operation to be seen.
    | refine ActionM.Placeless.bind inferInstance fun _ => ?_
    | exact inferInstanceAs (ActionM.produce _).Placeless

/-- Terms that refer to no rule need nothing to be known of the rules. -/
theorem sound_unknown : Outlook.Sound grammar layoutChars fun _ => {} where
  placeless := placeless_body
  backed _ := rfl
  edge := nofun
  trailing := nofun

/-! ## Line breaks -/

theorem reads_newline_feed :
    Reads grammar (.rule .newline) ['\n'] k (.text "\n") [] :=
  ((reads_lit "\n").choice_here.choice_later (refuses_lit (by simp))).rule

theorem reads_newline_pair :
    Reads grammar (.rule .newline) ['\r', '\n'] k (.text "\r\n") [] :=
  (reads_lit "\r\n").choice_here.rule

theorem reads_newline_return (hk : k.head? ≠ some '\n') :
    Reads grammar (.rule .newline) ['\r'] k (.text "\r") [] := by
  have hpair : Refuses grammar (.lit "\r\n") ('\r' :: k) := by
    refine refuses_lit ?_
    rintro ⟨rest, hrest⟩
    cases hrest
    exact hk rfl
  exact (((reads_lit "\r").choice_here.choice_later (refuses_lit (by simp))).choice_later
    hpair).rule

theorem refuses_newline {a : Char} (hfeed : a ≠ '\n') (hreturn : a ≠ '\r') :
    Refuses grammar (.rule .newline) (a :: k) := by
  have hlit {text : String} {b : Char} {bs : List Char} (htext : text.toList = b :: bs)
      (hne : a ≠ b) : Refuses grammar (.lit text) (a :: k) := by
    refine refuses_lit ?_
    rw [htext]
    rintro ⟨rest, hrest⟩
    cases hrest
    exact hne rfl
  exact ((hlit rfl hreturn).choice_cons ((hlit rfl hfeed).choice_cons
    ((hlit rfl hreturn).choice_cons (refuses_choice (by simp))))).rule

/-- Before the end of the source a line break is found as before, but that a carriage return at the
very end may get a line feed. -/
theorem stable_newline (hinside : c.rest ≠ []) (h : Derives grammar (.rule .newline) c d) :
    Stable grammar layoutChars false (.rule .newline) c d := by
  intro w c' d' hpad h'
  obtain ⟨offset, rest⟩ := c
  obtain ⟨offset', rest'⟩ := c'
  obtain ⟨rfl, hidle⟩ := hpad
  obtain ⟨a, k, rfl⟩ := List.exists_cons_of_ne_nil hinside
  by_cases hfeed : a = '\n'
  · subst hfeed
    exact .of_reads reads_newline_feed reads_newline_feed rfl rfl h h'
  · by_cases hreturn : a = '\r'
    · subst hreturn
      by_cases hpair : (k ++ w).head? = some '\n'
      · cases k with
        | nil =>
            -- The line feed is one of the added characters.
            obtain ⟨w, rfl⟩ := List.head?_eq_some_iff.mp hpair
            cases reads_newline_return (by simp) _ _ h
            cases reads_newline_pair _ _ h'
            exact .of_isSuffix rfl (List.suffix_cons _ _) (List.cons_ne_self _ _).symm
        | cons b k =>
            obtain rfl : b = '\n' := Option.some.inj hpair
            exact .of_reads reads_newline_pair reads_newline_pair rfl rfl h h'
      · refine .of_reads (reads_newline_return ?_) (reads_newline_return hpair) rfl rfl h h'
        cases k with
        | nil => exact nofun
        | cons b k => exact hpair
    · cases refuses_newline hfeed hreturn _ _ h
      cases refuses_newline hfeed hreturn _ _ h'
      exact .fails

/-! ## Text in strings -/

theorem reads_stringChar_escape {b : Char} :
    ∃ v, ∀ k, Reads grammar (.rule .stringChar) ['\\', b] k v [] :=
  ⟨_, fun _ => ((reads_lit "\\").seq_cons reads_anyChar.seq_last).choice_here.rule⟩

/-- At the end of the source a backslash is a character like others. -/
theorem reads_stringChar_backslash : ∃ v, Reads grammar (.rule .stringChar) ['\\'] [] v [] := by
  have hescape : Refuses grammar (.seq [.lit "\\", .anyChar]) ['\\'] :=
    Refuses.seq_tail (reads_lit "\\") refuses_anyChar_nil.seq_head
  have hplain : Refuses grammar (.choice [.lit "\"", .lit "#\x7b"]) ['\\'] :=
    refuses_at_end ['\\'] (by decide)
  exact ⟨_, ((hplain.not.seq_cons reads_anyChar.seq_last).choice_here.choice_later hescape).rule⟩

/-- Before the end of the source a character other than a backslash is read as before. -/
theorem stable_stringChar_plain {offset : Nat} {a : Char} (ha : a ≠ '\\')
    (h : Derives grammar (.rule .stringChar) ⟨offset, a :: k⟩ d) :
    Stable grammar layoutChars false (.rule .stringChar) ⟨offset, a :: k⟩ d := by
  have hlit : Derives grammar (.lit "\\") ⟨offset, a :: k⟩ none := by
    refine Derives.lit_none_iff.mpr ?_
    rintro ⟨rest, hrest⟩
    cases hrest
    exact ha rfl
  have hescape : Stable grammar layoutChars true (.seq [.lit "\\", .anyChar])
      ⟨offset, a :: k⟩ none :=
    (Stable.literal (by decide) hlit).seqFail
  refine Stable.of_body (fun d h => ?_) h
  cases h with
  | choiceHere h =>
      cases h with
      | seqCons hhead htail => cases hhead.functional hlit
  | choiceLater hfail h =>
      have hother := h.stable sound_unknown (placeless_body .stringChar).2
        (.inr ⟨by decide, List.cons_ne_nil a k⟩)
      exact (hescape.choiceLater hother).mono nofun

/-- Before the end of the source a character of a string is read as before, but that a backslash at
the very end may get a character behind it. -/
theorem stable_stringChar (hinside : c.rest ≠ []) (h : Derives grammar (.rule .stringChar) c d) :
    Stable grammar layoutChars false (.rule .stringChar) c d := by
  obtain ⟨offset, rest⟩ := c
  obtain ⟨a, k, rfl⟩ := List.exists_cons_of_ne_nil hinside
  by_cases ha : a = '\\'
  · subst ha
    intro w c' d' hpad h'
    obtain ⟨offset', rest'⟩ := c'
    obtain ⟨rfl, hidle⟩ := hpad
    cases k with
    | cons b k =>
        obtain ⟨v, hescape⟩ := reads_stringChar_escape (b := b)
        exact .of_reads (hescape k) (hescape (k ++ w)) rfl rfl h h'
    | nil =>
        obtain ⟨v, hlast⟩ := reads_stringChar_backslash
        cases w with
        | nil => exact .of_reads hlast hlast rfl rfl h h'
        | cons b w =>
            obtain ⟨v', hescape⟩ := reads_stringChar_escape (b := b)
            cases hlast _ _ h
            cases hescape w _ _ h'
            exact .of_isSuffix rfl (List.suffix_cons _ _) (List.cons_ne_self _ _).symm
  · exact stable_stringChar_plain ha h

/-! ## Layout and text -/

/-- The outlook of the rules that layout and the text of strings are made of. -/
def lexicalOutlook : Symbol → Outlook
  | .blank | .layout => { edge := true, steady := true }
  | .comment | .lineComment | .blockComment => { consuming := true, edge := true, steady := true }
  | .newline | .stringChar => { consuming := true, edge := true }
  | _ => {}

theorem lexicalOutlook_backed (r : Symbol) :
    (lexicalOutlook r).backedBy ((grammar.rule r).body.outlook layoutChars lexicalOutlook) = true ∧
      ((lexicalOutlook r).edge = true →
        ((grammar.rule r).body.outlook layoutChars lexicalOutlook).edge = true ∨
          r = .newline ∨ r = .stringChar) := by
  cases r <;> decide

theorem sound_lexical : Outlook.Sound grammar layoutChars lexicalOutlook where
  placeless := placeless_body
  backed r := (lexicalOutlook_backed r).1
  edge := by
    intro r hedge
    refine ((lexicalOutlook_backed r).2 hedge).imp_right ?_
    rintro (rfl | rfl)
    · exact fun c d => stable_newline
    · exact fun c d => stable_stringChar
  trailing r := by cases r <;> exact nofun

/-- The text of a string may get longer, and its action takes any text. -/
theorem stable_stringText (hinside : c.rest ≠ []) (h : Derives grammar (.rule .stringText) c d) :
    Stable grammar layoutChars false (.rule .stringText) c d := by
  have hchars {d : Option (Reading Piece)} (h : Derives grammar (.plus (.rule .stringChar)) c d) :
      Stable grammar layoutChars false (.plus (.rule .stringChar)) c d :=
    h.stable sound_lexical trivial (.inr ⟨rfl, hinside⟩)
  have haccepts (input : ActionInput Piece) : buildStringText input ≠ none := nofun
  have hplaceless : buildStringText.Placeless := (placeless_body .stringText).1
  refine Stable.of_body (fun d h => ?_) h
  cases h with
  | action h hact => exact (hchars h).action h.reaches hplaceless (.inr haccepts) hact
  | actionReject h hact => exact absurd hact (haccepts _)
  | actionFail h => exact (hchars h).actionFail

/-! ## Separators -/

/-- No layout character is next. -/
def Bare (c : Cursor) : Prop :=
  ∀ a ∈ c.rest.head?, a ∉ layoutChars

theorem Bare.rest_eq_nil (h : Bare c) (hidle : ∀ a ∈ c.rest, a ∈ layoutChars) : c.rest = [] := by
  cases hrest : c.rest with
  | nil => rfl
  | cons a k => exact absurd (hidle a (by simp [hrest])) (h a (by simp [hrest]))

/-- Layout is read as far as it goes. -/
theorem bare_rounds {stop : Cursor} {values : List (Value Piece)}
    {labels : List (String × Value Piece)}
    (h : Rounds grammar
      (.choice [.oneOf [(' ', ' '), ('\t', '\t'), ('\n', '\n'), ('\r', '\r')], .rule .comment])
      c stop values labels) : Bare stop := by
  induction h with
  | stop hfail =>
      have hclass := Derives.choice_none_iff.mp hfail _ List.mem_cons_self
      intro a ha hmem
      obtain ⟨k, hrest⟩ := List.head?_eq_some_iff.mp ha
      have hcontains := (contains_layout a).trans (List.contains_iff_mem.mpr hmem)
      cases hclass.functional (Derives.charIn_some_iff.mpr ⟨a, k, hrest, hcontains, rfl⟩)
  | empty hread => exact absurd (sound_lexical.consumes rfl hread) (Nat.lt_irrefl _)
  | more hread hmoved hrest ih => exact ih

theorem bare_layout (h : Derives grammar (.rule .layout) c (some m)) : Bare m.stop := by
  cases h with
  | rule h =>
      obtain ⟨values, -, hrounds⟩ := Derives.rounds h
      exact bare_rounds hrounds

theorem Bare.semicolons {stop : Cursor} {values : List (Value Piece)}
    {labels : List (String × Value Piece)} (hbare : Bare c)
    (h : Rounds grammar (.seq [.lit ";", .rule .layout]) c stop values labels) : Bare stop := by
  induction h with
  | stop hfail => exact hbare
  | empty hread => exact hbare
  | more hread hmoved hrest ih =>
      obtain ⟨semicolon, more, hsemicolon, hmore, hstop, -⟩ := hread.seq_cons_some
      obtain ⟨layout, last, hlayout, hnil, hstop', -⟩ := hmore.seq_cons_some
      cases hnil
      refine ih ?_
      rw [hstop, hstop']
      change Bare layout.stop
      exact bare_layout hlayout

theorem bare_layout_semicolons
    (h : Derives grammar (.seq [.rule .layout, semicolons]) c (some m)) : Bare m.stop := by
  obtain ⟨layout, more, hlayout, hmore, hstop, -⟩ := h.seq_cons_some
  obtain ⟨semicolons, last, hsemicolons, hnil, hstop', -⟩ := hmore.seq_cons_some
  cases hnil
  obtain ⟨values, -, hrounds⟩ := Derives.rounds hsemicolons
  rw [hstop, hstop']
  exact (bare_layout hlayout).semicolons hrounds

/-- Where the source ends behind blanks, an added line break is a separator, and the layout behind
it takes the rest. -/
theorem trailing_separator (h : Derives grammar (.rule .separator) c d) :
    Trailing grammar layoutChars (.rule .separator) c d := by
  have hblanks {d : Option (Reading Piece)} (h : Derives grammar (.rule .blank) c d) :
      Stable grammar layoutChars false (.rule .blank) c d :=
    h.stable sound_lexical trivial (.inl rfl)
  have hafter {stop : Cursor} {d : Option (Reading Piece)} (hinside : stop.rest ≠ [])
      (h : Derives grammar
        (.seq [.choice [.lit ";", .rule .newline], .rule .layout, semicolons]) stop d) :
      Stable grammar layoutChars false
        (.seq [.choice [.lit ";", .rule .newline], .rule .layout, semicolons]) stop d :=
    h.stable sound_lexical (placeless_body .separator).2 (.inr ⟨by decide, hinside⟩)
  refine Trailing.of_body (fun d h w c' d' hpad h' => ?_) h
  cases h with
  | seqFail hblank => exact .inl ((hblanks hblank).seqFail hpad h')
  | seqCons hblank hmore =>
      have hinside := (sound_lexical.consumes (by decide)).ne_nil hmore
      have hstable : Stable grammar layoutChars false separator c _ :=
        (hblanks hblank).seqCons (hafter hinside hmore) hmore.reaches nofun
      exact .inl (hstable hpad h')
  | @seqTailFail _ _ _ m hblank hmore =>
      by_cases hend : m.stop.rest = []
      · cases h' with
        | seqFail hblank' => exact .inl .fails
        | seqTailFail hblank' hmore' => exact .inl .fails
        | seqCons hblank' hmore' =>
            -- Behind the blanks there are added characters only.
            refine .inr ⟨rfl, _, rfl, ?_⟩
            obtain ⟨left, hfollows, -⟩ := (hblanks hblank).follows hpad hblank'
            obtain ⟨first, last, hfirst, hlast, hstop, -⟩ := hmore'.seq_cons_some
            obtain ⟨cs, hcs, -⟩ := hmore'.reaches
            rw [hfollows.rest, hend, List.nil_append] at hcs
            have hbare : Bare last.stop := bare_layout_semicolons hlast
            rw [← hstop] at hbare
            refine hbare.rest_eq_nil fun a ha => (hfollows.padded hpad).isIdle a ?_
            rw [hcs]
            exact List.mem_append_right cs ha
      · exact .inl ((hblanks hblank).seqTailFail (hafter hend hmore) hpad h')

/-! ## All rules -/

/-- The outlook of the rules. -/
def ruleOutlook : Symbol → Outlook
  | .blank | .layout => { edge := true, steady := true }
  | .comment | .lineComment => { consuming := true, edge := true, steady := true }
  | .newline | .stringChar | .stringText | .stringPart => { consuming := true, edge := true }
  | .separator => { consuming := true, trailing := true }
  | .program => {}
  | _ => { consuming := true, tight := true, edge := true, steady := true }

theorem ruleOutlook_backed (r : Symbol) :
    (ruleOutlook r).backedBy ((grammar.rule r).body.outlook layoutChars ruleOutlook) = true ∧
      ((ruleOutlook r).edge = true →
        ((grammar.rule r).body.outlook layoutChars ruleOutlook).edge = true ∨
          r = .newline ∨ r = .stringChar ∨ r = .stringText) := by
  cases r <;> decide

theorem sound_rules : Outlook.Sound grammar layoutChars ruleOutlook where
  placeless := placeless_body
  backed r := (ruleOutlook_backed r).1
  edge := by
    intro r hedge
    refine ((ruleOutlook_backed r).2 hedge).imp_right ?_
    rintro (rfl | rfl | rfl)
    · exact fun c d => stable_newline
    · exact fun c d => stable_stringChar
    · exact fun c d => stable_stringText
  trailing := by
    intro r htrailing
    cases r with
    | separator => exact fun c d => trailing_separator
    | _ => cases htrailing

/-! ## Programs -/

/-- Of its match, the action of programs uses the labels alone. -/
theorem buildProgram_map_fst {input input' : ActionInput Piece}
    (hlabels : input'.labels = input.labels) :
    (buildProgram input').map Prod.fst = (buildProgram input).map Prod.fst := by
  have hbuild (input : ActionInput Piece) : (buildProgram input).map Prod.fst =
      (takeLabel "body" input.labels).1.toNodes?.map fun body => .ofNode (Program.mk body) := by
    change ((ActionM.require ((takeLabel "body" input.labels).1.toNodes? : Option (List Stmt)) >>=
      fun body => ActionM.produce (Program.mk body)) _).map Prod.fst = _
    cases ((takeLabel "body" input.labels).1.toNodes? : Option (List Stmt)) with
    | none => rfl
    | some body => rfl
  rw [hbuild, hbuild, hlabels]

theorem labels_layout_semicolons
    (h : Derives grammar (.seq [.rule .layout, semicolons]) c (some m)) : m.labels = [] := by
  refine h.ensured (P := fun _ labels => labels = []) ?_
  intro v _
  exact ⟨fun _ => True, by simp, fun _ _ => rfl⟩

theorem labels_rule {r : Symbol} (h : Derives grammar (.rule r) c (some m)) : m.labels = [] := by
  cases h
  rfl

/-- What the action of programs is applied to. -/
def programParts : Body :=
  .seq [
    .rule .layout,
    .label "body" (.opt (.rule .statementList)),
    .rule .layout,
    semicolons]

/-- The parts of a program up to the end of the source are read up to the end of the longer source,
with the same labels. -/
theorem programParts_padded (hpad : c.Padded layoutChars w c')
    (h : Derives grammar programParts c (some m)) (hend : m.stop.rest = [])
    (h' : Derives grammar programParts c' (some m')) :
    m'.labels = m.labels ∧ m'.stop.rest = [] := by
  obtain ⟨before, more, hbefore, hmore, hstop, hlabels⟩ := h.seq_cons_some
  obtain ⟨body, after, hbody, hafter, hstop₁, hlabels₁⟩ := hmore.seq_cons_some
  obtain ⟨before', more', hbefore', hmore', hstop', hlabels'⟩ := h'.seq_cons_some
  obtain ⟨body', after', hbody', hafter', hstop₁', hlabels₁'⟩ := hmore'.seq_cons_some
  obtain ⟨left, hfollows, -⟩ :=
    (hbefore.stable sound_rules trivial (.inl rfl)).follows hpad hbefore'
  have hpad₁ := hfollows.padded hpad
  obtain ⟨left₁, hfollows₁, htight⟩ :=
    (hbody.stable sound_rules trivial (.inl rfl)).follows hpad₁ hbody'
  have hpad₂ := hfollows₁.padded hpad₁
  obtain ⟨left₂, hfollows₂, -⟩ := (hafter.stable sound_rules (placeless_body .program).2.2.2
    (.inl (by decide))).follows hpad₂ hafter'
  constructor
  · -- The statements take none of the added characters, and only they bind a label.
    rw [hlabels, hlabels', hlabels₁, hlabels₁', labels_rule hbefore, labels_rule hbefore',
      labels_layout_semicolons hafter, labels_layout_semicolons hafter',
      (hfollows₁.same (htight rfl)).2]
  · have hbare := bare_layout_semicolons hafter'
    rw [hstop', hstop₁']
    refine hbare.rest_eq_nil ?_
    rw [hfollows₂.rest, ← hstop₁, ← hstop, hend, List.nil_append]
    exact (hfollows₂.padded hpad₂).isIdle

/-- A program up to the end of the source is a program up to the end of the longer source. -/
theorem program_padded (hpad : c.Padded layoutChars w c')
    (h : Derives grammar (.rule .program) c (some m)) (hend : m.stop.rest = [])
    (h' : Derives grammar (.rule .program) c' d') :
    ∃ stop, stop.rest = [] ∧ d' = some ⟨stop, m.value, []⟩ := by
  cases h with
  | rule h =>
    cases h with
    | @action _ _ _ parts value left hparts hact =>
      have hbuild {parts' : Reading Piece}
          (hparts' : Derives grammar programParts c' (some parts')) :
          (buildProgram ⟨parts'.labels, parts'.value, c', parts'.stop⟩).map Prod.fst =
            some value := by
        obtain ⟨hlabels, -⟩ := programParts_padded hpad hparts hend hparts'
        have hsame : (buildProgram ⟨parts'.labels, parts'.value, c', parts'.stop⟩).map Prod.fst =
            (buildProgram ⟨parts.labels, parts.value, c, parts.stop⟩).map Prod.fst :=
          buildProgram_map_fst hlabels
        rw [hsame, hact]
        rfl
      cases h' with
      | rule h' =>
          cases h' with
          | action hparts' hact' =>
              have hvalue := hbuild hparts'
              rw [hact'] at hvalue
              cases hvalue
              exact ⟨_, (programParts_padded hpad hparts hend hparts').2, rfl⟩
      | ruleFail h' =>
          cases h' with
          | actionFail hparts' =>
              have hstable := hparts.stable sound_rules (placeless_body .program).2
                (.inl (by decide))
              exact absurd hparts' (hstable.not_fails hpad)
          | actionReject hparts' hact' =>
              have hvalue := hbuild hparts'
              rw [hact'] at hvalue
              cases hvalue

/-- A source that is read as a program is read as the same program with layout at its end. -/
theorem reads_program_append {u : List Char} {stop : Cursor} {v : Value Piece}
    (h : Derives grammar (.rule .program) ⟨0, u⟩ (some ⟨stop, v, []⟩)) (hend : stop.rest = [])
    (hw : ∀ a ∈ w, a ∈ layoutChars) : Reads grammar (.rule .program) (u ++ w) [] v [] := by
  intro o d h'
  rw [List.append_nil] at h'
  have hpad : Cursor.Padded layoutChars w ⟨0, u⟩ ⟨o, u ++ w⟩ := ⟨rfl, hw⟩
  obtain ⟨⟨offset, rest⟩, hrest, rfl⟩ := program_padded hpad h hend h'
  obtain ⟨cs, hcs, hoffset⟩ := h'.reaches
  dsimp only at hrest hcs hoffset
  subst hrest
  rw [List.append_nil] at hcs
  rw [hoffset, hcs]

/-- Layout at the end of a source changes nothing: the longer source has the same program, unless it
hits the nesting limit. -/
theorem parse_append_layout {settings : Settings} {source layout : String} {program : Program}
    (h : parse settings source = .ok program) (hlayout : ∀ a ∈ layout.toList, a ∈ layoutChars) :
    parse settings (source ++ layout) = .ok program ∨
      ∃ offset, (grammar.parse settings (source ++ layout)).session.overflow = some offset ∧
        parse settings (source ++ layout) =
          .error ((({} : FurthestFailure).add offset .lessNesting).diagnose
            (source ++ layout)) := by
  obtain ⟨stop, hread, hend⟩ := derives_of_parse h
  have hreads := reads_program_append hread hend hlayout
  rw [← String.toList_append] at hreads
  exact parse_of_reads hreads settings

/-- A comment takes the blanks that are added to its line, and layout takes the rest. -/
theorem parse_append_layout_comment :
    ∃ program, parse {} "a//b" = .ok program ∧ program.body.length = 1 ∧
      (∀ a ∈ " \t\r\n".toList, a ∈ layoutChars) ∧
      (parse {} ("a//b" ++ " \t\r\n") = .ok program ∨
        ∃ offset, (grammar.parse {} ("a//b" ++ " \t\r\n")).session.overflow = some offset ∧
          parse {} ("a//b" ++ " \t\r\n") =
            .error ((({} : FurthestFailure).add offset .lessNesting).diagnose
              ("a//b" ++ " \t\r\n"))) := by
  have hlength : (parse {} "a//b").toOption.map (·.body.length) = some 1 :=
    grammar.eq_of_runListed {} rfl 5000 .program _
      (fun run => (run.outcome.bind (programOf "a//b")).toOption.map (·.body.length))
      (by decide +kernel)
  have hlayout : ∀ a ∈ " \t\r\n".toList, a ∈ layoutChars := by decide
  cases hparse : parse {} "a//b" with
  | error diagnosis =>
      rw [hparse] at hlength
      cases hlength
  | ok program =>
      rw [hparse] at hlength
      exact ⟨program, rfl, Option.some.inj hlength, hlayout, parse_append_layout hparse hlayout⟩

end Language

end PegScript

import PegScript.Proofs.Language.ValueTyping
import PegScript.Proofs.Semantics.Reports
import PegScript.Proofs.Semantics.Safety

/-!
# Syntax errors

The rule for programs matches some beginning of every source: its parts may all be missing, and its
action takes whatever the parts give.  So a program is refused within the nesting limit only for the
text behind that beginning, and there at least the end of input was expected.  Beyond the limit less
nesting is expected.  Either way the diagnosis has something to say, at a place of the source that
is not before the end of what was matched.

The main statement is `Language.parse_error`.
-/

namespace PegScript

/-! ## The character at a place -/

theorem Cursor.seek_append (offset : Nat) (before rest : List Char) :
    seek (offset + byteLength before) offset (before ++ rest) =
      some ⟨offset + byteLength before, rest⟩ := by
  induction before generalizing offset with
  | nil => cases rest <;> simp [seek]
  | cons a before ih =>
      have hpos := a.utf8Size_pos
      have hlater := ih (offset + a.utf8Size)
      rw [Nat.add_assoc] at hlater
      rw [byteLength_cons, List.cons_append, seek, if_neg (by omega), if_neg (by omega), hlater]

/-- A place of the source is found by its offset. -/
theorem Cursor.IsPlaceOf.at?_offset {c : Cursor} {source : String} (h : c.IsPlaceOf source) :
    Cursor.at? source c.offset = some c := by
  obtain ⟨before, hsource, hoffset⟩ := h
  dsimp only [start] at hsource hoffset
  rw [at?, hsource, hoffset, seek_append, ← hoffset]

/-- A diagnosis at a place of the source shows the character that follows there. -/
theorem FurthestFailure.found_diagnose {r : FurthestFailure} {source : String}
    (h : IsOffsetOf r.offset source) :
    ∃ before after : String, source = before ++ after ∧ before.utf8ByteSize = r.offset ∧
      (r.diagnose source).found = after.toList.head? := by
  obtain ⟨c, hplace, hoffset⟩ := h
  obtain ⟨before, hsource, hbefore⟩ := id hplace
  dsimp only [Cursor.start] at hsource hbefore
  refine ⟨String.ofList before, String.ofList c.rest, ?_, ?_, ?_⟩
  · rw [← String.ofList_append, ← hsource, String.ofList_toList]
  · rw [utf8ByteSize_ofList, ← hoffset, hbefore, Nat.zero_add]
  · rw [diagnose, ← hoffset, hplace.at?_offset, Option.bind_some, String.toList_ofList]

/-- Nothing follows a place exactly if it is at the end of the source. -/
theorem head?_eq_none_iff_of_append {source before after : String} {offset : Nat}
    (hsource : source = before ++ after) (hbefore : before.utf8ByteSize = offset) :
    after.toList.head? = none ↔ offset = source.utf8ByteSize := by
  rw [List.head?_eq_none_iff, ← byteLength_eq_zero_iff, ← utf8ByteSize_eq_byteLength, hsource,
    String.utf8ByteSize_append]
  omega

/-! ## Messages that name an expectation -/

/-- The text does not start as the word does that a message without any expectation has. -/
def startsApart (text : String) : Bool :=
  match text.toList with
  | a :: b :: _ => a != 'n' || b != 'o'
  | _ => false

/-- The expectation is not mistaken for the lack of one. -/
def Expectation.speaks : Expectation → Bool
  | .charIn description => startsApart description
  | .named name => startsApart name
  | _ => true

theorem Expectation.startsApart_text {e : Expectation} (h : e.speaks = true) :
    startsApart e.text = true := by
  cases e with
  | literal word ignoreCase =>
      unfold startsApart text Escape.quote
      cases hword : (Escape.diagnosis.text word).toList <;> simp [hword]
  | charIn description | named name => exact h
  | anyChar | endOfInput | lessNesting => decide

theorem toList_enumerate_cons (text : String) (texts : List String) :
    ∃ more, (enumerate (text :: texts)).toList = text.toList ++ more := by
  rcases texts with _ | ⟨next, _ | ⟨third, texts⟩⟩
  · exact ⟨[], (List.append_nil _).symm⟩
  · refine ⟨(" or " ++ next).toList, ?_⟩
    rw [enumerate, String.append_assoc, String.toList_append]
  · refine ⟨(", " ++ String.join ((next :: third :: texts).dropLast.map (· ++ ", ")) ++ "or " ++
      (text :: next :: third :: texts).getLastD "").toList, ?_⟩
    simp only [enumerate, List.dropLast_cons_cons, List.map_cons, String.join_cons,
      String.toList_append, List.append_assoc]

/-- A message whose expectations all speak does not say that nothing was expected. -/
theorem Diagnosis.message_ne {d : Diagnosis} (hsome : d.expected ≠ [])
    (hspeaks : ∀ e ∈ d.expected, e.speaks = true) (rest : String) :
    d.message ≠ "Expected nothing" ++ rest := by
  intro hmessage
  obtain ⟨e, es, hexpected⟩ := List.exists_cons_of_ne_nil hsome
  have hfirst : e ∈ d.expected := by
    rw [hexpected]
    exact List.mem_cons_self ..
  have hapart := Expectation.startsApart_text (hspeaks e hfirst)
  obtain ⟨more, hmore⟩ := toList_enumerate_cons e.text (es.map (·.text))
  have htext := congrArg String.toList hmessage
  rw [message, hexpected, List.map_cons, String.toList_append, String.toList_append, hmore] at htext
  unfold startsApart at hapart
  split at hapart
  case h_1 a b tail heq =>
    rw [heq] at htext
    simp at htext
    simp [htext] at hapart
  case h_2 => cases hapart

/-! ## Terms that always match -/

namespace Derives

variable {ρ ν : Type} {g : Grammar ρ ν} {t : Term ρ ν} {c : Cursor}

theorem not_star_none : ¬ Derives g (.star t) c none := by
  intro h
  cases h

theorem not_opt_none : ¬ Derives g (.opt t) c none := by
  intro h
  cases h

/-- A sequence matches if its parts do, wherever they come to stand. -/
theorem not_seq_none {ts : List (Term ρ ν)} (h : ∀ t ∈ ts, ∀ c, ¬ Derives g t c none) :
    ¬ Derives g (.seq ts) c none := by
  intro hseq
  induction ts generalizing c with
  | nil => cases hseq
  | cons t ts ih =>
      obtain ⟨hfirst, hlater⟩ := List.forall_mem_cons.mp h
      cases hseq with
      | seqFail hhead => exact hfirst c hhead
      | seqTailFail hhead htail => exact ih hlater htail

end Derives

namespace Language

open Lexical Statement

variable {c : Cursor} {settings : Settings} {source : String} {d : Diagnosis}

theorem not_layout_none : ¬ Derives grammar (.rule .layout) c none := by
  intro h
  cases h with
  | ruleFail hbody => exact Derives.not_star_none hbody

/-- The parts of a program, all of which may be missing. -/
theorem not_programParts_none : ¬ Derives grammar (.seq [
    .rule .layout,
    .label "body" (.opt (.rule .statementList)),
    .rule .layout,
    semicolons]) c none := by
  refine Derives.not_seq_none ?_
  simp only [List.forall_mem_cons]
  refine ⟨fun c => not_layout_none, fun c hbody => ?_, fun c => not_layout_none,
    fun c => Derives.not_star_none, by simp⟩
  cases hbody with
  | labelFail hopt => exact Derives.not_opt_none hopt

/-- The action of a program takes the statements, if there are any. -/
theorem buildProgram_ne_none {m : Reading Piece}
    (h : Derives grammar (.seq [
      .rule .layout,
      .label "body" (.opt (.rule .statementList)),
      .rule .layout,
      semicolons]) c (some m)) (stop : Cursor) :
    buildProgram ⟨m.labels, m.value, c, stop⟩ ≠ none := by
  have hlabels : ∃ ss : List Stmt, (takeLabel "body" m.labels).1.toNodes? = some ss := by
    refine h.ensured_of_step (Q := Gives) ?_ m rfl
      (fun _ labels => ∃ ss : List Stmt, (takeLabel "body" labels).1.toNodes? = some ss) ?_
    · intro r c m hbody _
      have hgives := gives_of_derives (.rule hbody)
      exact hgives
    · simp only [Term.ensures_seq, Term.ensuresSeq_cons, Term.ensuresSeq_nil, Term.ensures_label,
        Term.ensures_rule]
      intro _ _
      refine ensures_statements (fun ss _ => ?_) ?_
      · intro _ _
        exact ensures_semicolons fun _ => ⟨ss, by simp⟩
      · intro _ _
        exact ensures_semicolons fun _ => ⟨[], by simp⟩
  obtain ⟨ss, hss⟩ := hlabels
  have hmeets : buildProgram.Meets ⟨m.labels, m.value, c, stop⟩ (fun _ _ => True) False := by
    simp [buildProgram, hss]
  exact hmeets.of_eq_none

/-- The rule for programs matches everywhere. -/
theorem not_program_none : ¬ Derives grammar (.rule .program) c none := by
  intro h
  cases h with
  | ruleFail hbody =>
    cases hbody with
    | actionReject hread hact => exact buildProgram_ne_none hread _ hact
    | actionFail hseq => exact not_programParts_none hseq

/-- Within the nesting limit some beginning of the source is matched. -/
theorem exists_match_program
    (hdone : (grammar.parse settings source).session.overflow = none) :
    ∃ m, (grammar.runRule settings source.utf8ByteSize settings.maxDepth .program
      (Cursor.start source) {}).1 = some m := by
  refine Option.ne_none_iff_exists'.mp fun hnone => ?_
  obtain ⟨d, hderives, hfails⟩ := (Grammar.conforms_of_overflow_eq_none hdone).exists_derives
  obtain rfl := hfails.mp hnone
  exact not_program_none hderives

/-! ## Diagnoses -/

/-- No rule of the language reports something that could be mistaken for the lack of it. -/
theorem reportsOnly_speaks (r : Symbol) :
    (grammar.rule r).reportsOnly Expectation.speaks = true := by
  cases r <;> decide

/-- A source that is no program is refused by the parse itself. -/
theorem outcome_of_parse_eq_error (h : parse settings source = .error d) :
    (grammar.parse settings source).outcome = .error d := by
  cases houtcome : (grammar.parse settings source).outcome with
  | error d' =>
      rw [parse, houtcome] at h
      cases h
      rfl
  | ok value =>
      obtain ⟨program, -, hparse⟩ := exists_program_of_parse houtcome
      rw [hparse] at h
      cases h

/-- What a source is refused for comes last in the record: less nesting, or the end of input where
the match stops. -/
theorem exists_add_of_error (h : (grammar.parse settings source).outcome = .error d) :
    ∃ (r : FurthestFailure) (offset : Nat) (e : Expectation),
      d = (r.add offset e).diagnose source ∧ r.Lists Expectation.speaks ∧ e.speaks = true ∧
        ((grammar.parse settings source).session.overflow = none →
          ∀ m, (grammar.runRule settings source.utf8ByteSize settings.maxDepth .program
            (Cursor.start source) {}).1 = some m → m.stop.offset = offset) := by
  cases hover : (grammar.parse settings source).session.overflow with
  | some offset =>
      cases h.symm.trans (Grammar.outcome_of_overflow hover)
      refine ⟨{}, offset, .lessNesting, rfl, FurthestFailure.lists_empty, rfl, ?_⟩
      rintro ⟨⟩
  | none =>
      obtain ⟨m, hmatch⟩ := exists_match_program hover
      have hlists := Grammar.lists_session reportsOnly_speaks settings .program source
      rcases (Grammar.conclude_eq_error_iff hover).mp h with ⟨hnone, -⟩ | ⟨m', hmatch', -, hd⟩
      · cases hmatch.symm.trans hnone
      · refine ⟨_, m'.stop.offset, .endOfInput, hd.symm, hlists, rfl, fun _ m hm => ?_⟩
        cases hm.symm.trans hmatch'
        rfl

theorem isOffsetOf_of_error (h : (grammar.parse settings source).outcome = .error d) :
    IsOffsetOf d.offset source := by
  have hstart := Grammar.placed_startEvaluation (ν := Piece) settings Symbol.program source
  obtain ⟨hs, hreaches⟩ :=
    (Grammar.runs_evaluate grammar settings hstart).placed hstart.place hstart.session
  exact Grammar.isOffsetOf_of_conclude hs (fun m hm => hstart.place.move (hreaches m hm)) h

/-- Every syntax error says something.  Within the nesting limit the rule for programs matches some
beginning of the source, and a diagnosis is not before the end of it.  A diagnosis lists at least
one expectation, and its message does not say that nothing was expected.  It is at a place between
two characters, or at the end, and shows the character that follows. -/
theorem parse_error (settings : Settings) (source : String) :
    ((grammar.parse settings source).session.overflow = none →
      ∃ m, (grammar.runRule settings source.utf8ByteSize settings.maxDepth .program
          (Cursor.start source) {}).1 = some m ∧
        ∀ d, parse settings source = .error d → m.stop.offset ≤ d.offset) ∧
      ∀ d, parse settings source = .error d →
        d.expected ≠ [] ∧ (∀ rest, d.message ≠ "Expected nothing" ++ rest) ∧
          (⟨d.offset⟩ : String.Pos.Raw).IsValid source ∧ d.offset ≤ source.utf8ByteSize ∧
          (∃ before after : String, source = before ++ after ∧
            before.utf8ByteSize = d.offset ∧ d.found = after.toList.head?) ∧
          (d.found = none ↔ d.offset = source.utf8ByteSize) := by
  constructor
  · intro hdone
    obtain ⟨m, hmatch⟩ := exists_match_program hdone
    refine ⟨m, hmatch, fun d hd => ?_⟩
    obtain ⟨r, offset, e, rfl, -, -, hoffset⟩ :=
      exists_add_of_error (outcome_of_parse_eq_error hd)
    rw [hoffset hdone m hmatch]
    exact r.le_offset_add offset e
  · intro d hd
    have herror := outcome_of_parse_eq_error hd
    have hplace := isOffsetOf_of_error herror
    obtain ⟨r, offset, e, rfl, hlists, hspeaks, -⟩ := exists_add_of_error herror
    have hsome : ((r.add offset e).diagnose source).expected ≠ [] := by
      obtain ⟨e', he'⟩ := List.exists_mem_of_ne_nil _ (hlists.add_ne_nil offset e)
      obtain ⟨shown, hshown, -⟩ := exists_mem_sortExpectations he'
      exact List.ne_nil_of_mem hshown
    have hkind : ∀ e' ∈ ((r.add offset e).diagnose source).expected, e'.speaks = true :=
      fun e' he' => (hlists.add offset hspeaks).kind e' (mem_of_mem_sortExpectations he')
    obtain ⟨before, after, hsource, hbefore, hfound⟩ := FurthestFailure.found_diagnose hplace
    refine ⟨hsome, Diagnosis.message_ne hsome hkind, hplace.isValid,
      hplace.isValid.le_utf8ByteSize, ⟨before, after, hsource, hbefore, hfound⟩, ?_⟩
    rw [hfound]
    exact head?_eq_none_iff_of_append hsource hbefore

/-- A character that no program has is refused, at one of its ends. -/
theorem parse_error_foreign :
    ∃ d, parse { memoize := false } "é" = .error d ∧ d.expected ≠ [] ∧
      (d.found = none ↔ d.offset = 2) := by
  have hrefused : (parse { memoize := false } "é").toOption = none := by decide +kernel
  cases hparse : parse { memoize := false } "é" with
  | ok program =>
      rw [hparse] at hrefused
      cases hrefused
  | error d =>
      obtain ⟨-, herror⟩ := parse_error { memoize := false } "é"
      obtain ⟨hsome, -, -, -, -, hfound⟩ := herror d hparse
      exact ⟨d, rfl, hsome, hfound⟩

end Language

end PegScript

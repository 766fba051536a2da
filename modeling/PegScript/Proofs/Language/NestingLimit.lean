import PegScript.Language.Grammar
import PegScript.Proofs.Semantics.LeftDepth
import PegScript.Proofs.Semantics.ListedTable

/-!
# The nesting limit for programs

Whether a program is too deeply nested depends on the memo table.  With it, a program is refused
only if it is refused without it.  Without it, a program is also refused if a rule that has been
evaluated is evaluated again under more rules than before and then goes beyond the limit
(`Language.nestingLimit_memoize`).  The empty program is an example: with the table it needs a limit
of 17 rules, and without the table this limit is too low
(`Language.nestingLimit_depends_on_table`).

No rule of the language comes back to itself before it takes input, and so a limit of 22 rules for
each byte of the source, and for its end, is always high enough (`Language.overflow_eq_none`).
-/

namespace PegScript

namespace Language

/-- The parse fails at the offset since too many rules were active there. -/
def FailsForNesting (settings : Settings) (source : String) (offset : Nat) : Prop :=
  ∃ d, parse settings source = .error d ∧ .lessNesting ∈ d.expected ∧ d.offset = offset

theorem failsForNesting_iff {settings : Settings} {source : String} {offset : Nat} :
    FailsForNesting settings source offset ↔
      (grammar.parse settings source).session.overflow = some offset := by
  rw [FailsForNesting, Grammar.parse, Grammar.overflow_eq_some_iff]
  constructor
  · rintro ⟨d, herror, hmem, hoffset⟩
    cases houtcome : (grammar.parse settings source).outcome with
    | error d' =>
        rw [parse, houtcome] at herror
        cases herror
        exact ⟨d, houtcome, hmem, hoffset⟩
    | ok value =>
        -- a value that holds no program is refused without any expectation
        rw [parse, houtcome] at herror
        have hprogram : programOf source value = .error d := herror
        unfold programOf at hprogram
        split at hprogram
        · cases hprogram
        · cases hprogram
          cases mem_of_mem_sortExpectations hmem
  · rintro ⟨d, houtcome, hmem, hoffset⟩
    refine ⟨d, ?_, hmem, hoffset⟩
    rw [parse, Grammar.parse, houtcome]
    rfl

/-- With the memo table a program is refused for its nesting only if it is refused without.  If it
is refused without, then also with the table and at the same offset, unless without the table the
limit is hit in the course of a rule that is evaluated again, and deeper than before. -/
theorem nestingLimit_memoize (settings : Settings) (source : String) :
    (∀ offset, FailsForNesting { settings with memoize := true } source offset →
        ∃ offset', FailsForNesting { settings with memoize := false } source offset') ∧
      ∀ offset, FailsForNesting { settings with memoize := false } source offset →
        FailsForNesting { settings with memoize := true } source offset ∨
          ∃ e₀ e₁, grammar.Retried { settings with memoize := false } source
              (Grammar.startEvaluation { settings with memoize := false } grammar.root source)
              e₀ e₁ ∧
            e₁.allowance < e₀.allowance ∧
            grammar.HitsAt { settings with memoize := false } source e₁ offset := by
  simp only [failsForNesting_iff]
  constructor
  · intro offset hwith
    refine Option.ne_none_iff_exists'.mp fun hwithout => ?_
    have hnone := Grammar.overflow_memoize_eq_none hwithout
    rw [Grammar.parse, hnone] at hwith
    cases hwith
  · intro offset hwithout
    exact Grammar.overflow_memoize_or_retried hwithout

/-- Under a limit of 17 rules the empty program is read with the memo table. -/
theorem parse_empty : parse { maxDepth := 17 } "" = .ok ⟨[]⟩ := by
  have hread : (parse { maxDepth := 17 } "").toOption.map (·.body.isEmpty) = some true :=
    grammar.eq_of_runListed { maxDepth := 17 } rfl 2000 .program ""
      (fun run => (run.outcome.bind (programOf "")).toOption.map (·.body.isEmpty))
      (by decide +kernel)
  cases hparse : parse { maxDepth := 17 } "" with
  | error d =>
      rw [hparse] at hread
      cases hread
  | ok program =>
      rw [hparse] at hread
      have hbody : program.body.isEmpty = true := Option.some.inj hread
      rw [List.isEmpty_iff] at hbody
      rw [← hbody]

/-- Without the table the same limit is too low for the empty program.  A limit that is too low with
and without the table may be hit at different offsets. -/
theorem nestingLimit_depends_on_table :
    parse { maxDepth := 17 } "" = .ok ⟨[]⟩ ∧
      FailsForNesting { memoize := false, maxDepth := 17 } "" 0 ∧
      FailsForNesting { maxDepth := 10 } "\x7ba\x7d = b" 6 ∧
      FailsForNesting { memoize := false, maxDepth := 10 } "\x7ba\x7d = b" 2 := by
  refine ⟨parse_empty, failsForNesting_iff.mpr (by decide +kernel),
    failsForNesting_iff.mpr ?_, failsForNesting_iff.mpr (by decide +kernel)⟩
  have hlisted : (grammar.runListed { maxDepth := 10 } 2000 10 (.rule .program)
      (Cursor.start "\x7ba\x7d = b") {} []).map (·.session.overflow) = some (some 6) := by
    decide +kernel
  exact Grammar.overflow_of_runListed rfl hlisted

/-! ## A limit that is high enough -/

/-- The rules that may match and take no input. -/
def mayBeEmpty : Symbol → Bool
  | .blank | .layout | .stringPart | .stringText | .program => true
  | _ => false

/-- How many rules at most come one after the other from the rule on, before input is taken. -/
def rank : Symbol → Nat
  | .comment | .identifier | .identifierName | .number | .stringText | .plainString => 1
  | .blank | .layout | .stringPart | .arrowParams | .propertyKey | .pattern
  | .objectPatternElement | .importSpec => 2
  | .optionalMember | .member | .index | .arrow | .property | .arrayPatternElement
  | .defaultValue | .param | .separator | .elseIf | .catchClause => 3
  | .suffix | .primary => 4
  | .suffixed | .newCallee => 5
  | .pipeStage | .unary | .assignTarget => 6
  | .exponent | .assignment => 7
  | .multiplicative => 8
  | .additive => 9
  | .relational => 10
  | .equality => 11
  | .and => 12
  | .or => 13
  | .coalesce => 14
  | .conditional => 15
  | .range => 16
  | .pipeline => 17
  | .expression => 18
  | .argument | .arrowBody | .statement => 19
  | .statementList => 20
  | .program => 21
  | _ => 0

theorem ranked_grammar : grammar.Ranked mayBeEmpty rank 22 where
  lt r := by cases r <;> decide
  nullable r := by cases r <;> decide
  starts r := by cases r <;> decide

/-- No source hits a limit of 22 rules for each of its bytes and for its end. -/
theorem overflow_eq_none {settings : Settings} {source : String} {start : Symbol}
    (h : 22 * (source.utf8ByteSize + 1) ≤ settings.maxDepth) :
    (grammar.parseFrom settings start source).session.overflow = none :=
  Grammar.overflow_eq_none_of_ranked ranked_grammar h

end Language

end PegScript

import PegScript.Compile.Compilation
import PegScript.Proofs.JavaScript.Defects
import PegScript.Proofs.Language.WellFormed
import PegScript.Proofs.Semantics.ListedTable

/-!
# How a compilation fails

With the usual collaborators, and a writer that has a literal for every text, a compilation fails in
two ways only.  Either the source does not
parse, or it has, at any depth, a declaration that needs an initial value and has none.  The other
defects that lowering knows are those of trees that no source has.
-/

namespace PegScript

/-- The piece is a declaration that needs an initial value and has none: that of a constant, or one
that takes a value apart. -/
def Piece.LacksInitializer : Piece → Prop
  | .stmt (.decl kind target none) => kind = .constDecl ∨ target.Destructures
  | _ => False

theorem hasDefect_missingInitializer_iff {piece : Piece} :
    piece.HasDefect .missingInitializer ↔ piece.LacksInitializer := by
  unfold Piece.LacksInitializer
  split
  case h_1 => rfl
  case h_2 hother =>
    unfold Piece.HasDefect
    split <;> grind

/-- The only defect of a well-formed piece is a missing initial value. -/
theorem lacksInitializer_of_hasDefect {piece : Piece} {d : Defect} (hpiece : piece.WellFormed)
    (hd : piece.HasDefect d) : d = .missingInitializer ∧ piece.LacksInitializer := by
  cases d with
  | missingInitializer => exact ⟨rfl, hasDefect_missingInitializer_iff.mp hd⟩
  | _ =>
      -- Well-formedness rules out every other defect.
      unfold Piece.HasDefect at hd
      split at hd <;> simp_all

/-- Lowering a parsed program fails exactly if an initial value is missing somewhere. -/
theorem generate_of_parse {settings : Settings} {source : String} {program : Program}
    (hparse : Language.parse settings source = .ok program) :
    (∃ piece ∈ program.pieces, piece.LacksInitializer) ∧
        JavaScript.generate program = .error .missingInitializer ∨
      (¬ ∃ piece ∈ program.pieces, piece.LacksInitializer) ∧
        ∃ g, JavaScript.generate program = .ok g := by
  cases hgenerate : JavaScript.generate program with
  | error d =>
      obtain ⟨piece, hpiece, hdefect⟩ := JavaScript.hasDefect_of_generate_eq_error hgenerate
      have hsound := Language.sound_of_parse hparse piece hpiece
      obtain ⟨rfl, hlacks⟩ := lacksInitializer_of_hasDefect hsound.1 hdefect
      exact Or.inl ⟨⟨piece, hpiece, hlacks⟩, rfl⟩
  | ok g =>
      refine Or.inr ⟨?_, g, rfl⟩
      rintro ⟨piece, hpiece, hlacks⟩
      exact JavaScript.not_hasDefect_of_generate_eq_ok hgenerate hpiece
        (hasDefect_missingInitializer_iff.mpr hlacks)

/-! ## Outcomes of a compilation -/

section Compile

variable (write : TextWriter) (config : Config) {source : String}

theorem compile_of_unparsed {failure : Diagnosis}
    (h : Language.parse {} source = .error failure) :
    (compile (.standard write) config source).result =
      .error (.unparsed failure (failure.render source)) := by
  have hparsed : (parseLogged {} source).result = .error failure := h
  unfold compile
  simp only [hparsed]

theorem compile_of_unlowered {program : Program} {d : Defect}
    (h : Language.parse {} source = .ok program)
    (hgenerate : JavaScript.generate program = .error d) :
    (compile (.standard write) config source).result = .error (.unlowered d program) := by
  have hparsed : (parseLogged {} source).result = .ok program := h
  unfold compile
  simp only [hparsed, generateLogged, hgenerate]

/-- Behind lowering nothing fails, if the name of the helpers' module can be written. -/
theorem compile_of_lowered {program : Program} {g : JavaScript.Generated} {quoted : String}
    (hwrite : write config.runtimeModule = .ok quoted)
    (h : Language.parse {} source = .ok program)
    (hgenerate : JavaScript.generate program = .ok g) :
    ∃ compiled, (compile (.standard write) config source).result = .ok compiled := by
  have hparsed : (parseLogged {} source).result = .ok program := h
  have hmaterialize : config.materialize write g.helpers =
      .ok (g.helpers.toList.map (config.deliver quoted)) := by
    unfold Config.materialize
    rw [hwrite]
    rfl
  unfold compile
  simp only [hparsed, generateLogged, hgenerate, assemble, Collaborators.standard, hmaterialize]
  exact ⟨_, rfl⟩

end Compile

/-- The failures of a compilation: the source does not parse, or an initial value is missing, and
each of the two is reported exactly if it is so. -/
theorem compile_failures (write : TextWriter) (hwrite : ∀ text, ∃ quoted, write text = .ok quoted)
    (config : Config) (source : String) :
    ((∃ compiled, (compile (.standard write) config source).result = .ok compiled) ∨
      (∃ failure report, (compile (.standard write) config source).result =
        .error (.unparsed failure report)) ∨
      ∃ program, (compile (.standard write) config source).result =
        .error (.unlowered .missingInitializer program)) ∧
    ((∃ failure report, (compile (.standard write) config source).result =
        .error (.unparsed failure report)) ↔
      ∃ failure, Language.parse {} source = .error failure) ∧
    ∀ program, (compile (.standard write) config source).result =
        .error (.unlowered .missingInitializer program) ↔
      Language.parse {} source = .ok program ∧
        ∃ piece ∈ program.pieces, piece.LacksInitializer := by
  cases hparse : Language.parse {} source with
  | error failure =>
      have hresult := compile_of_unparsed write config hparse
      rw [hresult]
      simp
  | ok program =>
      rcases generate_of_parse hparse with ⟨hlacks, hgenerate⟩ | ⟨hcomplete, g, hgenerate⟩
      · have hresult := compile_of_unlowered write config hparse hgenerate
        rw [hresult]
        refine ⟨Or.inr (Or.inr ⟨program, rfl⟩), by simp, ?_⟩
        intro program'
        constructor
        · rintro ⟨⟩
          exact ⟨rfl, hlacks⟩
        · rintro ⟨⟨⟩, -⟩
          rfl
      · obtain ⟨quoted, hquoted⟩ := hwrite config.runtimeModule
        obtain ⟨compiled, hresult⟩ := compile_of_lowered write config hquoted hparse hgenerate
        rw [hresult]
        refine ⟨Or.inl ⟨compiled, rfl⟩, by simp, ?_⟩
        intro program'
        constructor
        · rintro ⟨⟩
        · rintro ⟨⟨⟩, hlacks⟩
          exact absurd hlacks hcomplete

/-- A constant without a value, in a block that is an argument. -/
theorem compile_failures_inner_constant :
    (∀ text, ∃ quoted, writeJson text = .ok quoted) ∧
      ∃ program, Language.parse {} "f(do \x7b const x \x7d)" = .ok program ∧
        (compile (.standard writeJson) {} "f(do \x7b const x \x7d)").result =
          .error (.unlowered .missingInitializer program) := by
  have hwrite : ∀ text, ∃ quoted, writeJson text = .ok quoted := fun text => ⟨_, rfl⟩
  have hcheck := Language.grammar.eq_of_runListed {} rfl 2000 .program "f(do \x7b const x \x7d)"
    (fun run => (run.outcome.bind
      (Language.programOf "f(do \x7b const x \x7d)")).toOption.any fun program =>
        decide (JavaScript.generate program = .error .missingInitializer))
    (a := true) (by decide +kernel)
  change (Language.parse {} "f(do \x7b const x \x7d)").toOption.any _ = true at hcheck
  cases hparse : Language.parse {} "f(do \x7b const x \x7d)" with
  | error failure =>
      rw [hparse] at hcheck
      cases hcheck
  | ok program =>
      rw [hparse] at hcheck
      have hgenerate := of_decide_eq_true hcheck
      obtain ⟨-, -, hunlowered⟩ := compile_failures writeJson hwrite {} "f(do \x7b const x \x7d)"
      rcases generate_of_parse hparse with ⟨hlacks, -⟩ | ⟨-, g, hok⟩
      · exact ⟨hwrite, program, rfl, (hunlowered program).mpr ⟨hparse, hlacks⟩⟩
      · cases hok.symm.trans hgenerate

end PegScript

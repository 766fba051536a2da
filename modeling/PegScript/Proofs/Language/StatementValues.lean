import PegScript.Proofs.Language.Values

/-!
# The values of statements

The rules for statements, blocks and programs keep what is known of their values.
-/

namespace PegScript

namespace Language

open Statement

/-! ## Functions that put statements together -/

/-- A final expression becomes the tail, so a block without a tail ends otherwise. -/
theorem sound_blockOf {body : List Stmt} (hbody : ∀ s ∈ body, Sound s.pieces) :
    Sound (blockOf body).pieces := by
  unfold blockOf
  split
  case h_1 expr hlast =>
    have hexpr : Sound expr.pieces := by
      simpa using hbody _ (List.mem_of_getLast? hlast)
    have hfront : ∀ s ∈ body.dropLast, Sound s.pieces := fun s hs =>
      hbody s (List.dropLast_subset _ hs)
    simpa [Block.WellFormed, hexpr] using hfront
  case h_2 hlast =>
    have hend : ∀ expr, body.getLast? ≠ some (.expr expr) := fun expr heq => hlast expr heq
    simpa [Block.WellFormed] using ⟨hend, hbody⟩

/-- A loop over a range that binds a name counts, so the others iterate over something else or take
the items apart. -/
theorem sound_forLoop {pattern : Pattern} {iterable : Expr} {body : Block}
    (hpattern : Sound pattern.pieces) (hiterable : Sound iterable.pieces)
    (hbody : Sound body.pieces) : Sound (forLoop pattern iterable body).pieces := by
  unfold forLoop
  split
  case h_1 =>
    simp_all
  case h_2 hother =>
    have hpair : Stmt.WellFormed (.forIn pattern iterable body) := by
      intro name start stop step hname hrange
      exact hother name start stop step hname hrange
    simpa using ⟨hpair, hpattern, hiterable, hbody⟩

@[simp]
theorem importOf_source (default : Option String) (source : String)
    (clause : Option ImportClause) : (importOf default source clause).source = source := by
  rcases clause with _ | clause | clause <;> rfl

/-- A clause names a namespace or single names. -/
theorem importOf_namespaceName_or_named (default : Option String) (source : String)
    (clause : Option ImportClause) :
    (importOf default source clause).namespaceName = none ∨
      (importOf default source clause).named = [] := by
  rcases clause with _ | clause | clause <;> simp [importOf]

theorem named_importOf {default : Option String} {source : String} {clause : Option ImportClause}
    (hdefault : ∀ name ∈ default, isVariable name = true) (hclause : ∀ c ∈ clause, c.Named) :
    (importOf default source clause).Named := by
  rcases clause with _ | name | specs
  · exact ⟨hdefault, by simp [importOf], by simp [importOf]⟩
  · have hname : isVariable name = true := hclause _ rfl
    exact ⟨hdefault, by simpa [importOf] using hname, by simp [importOf]⟩
  · exact ⟨hdefault, by simp [importOf], hclause _ rfl⟩

/-- Only a plain assignment takes a value apart. -/
theorem eq_assign_of_canAssign {p : Pattern} {op : AssignOp}
    (h : canAssign (.pattern p) op = true) : op = .assign :=
  eq_of_beq h

theorem sound_of_targetOf? {e : Expr} {target : AssignTarget}
    (he : Sound e.pieces) (h : targetOf? e = some target) :
    Sound target.pieces ∧ target.Assignable := by
  unfold targetOf? at h
  split at h <;> cases h <;> simp_all [AssignTarget.Assignable]

/-! ## Programs and blocks -/

/-- The statements of a program or a block, which may be missing. -/
theorem ensures_statements {P : Value Piece → List (String × Value Piece) → Prop}
    (hsome : ∀ ss : List Stmt, (∀ s ∈ ss, Sound s.pieces) → P (.ofNodes ss) [])
    (hnone : P .absent []) :
    (Term.opt (.rule .statementList) : Body).Ensures Gives P := by
  simpa using ⟨hsome, hnone⟩

/-- Semicolons bind no labels. -/
theorem ensures_semicolons {P : Value Piece → List (String × Value Piece) → Prop}
    (hany : ∀ v, P v []) : semicolons.Ensures Gives P :=
  Term.ensures_star_any (by simp) hany

theorem keeps_program : Keeps .program := by
  simp only [Keeps, body, program, Term.ensures_action, Term.ensures_seq,
    Term.ensuresSeq_cons, Term.ensuresSeq_nil, Term.ensures_label, Term.ensures_rule]
  intro _ _
  refine ensures_statements (fun ss hss => ?_) ?_
  · intro _ _
    refine ensures_semicolons fun _ => ?_
    simpa [buildProgram, Program.pieces] using hss
  · intro _ _
    refine ensures_semicolons fun _ => ?_
    simp [buildProgram, Program.pieces]

theorem keeps_statementList : Keeps .statementList := by
  refine Term.ensures_separated (fun s : Stmt => Sound s.pieces) ?_ (fun _ hv => hv) ?_
  · simp
  · intro ss hss
    exact ⟨ss, hss, rfl⟩

theorem keeps_block : Keeps .block := by
  simp only [Keeps, body, block, Term.ensures_action, Term.ensures_seq,
    Term.ensuresSeq_cons, Term.ensuresSeq_nil, Term.ensures_label, Term.ensures_rule,
    Term.ensures_lit]
  intro _ _ _
  refine ensures_statements (fun ss hss => ?_) ?_
  · intro _ _
    refine ensures_semicolons fun _ => ?_
    simpa [buildBlock] using sound_blockOf hss
  · intro _ _
    refine ensures_semicolons fun _ => ?_
    simpa [buildBlock] using sound_blockOf (by simp)

theorem keeps_statement : Keeps .statement := by
  simp +contextual [statement, buildExprStatement]

/-! ## Statements -/

theorem keeps_declaration : Keeps .declaration := by
  simp +contextual [declaration, buildDeclaration, word, Stmt.Declares]

theorem keeps_functionDeclaration : Keeps .functionDeclaration := by
  simp only [Keeps, body, functionDeclaration, word, Term.ensures_action, Term.ensures_seq,
    Term.ensuresSeq_cons, Term.ensuresSeq_nil, Term.ensures_label, Term.ensures_lit,
    Term.ensures_not]
  refine Term.ensures_opt_any (by simp) fun isAsync _ => ?_
  refine Term.ensures_opt_any (by simp) fun isGenerator => ?_
  simp +contextual [buildFunctionDeclaration, SoundParams, Stmt.Declares]

theorem keeps_ifStatement : Keeps .ifStatement := by
  simp [ifStatement, word]
  intro _ _ test htest _ body hbody
  refine Term.ensures_star (fun b : Branch => Sound b.pieces) ?_ ?_
  · simp
  · intro branches hbranches
    simp +contextual [buildIf, htest, hbody, hbranches]

theorem keeps_elseIf : Keeps .elseIf := by
  simp +contextual [elseIf, buildElseIf, word]

theorem keeps_whileStatement : Keeps .whileStatement := by
  simp +contextual [whileStatement, buildWhile, word]

theorem keeps_loopStatement : Keeps .loopStatement := by
  simp +contextual [loopStatement, buildLoop, word]

theorem keeps_forStatement : Keeps .forStatement := by
  simp +contextual [forStatement, buildFor, word, sound_forLoop]

theorem keeps_returnStatement : Keeps .returnStatement := by
  simp +contextual [returnStatement, buildReturn, word]

theorem keeps_breakStatement : Keeps .breakStatement := by
  simp [breakStatement, buildBreak, word]

theorem keeps_continueStatement : Keeps .continueStatement := by
  simp [continueStatement, buildContinue, word]

theorem keeps_throwStatement : Keeps .throwStatement := by
  simp +contextual [throwStatement, buildThrow, word]

theorem keeps_tryStatement : Keeps .tryStatement := by
  simp [tryStatement, buildTry, word]
  intro body hbody
  refine ⟨fun handler hhandler => ⟨fun last hlast => ?_, hbody, hhandler⟩, fun last hlast => ?_⟩
  · exact ⟨hbody, hhandler, hlast⟩
  · exact ⟨hbody, hlast⟩

theorem keeps_catchClause : Keeps .catchClause := by
  simp +contextual [catchClause, buildHandlerWithParam, buildHandler, word]

theorem keeps_guardStatement : Keeps .guardStatement := by
  simp [guardStatement, guarded, buildGuard, word]
  constructor
  · intro pattern hpattern expr hexpr error herror fallback hfallback
    exact ⟨herror, hpattern, hexpr, hfallback⟩
  · intro expr hexpr error herror fallback hfallback
    exact ⟨herror, hexpr, hfallback⟩

theorem keeps_importStatement : Keeps .importStatement := by
  simp [importStatement, buildImport, word, importOf_namespaceName_or_named]
  refine ⟨⟨fun name hname => ⟨fun clause hclause source hsource => ?_, fun source hsource => ?_⟩,
    fun clause hclause source hsource => ?_⟩, fun source hsource => ?_⟩
  · exact ⟨hsource, named_importOf (by simpa using hname) (by simpa using hclause)⟩
  · exact ⟨hsource, named_importOf (by simpa using hname) (by simp)⟩
  · exact ⟨hsource, named_importOf (by simp) (by simpa using hclause)⟩
  · exact ⟨hsource, named_importOf (by simp) (by simp)⟩

theorem keeps_importClause : Keeps .importClause := by
  simp +contextual [importClause, buildNamespaceClause, word, ImportClause.Named]
  refine ensures_listOf ImportSpec.Named (fun _ hv => hv) ?_ ?_ <;>
    simp +contextual [buildNamedClause, ImportClause.Named]

theorem keeps_importSpec : Keeps .importSpec := by
  simp [importSpec, buildImportSpec, word]
  intro name hname
  exact ⟨fun localName hlocal => ⟨hname, by simpa using hlocal⟩, ⟨hname, by simp⟩⟩

theorem keeps_exportStatement : Keeps .exportStatement := by
  simp +contextual [exportStatement, buildExportDefault, buildExport, word]

theorem keeps_assignment : Keeps .assignment := by
  simp [assignment, buildAssignment]
  intro target htarget hassignable token value hvalue op _ hcan
  refine ⟨?_, htarget, hvalue⟩
  rintro p rfl
  exact ⟨eq_assign_of_canAssign hcan, hassignable⟩

theorem keeps_assignTarget : Keeps .assignTarget := by
  simp [assignTarget, buildPatternTarget, buildExprTarget]
  refine ⟨fun p hp hdestructures => ⟨hp, hdestructures⟩, ?_⟩
  intro e he target htarget
  exact sound_of_targetOf? he htarget

end Language

end PegScript

import PegScript.Proofs.JavaScript.Tally
import PegScript.Proofs.JavaScript.Temporaries

/-!
# Where the variables of pipelines are declared

A pipeline keeps its running value in a variable that is named by its number.  The variables of a
scope are declared before everything else in it: at the top level of the program by statements of
their own, and in a function body or a block used as an expression by its first lines.  An arrow
function that only gives a result gets a block when it has a variable to declare.  The text declares
a variable as often as it has the scope: once, unless an assignment writes its target twice.
-/

namespace PegScript

namespace JavaScript

open Lower

/-- How a generated program declares the variables of the pipelines of its source. -/
structure Hoisted (program : Program) (g : Generated) : Prop where
  /-- The inner scopes are the bodies of functions and the blocks used as expressions. -/
  blocks : (program.innerScopes.map Scope.block).Perm (program.pieces.filterMap Piece.scopeBlock?)
  /-- The pipelines of a scope are those of its block that are in no inner scope. -/
  own : ∀ scope ∈ program.scopes, scope.pipelines.map Prod.fst =
    (Piece.block scope.block).ownPieces.filter Piece.isPipeline
  /-- Their numbers increase. -/
  increasing : ∀ scope ∈ program.scopes, (scope.pipelines.map Prod.snd).Pairwise (· < ·)
  /-- Every pipeline of the program is in exactly one scope. -/
  pipelines : ((program.scopes.flatMap Scope.pipelines).map Prod.fst).Perm
    (program.pieces.filter Piece.isPipeline)
  /-- No variable is declared twice, neither in one scope nor in two. -/
  names : (program.scopes.flatMap Scope.names).Nodup
  /-- A pipeline gives its values to the variable with its number. -/
  references : ∀ p ∈ program.scopes.flatMap Scope.pipelines, ∀ text, p.1.HasText p.2 text →
    Occurs s!"(_ref{p.2} = " text
  /-- The variables of the outermost scope are declared first. -/
  statements : g.statements =
    (program.scope.pipelines.map fun p => s!"let _ref{p.2};") ++ g.body
  /-- The other statements are those of the program, one for one. -/
  body : List.Forall₂ (fun stmt text => ∃ s s' full, stmtText stmt s = .ok (full, s') ∧
    text = trimEnd full) program.body g.body
  /-- The pipelines of the outermost scope stand in these statements. -/
  outer : ∀ p ∈ program.scope.pipelines, ∃ text, p.1.HasText p.2 text ∧ OccursAmong text g.body
  /-- So do the inner scopes, each with the declarations of its variables before its lines and its
  pipelines in these lines. -/
  inner : ∀ scope ∈ program.innerScopes, scope.Visible fun text => OccursAmong (trimEnd text) g.body
  /-- The text declares the variable of a pipeline once for each copy of its scope, unless the
  program itself has such a declaration somewhere. -/
  declared : List.Forall₂ (fun scope copies => ∀ p ∈ scope.pipelines, program.DoesNotDeclare p.2 →
    declarationCount p.2 g.text = copies) program.scopes program.copies
  /-- If no assignment writes its target twice, there is one copy of each scope. -/
  singleCopies : (∀ target op value, Piece.stmt (.assign target op value) ∈ program.pieces →
    op.timesWritten target = 1) → ∀ copies ∈ program.copies, copies = 1

/-- Every statement is lowered to a text of its own. -/
theorem forall₂_of_stmtTexts {stmts : List Stmt} {texts : List String} {s s' : Emitter}
    (h : stmtTexts stmts s = .ok (texts, s')) :
    List.Forall₂ (fun stmt text => ∃ s s', stmtText stmt s = .ok (text, s')) stmts texts := by
  induction stmts generalizing s texts with
  | nil =>
      cases h
      exact .nil
  | cons stmt stmts ih =>
      obtain ⟨text, s₁, hfirst, hrest⟩ := bind_eq_ok h
      obtain ⟨texts, s₂, hlater, ⟨⟩⟩ := bind_eq_ok hrest
      exact .cons ⟨s, s₁, hfirst⟩ (ih hlater)

theorem reference_injective : Function.Injective reference :=
  fun _ _ h => (append_toString_inj (by decide) (by decide) h).2

theorem nodup_scopeNames (program : Program) : (program.scopes.flatMap Scope.names).Nodup := by
  have hnames : program.scopes.flatMap Scope.names =
      ((program.scopes.flatMap Scope.pipelines).map Prod.snd).map reference := by
    rw [List.map_map, List.map_flatMap]
    rfl
  rw [hnames]
  exact program.nodup_numbers.map reference_injective

theorem declaredBy_eq_zero {n : Nat} {scopes : List Scope} (copies : List Nat)
    (h : reference n ∉ scopes.flatMap Scope.names) : declaredBy n scopes copies = 0 := by
  induction scopes generalizing copies with
  | nil => rfl
  | cons scope scopes ih =>
      rw [List.flatMap_cons, List.mem_append, not_or] at h
      cases copies with
      | nil => rfl
      | cons c copies =>
          rw [declaredBy_cons, List.count_eq_zero.mpr h.1, ih copies h.2, Nat.mul_zero]

/-- Where no variable is declared by two scopes, the copies of its scope count. -/
theorem declaredBy_of_mem_zip {n c : Nat} {scope : Scope} {scopes : List Scope} {copies : List Nat}
    (hnames : (scopes.flatMap Scope.names).Nodup) (hscope : (scope, c) ∈ scopes.zip copies)
    (hn : reference n ∈ scope.names) : declaredBy n scopes copies = c := by
  induction scopes generalizing copies with
  | nil => cases hscope
  | cons first scopes ih =>
      cases copies with
      | nil => cases hscope
      | cons d copies =>
          rw [List.flatMap_cons, List.nodup_append'] at hnames
          obtain ⟨hfirst, hrest, hdisjoint⟩ := hnames
          rw [declaredBy_cons]
          rcases List.mem_cons.mp hscope with heq | hlater
          · obtain ⟨rfl, rfl⟩ := Prod.mk.inj heq
            rw [List.count_eq_one_of_mem hfirst hn, declaredBy_eq_zero copies (hdisjoint hn),
              Nat.mul_one, Nat.add_zero]
          · have hmem : reference n ∈ scopes.flatMap Scope.names :=
              List.mem_flatMap.mpr ⟨scope, (List.of_mem_zip hlater).1, hn⟩
            rw [List.count_eq_zero.mpr fun h => hdisjoint h hmem, ih hrest hlater, Nat.mul_zero,
              Nat.zero_add]

theorem forall₂_declarationCount {program : Program} {g : Generated}
    (hgenerate : generate program = .ok g) :
    List.Forall₂ (fun scope copies => ∀ p ∈ scope.pipelines, program.DoesNotDeclare p.2 →
      declarationCount p.2 g.text = copies) program.scopes program.copies := by
  refine List.forall₂_iff_zip.mpr ⟨?_, fun {scope copies} hscope p hp hprogram => ?_⟩
  · exact congrArg (· + 1) ((Piece.program program).length_scopes 0)
  · rw [declarationCount_text hgenerate hprogram]
    exact declaredBy_of_mem_zip (nodup_scopeNames program) hscope (List.mem_map_of_mem hp)

theorem timesWritten_of_mem_pieces {program : Program}
    (h : ∀ target op value, Piece.stmt (.assign target op value) ∈ program.pieces →
      op.timesWritten target = 1) {p : Piece} (hp : p ∈ program.pieces) (q : Piece) :
    p.timesWritten q = 1 := by
  unfold Piece.timesWritten
  split
  · exact h _ _ _ hp
  · rfl

theorem occurs_reference {p : Piece} {n : Nat} {text : String} (hp : p.isPipeline = true)
    (htext : p.HasText n text) : Occurs s!"(_ref{n} = " text := by
  unfold Piece.isPipeline at hp
  split at hp
  case h_1 head stages => exact htext.occurs rfl List.mem_cons_self
  case h_2 => cases hp

/-- The variables of all pipelines are declared, each at the top of the innermost scope that the
pipeline is in. -/
theorem generate_hoists {program : Program} {g : Generated}
    (hgenerate : generate program = .ok g) : Hoisted program g := by
  obtain ⟨texts, s, hrun, htrim, hmeets, hhoisted, -⟩ := exists_meets_of_generate hgenerate
  exact
    { blocks := program.blocks_perm
      own := fun scope hscope => program.pipelines_of_mem_scopes hscope
      increasing := fun scope _ => scope.pairwise_pipelines
      pipelines := program.pipelines_perm
      names := nodup_scopeNames program
      references := by
        intro p hp text htext
        obtain ⟨scope, -, hscope⟩ := List.mem_flatMap.mp hp
        exact occurs_reference (List.mem_filter.mp hscope).2 htext
      statements := by
        rw [Generated.statements, hhoisted, Scope.names, namesFrom, List.map_map]
        rfl
      body := by
        rw [htrim, List.forall₂_map_right_iff]
        refine (forall₂_of_stmtTexts hrun).imp ?_
        rintro _ _ ⟨s, s', hstmt⟩
        exact ⟨s, s', _, hstmt, rfl⟩
      outer := by
        intro p hp
        obtain ⟨hown, hpipeline⟩ := List.mem_filter.mp hp
        obtain ⟨text, htext, hseen⟩ :=
          hmeets.visible.constructs p ((ownFrom_sublist _ _).subset hown)
        rw [(htext.trimmed (isNumbered_of_isPipeline hpipeline)).2] at hseen
        exact ⟨text, htext, hseen⟩
      inner := hmeets.visible.scopes
      declared := forall₂_declarationCount hgenerate
      singleCopies := fun h => List.forall_mem_cons.mpr
        ⟨rfl, Piece.copies_eq_one fun p hp => timesWritten_of_mem_pieces h hp⟩ }

/-- A function with a pipeline for a parameter, one in its body and one in the arrow function that
it returns; then a block used as an expression. -/
def nestedPipelines : Program :=
  let pipe (value callee : String) : Expr := .pipeline (.ident value) [.call (.ident callee)]
  ⟨[.function ⟨some "f", [⟨.ident "a", some (pipe "x" "g"), false⟩],
      ⟨[.expr (pipe "a" "h")],
        some (.function ⟨none, [], ⟨[], some (pipe "b" "k")⟩, false, false, true⟩)⟩,
      false, false, false⟩,
    .expr (.doBlock ⟨[], some (pipe "c" "m")⟩)]⟩

/-- What is generated for it: each variable is declared in the scope of its pipeline. -/
def nestedGenerated : Generated where
  hoisted := ["_ref1"]
  body :=
    ["function f(a = (_ref1 = x, _ref1 = g(_ref1), _ref1)) \x7b\n" ++
      "  let _ref2;\n" ++
      "  (_ref2 = a, _ref2 = h(_ref2), _ref2);\n" ++
      "  return () => \x7b\n" ++
      "    let _ref3;\n" ++
      "    return (_ref3 = b, _ref3 = k(_ref3), _ref3);\n" ++
      "  \x7d;\n" ++
      "\x7d",
    "(() => \x7b\n" ++
      "  let _ref4;\n" ++
      "  return (_ref4 = c, _ref4 = m(_ref4), _ref4);\n" ++
      "\x7d)();"]
  helpers := {}

theorem nestedPipelines_hoisted :
    generate nestedPipelines = .ok nestedGenerated ∧ Hoisted nestedPipelines nestedGenerated := by
  have htrimmed : ∀ t ∈ nestedGenerated.body, Trimmed t := by
    simp only [nestedGenerated, List.mem_cons, List.not_mem_nil, or_false, forall_eq_or_imp,
      forall_eq]
    exact ⟨.append (by decide), .append (by decide)⟩
  have hgenerate : generate nestedPipelines = .ok nestedGenerated :=
    generate_of_trimmed (by decide +kernel) htrimmed
  exact ⟨hgenerate, generate_hoists hgenerate⟩

/-- A block with a pipeline, as the object whose item a compound assignment changes. -/
def doubledBlock : Program :=
  let block : Block := ⟨[], some (.pipeline (.ident "x") [.call (.ident "f")])⟩
  ⟨[.assign (.index (.doBlock block) (.ident "i")) .add (.number "1")]⟩

/-- The item is read and written, and the block is in both places. -/
def doubledGenerated : Generated where
  hoisted := []
  body :=
    ["_set((() => \x7b\n" ++
      "  let _ref1;\n" ++
      "  return (_ref1 = x, _ref1 = f(_ref1), _ref1);\n" ++
      "\x7d)(), i, (_get((() => \x7b\n" ++
      "  let _ref1;\n" ++
      "  return (_ref1 = x, _ref1 = f(_ref1), _ref1);\n" ++
      "\x7d)(), i) + 1));"]
  helpers := ⟨[.set, .get]⟩

/-- A function with a pipeline that itself declares a variable of that name. -/
def ownReference : Program :=
  ⟨[.function ⟨some "g", [], ⟨[.decl .letDecl (.ident "_ref1") (some (.number "0"))],
    some (.pipeline (.ident "x") [.call (.ident "f")])⟩, false, false, false⟩]⟩

/-- What is generated for it, a text that JavaScript rejects. -/
def ownReferenceGenerated : Generated where
  hoisted := []
  body :=
    ["function g() \x7b\n" ++
      "  let _ref1;\n" ++
      "  let _ref1 = 0;\n" ++
      "  return (_ref1 = x, _ref1 = f(_ref1), _ref1);\n" ++
      "\x7d"]
  helpers := {}

/-- A program with one pipeline can declare its variable twice. -/
theorem onePipeline_declaredTwice :
    ((doubledBlock.pieces.filter Piece.isPipeline).length = 1 ∧
      generate doubledBlock = .ok doubledGenerated ∧
      declarationCount 1 doubledGenerated.text = 2) ∧
    (ownReference.pieces.filter Piece.isPipeline).length = 1 ∧
      generate ownReference = .ok ownReferenceGenerated ∧
      declarationCount 1 ownReferenceGenerated.text = 2 := by
  have hdoubled : ∀ t ∈ doubledGenerated.body, Trimmed t :=
    List.forall_mem_singleton.mpr (.append (by decide))
  have hown : ∀ t ∈ ownReferenceGenerated.body, Trimmed t :=
    List.forall_mem_singleton.mpr (.append (by decide))
  exact ⟨⟨rfl, generate_of_trimmed (by decide +kernel) hdoubled, by decide +kernel⟩,
    rfl, generate_of_trimmed (by decide +kernel) hown, by decide +kernel⟩

end JavaScript

end PegScript

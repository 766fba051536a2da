import PegScript.Proofs.Language.Values

/-!
# The values of expressions

Each rule for expressions keeps what is known of its values.  Where an action puts nodes together
with a function of its own, one lemma says that the function keeps well-formedness.
-/

namespace PegScript

namespace Language

open Expression

/-! ## Functions that put expressions together -/

theorem sound_withStages {head : Expr} {stages : List PipeStage}
    (hhead : Sound head.pieces) (hstages : ∀ s ∈ stages, Sound s.pieces) :
    Sound (withStages head stages).pieces := by
  cases stages with
  | nil => exact hhead
  | cons stage stages =>
      simp only [withStages, Expr.pieces, Everywhere.cons, Everywhere.append,
        Everywhere.stages]
      exact ⟨⟨List.cons_ne_nil _ _, trivial⟩, hhead, hstages⟩

theorem sound_foldOperands {tail : List Operand} {head : Expr}
    (hhead : Sound head.pieces) (htail : ∀ o ∈ tail, Sound o.right.pieces) :
    Sound (foldOperands head tail).pieces := by
  induction tail generalizing head with
  | nil => exact hhead
  | cons o tail ih =>
      obtain ⟨ho, htail⟩ := List.forall_mem_cons.mp htail
      refine ih ?_ htail
      simp only [Expr.pieces, Everywhere.cons, Everywhere.append]
      exact ⟨⟨trivial, trivial⟩, hhead, ho⟩

theorem sound_applySuffix {object : Expr} {s : Suffix}
    (hobject : Sound object.pieces) (hs : SoundSuffix s) :
    Sound (applySuffix object s).pieces := by
  cases s <;> simp_all [applySuffix, SoundSuffix, Suffix.pieces, Suffix.Named]

theorem sound_foldSuffix {tail : List Suffix} {head : Expr}
    (hhead : Sound head.pieces) (htail : ∀ s ∈ tail, SoundSuffix s) :
    Sound (tail.foldl applySuffix head).pieces := by
  induction tail generalizing head with
  | nil => exact hhead
  | cons s tail ih =>
      obtain ⟨hs, htail⟩ := List.forall_mem_cons.mp htail
      exact ih (sound_applySuffix hhead hs) htail

theorem quiet_of_numberText? {e : Expr} {text : String} (he : Sound e.pieces)
    (h : numberText? e = some text) : Quiet text := by
  cases e <;> cases h
  simpa using he

theorem sound_constantOf (word : String) : Sound (constantOf word).pieces := by
  unfold constantOf
  split <;> simp

/-! ## Pipelines, ranges and operators -/

theorem keeps_expression : Keeps .expression := by
  simp +contextual [expression]

theorem keeps_yield : Keeps .yield := by
  simp +contextual [yieldExpr, buildYield, word]

theorem keeps_pipeline : Keeps .pipeline := by
  simp [pipeline]
  intro head hhead
  refine Term.ensures_star (fun s : PipeStage => Sound s.pieces) ?_ ?_
  · simp
  · intro stages hstages
    simpa [buildPipeline] using sound_withStages hhead hstages

theorem keeps_pipeStage : Keeps .pipeStage := by
  simp +contextual [pipeStage, buildCallStage]

theorem keeps_bindStage : Keeps .bindStage := by
  simp +contextual [bindStage, buildBindStage]

theorem keeps_range : Keeps .range := by
  simp +contextual [range, buildRange, word]

theorem keeps_conditional : Keeps .conditional := by
  simp +contextual [conditional, buildConditional]

/-- One level of binary operators, whatever they are. -/
theorem ensures_binaryLevel {next : Symbol} {op : Body}
    (hnext : ∀ v, Gives next v → v.Holds fun e : Expr => Sound e.pieces)
    (hop : op.Ensures Gives fun _ labels => labels = []) :
    (binaryLevel next op).Ensures Gives
      fun v _ => v.Holds fun e : Expr => Sound e.pieces := by
  simp [binaryLevel, -Gives]
  intro v hv
  obtain ⟨head, hhead, rfl⟩ := hnext v hv
  refine Term.ensures_star (fun o : Operand => Sound o.right.pieces) ?_ ?_
  · simp [-Gives]
    intro _
    refine Term.Ensures.mono op ?_ hop
    rintro _ labels rfl s _ v hv
    obtain ⟨right, hright, rfl⟩ := hnext v hv
    simp [buildOperand, hright]
  · intro tail htail
    simpa [buildBinary] using sound_foldOperands hhead htail

theorem keeps_coalesce : Keeps .coalesce :=
  ensures_binaryLevel (fun _ hv => hv) (by simp [symbol])

theorem keeps_or : Keeps .or :=
  ensures_binaryLevel (fun _ hv => hv) (by simp [symbol, word])

theorem keeps_and : Keeps .and :=
  ensures_binaryLevel (fun _ hv => hv) (by simp [symbol, word])

theorem keeps_equality : Keeps .equality :=
  ensures_binaryLevel (fun _ hv => hv) (by simp)

theorem keeps_relational : Keeps .relational :=
  ensures_binaryLevel (fun _ hv => hv) (by simp [word])

theorem keeps_additive : Keeps .additive :=
  ensures_binaryLevel (fun _ hv => hv) (by simp [symbol])

theorem keeps_multiplicative : Keeps .multiplicative :=
  ensures_binaryLevel (fun _ hv => hv) (by simp [symbol])

theorem keeps_exponent : Keeps .exponent := by
  simp +contextual [exponent, buildPower]

theorem keeps_unary : Keeps .unary := by
  simp +contextual [unary, buildAwait, buildUnary, word]

/-! ## Postfix operations -/

/-- An operand with postfix operations, whichever are allowed. -/
theorem ensures_suffixes {s : Symbol}
    (hs : ∀ v, Gives s v → v.Holds SoundSuffix) :
    (Term.action buildSuffixed (.seq [
      .label "head" (.rule .primary),
      .label "tail" (.star (.rule s))])).Ensures Gives
        fun v _ => v.Holds fun e : Expr => Sound e.pieces := by
  simp [-Gives]
  rintro v ⟨head, hhead, rfl⟩
  refine Term.ensures_star SoundSuffix ?_ ?_
  · simpa [-Gives] using hs
  · intro tail htail
    simpa [buildSuffixed] using sound_foldSuffix hhead htail

theorem keeps_suffixed : Keeps .suffixed :=
  ensures_suffixes fun _ hv => hv

theorem keeps_newCallee : Keeps .newCallee :=
  ensures_suffixes fun _ hv => hv

theorem keeps_suffix : Keeps .suffix := by
  simp +contextual [suffix]

/-- Arguments in parentheses. -/
theorem ensures_arguments {R : Value Piece → List (String × Value Piece) → Prop}
    {opening closing : String}
    (hsome : ∀ args : List Element, (∀ a ∈ args, Sound a.pieces) → R (.ofNodes args) [])
    (hnone : R .absent []) :
    (listOf .argument opening closing).Ensures Gives R :=
  ensures_listOf (fun a : Element => Sound a.pieces) (fun _ hv => hv) hsome hnone

theorem keeps_call : Keeps .call := by
  simp [call]
  refine ensures_arguments ?_ ?_ <;> simp +contextual [buildCall, SoundSuffix, Suffix.pieces, Suffix.Named]

theorem keeps_optionalCall : Keeps .optionalCall := by
  simp [optionalCall]
  intro _
  refine ensures_arguments ?_ ?_ <;> simp +contextual [buildCall, SoundSuffix, Suffix.pieces, Suffix.Named]

theorem keeps_optionalMember : Keeps .optionalMember := by
  simp [optionalMember, buildMember, SoundSuffix, Suffix.pieces, Suffix.Named]

theorem keeps_member : Keeps .member := by
  simp [member, buildMember, SoundSuffix, Suffix.pieces, Suffix.Named]

theorem keeps_index : Keeps .index := by
  simp +contextual [index, buildIndex, SoundSuffix, Suffix.pieces, Suffix.Named]

theorem keeps_argument : Keeps .argument := by
  simp +contextual [argument, spread, buildSpreadElement, buildElement]

/-! ## Operands -/

theorem keeps_primary : Keeps .primary := by
  simp +contextual [primary, buildIdent]

theorem keeps_literal : Keeps .literal := by
  simp [literal, buildLiteral, word, sound_constantOf]

theorem keeps_arrow : Keeps .arrow := by
  simp only [Keeps, body, arrow, Term.ensures_action, Term.ensures_seq,
    Term.ensuresSeq_cons, Term.ensures_label]
  refine Term.ensures_opt_any (by simp [word]) fun isAsync => ?_
  simp +contextual [buildArrow, SoundParams]

theorem keeps_arrowParams : Keeps .arrowParams := by
  simp [arrowParams, buildSingleParam]
  intro name hname
  refine ⟨[_], ⟨?_, RestLast.singleton rfl⟩, rfl⟩
  simpa using hname

theorem keeps_arrowBody : Keeps .arrowBody := by
  simp +contextual [arrowBody, buildTailBlock, Block.WellFormed]

theorem keeps_functionExpression : Keeps .functionExpression := by
  simp only [Keeps, body, functionExpression, word, Term.ensures_action, Term.ensures_seq,
    Term.ensuresSeq_cons, Term.ensuresSeq_nil, Term.ensures_label, Term.ensures_lit,
    Term.ensures_not]
  refine Term.ensures_opt_any (by simp) fun isAsync _ => ?_
  refine Term.ensures_opt_any (by simp) fun isGenerator => ?_
  simp +contextual [buildFunctionExpression, SoundParams]

theorem keeps_doExpression : Keeps .doExpression := by
  simp +contextual [doExpression, buildDo, word]

theorem keeps_newExpression : Keeps .newExpression := by
  simp [newExpression, word]
  intro _ _ callee hcallee
  constructor
  · refine ensures_arguments ?_ ?_ <;> simp +contextual [buildNew, hcallee]
  · simp [buildNew, hcallee]

theorem keeps_parenthesized : Keeps .parenthesized := by
  simp +contextual [parenthesized]

theorem keeps_array : Keeps .array := by
  simp [array]
  refine ensures_arguments ?_ ?_ <;> simp +contextual [buildArray]

theorem keeps_object : Keeps .object := by
  simp [object]
  refine ensures_listOf (fun p : Property => Sound p.pieces) (fun _ hv => hv) ?_ ?_ <;>
    simp +contextual [buildObject]

theorem keeps_property : Keeps .property := by
  simp +contextual [property, spread, buildSpreadProperty, buildKeyValue,
    buildShorthand]

theorem keeps_propertyKey : Keeps .propertyKey := by
  simp +contextual [propertyKey, buildIdentKey, buildStringKey,
    buildNumberKey, buildComputedKey]
  intro e he text htext
  exact quiet_of_numberText? he htext

end Language

end PegScript

import Mathlib.Algebra.Order.Group.Multiset
import Mathlib.Tactic.Abel
import PegScript.JavaScript.Generate
import PegScript.Proofs.JavaScript.Emitter
import PegScript.Proofs.Tree.Pieces

/-!
# What lowering does besides giving a text

Lowering notes helpers, takes numbers for fresh names and gives up at a defect.  Which of this a
piece of the tree causes is written down for each kind of piece (`Piece.effects`).  The main result
is that lowering a tree has exactly the effects of all of its pieces (`Costs`), and otherwise leaves
the state as it was, up to more names in the innermost scope.  So every piece is visited, and the
order of the visits does not matter.
-/

namespace PegScript

open JavaScript

/-- Something that lowering does besides giving a text. -/
inductive Effect where
  /-- Notes that a helper is needed. -/
  | helper (helper : Helper)
  /-- Takes the next number for fresh names. -/
  | number
  /-- Gives up. -/
  | defect (defect : Defect)
deriving DecidableEq

/-- A compound assignment to an item reads the item. -/
def AssignOp.effects (op : AssignOp) : Multiset Effect :=
  if op = .assign then 0 else {.helper .get}

/-- The effects of a piece itself, the pieces below it apart. -/
def Piece.effects : Piece → Multiset Effect
  | .expr (.index _ index) => if isStaticIndex index then 0 else {.helper .get}
  | .expr (.pipeline _ stages) => if stages.isEmpty then {.defect .emptyPipeline} else {.number}
  | .expr (.range ..) => {.helper .range}
  | .stmt (.decl kind target none) =>
    if kind = .constDecl || !isIdentPattern target then {.defect .missingInitializer} else 0
  | .stmt (.assign (.index _ index) op _) =>
    if isStaticIndex index then 0 else {.helper .set} + op.effects
  | .stmt (.assign (.pattern _) op _) =>
    if op = .assign then 0 else {.defect .compoundDestructuring}
  | .stmt (.forRange ..) => {.number}
  | .stmt (.guard _ guarded _ _) =>
    {.number} + {.helper (if guarded.awaits then .safeAsync else .safe)}
  | .stmt (.function f) => if f.name.isNone then {.defect .anonymousDeclaration} else 0
  | .stmt (.exportDecl decl) => if isDeclaration decl then 0 else {.defect .invalidExport}
  | _ => 0

/-- The effects of all pieces of a tree. -/
def effectsOf (pieces : List Piece) : Multiset Effect :=
  (pieces.map Piece.effects).sum

@[simp]
theorem effectsOf_nil : effectsOf [] = 0 := rfl

@[simp]
theorem effectsOf_cons (piece : Piece) (pieces : List Piece) :
    effectsOf (piece :: pieces) = piece.effects + effectsOf pieces := by
  simp [effectsOf]

@[simp]
theorem effectsOf_append (pieces pieces' : List Piece) :
    effectsOf (pieces ++ pieces') = effectsOf pieces + effectsOf pieces' := by
  simp [effectsOf]

theorem mem_effectsOf {effect : Effect} {pieces : List Piece} :
    effect ∈ effectsOf pieces ↔ ∃ piece ∈ pieces, effect ∈ piece.effects := by
  induction pieces with
  | nil => simp
  | cons piece pieces ih => simp [ih]

theorem HelperSet.contains_insert (helpers : HelperSet) (h h' : Helper) :
    (helpers.insert h).contains h' = true ↔ helpers.contains h' = true ∨ h' = h := by
  unfold HelperSet.insert
  split
  case isTrue hmem =>
    refine ⟨Or.inl, ?_⟩
    rintro (h | rfl)
    · exact h
    · exact hmem
  case isFalse => simp [HelperSet.contains]

namespace JavaScript

open Lower

variable {α β : Type}

/-- The later state differs from the earlier one by these effects: the helpers are the earlier ones
and those needed, the counter went on, and only the innermost scope has got more names. -/
structure Advances (effects : Multiset Effect) (s s' : Emitter) : Prop where
  helpers : ∀ h, s'.helpers.contains h = true ↔
    s.helpers.contains h = true ∨ Effect.helper h ∈ effects
  counter : s'.counter = s.counter + effects.count .number
  scopes : ∃ names, s'.scopes = s.scopes.modifyHead (· ++ names)
  rebind : s'.rebind = s.rebind
  level : s'.level = s.level

/-- The lowering has these effects: it succeeds if there is no defect among them, and otherwise it
fails with one of the defects. -/
def Costs (effects : Multiset Effect) (m : Lower α) : Prop :=
  ∀ s, (∀ a s', m s = .ok (a, s') → Advances effects s s' ∧ ∀ d, Effect.defect d ∉ effects) ∧
    ∀ d, m s = .error d → Effect.defect d ∈ effects

theorem Advances.refl (s : Emitter) : Advances 0 s s := by
  refine ⟨by simp, by simp, ⟨[], ?_⟩, rfl, rfl⟩
  cases s.scopes <;> simp

theorem Advances.trans {p q : Multiset Effect} {s s' s'' : Emitter} (h : Advances p s s')
    (h' : Advances q s' s'') : Advances (p + q) s s'' := by
  refine ⟨?_, ?_, ?_, h'.rebind.trans h.rebind, h'.level.trans h.level⟩
  · intro helper
    rw [h'.helpers, h.helpers, Multiset.mem_add, or_assoc]
  · rw [h'.counter, h.counter, Multiset.count_add, Nat.add_assoc]
  · obtain ⟨names, hnames⟩ := h.scopes
    obtain ⟨names', hnames'⟩ := h'.scopes
    refine ⟨names ++ names', ?_⟩
    rw [hnames', hnames]
    cases s.scopes <;> simp

theorem costs_pure (a : α) : Costs 0 (pure a) := by
  intro s
  refine ⟨?_, by rintro d ⟨⟩⟩
  rintro b s' ⟨⟩
  exact ⟨.refl s, by simp⟩

theorem Costs.bind {p q : Multiset Effect} {m : Lower α} {f : α → Lower β} (hm : Costs p m)
    (hf : ∀ a, Costs q (f a)) : Costs (p + q) (m >>= f) := by
  intro s
  constructor
  · intro b s'' h
    obtain ⟨a, s', hfirst, hsecond⟩ := bind_eq_ok h
    obtain ⟨hadvances, hclean⟩ := (hm s).1 a s' hfirst
    obtain ⟨hadvances', hclean'⟩ := (hf a s').1 b s'' hsecond
    refine ⟨hadvances.trans hadvances', ?_⟩
    intro d hd
    rcases Multiset.mem_add.mp hd with hd | hd
    · exact hclean d hd
    · exact hclean' d hd
  · intro d h
    rcases bind_eq_error h with hfirst | ⟨a, s', -, hsecond⟩
    · exact Multiset.mem_add.mpr (Or.inl ((hm s).2 d hfirst))
    · exact Multiset.mem_add.mpr (Or.inr ((hf a s').2 d hsecond))

/-- Giving a result of what a lowering gave has no effects of its own. -/
theorem Costs.map {p : Multiset Effect} {m : Lower α} (hm : Costs p m) (f : α → β) :
    Costs p (do return f (← m)) := by
  have h := hm.bind fun a => costs_pure (f a)
  rw [add_zero] at h
  exact h

theorem Costs.of_eq {p q : Multiset Effect} {m : Lower α} (h : Costs p m) (heq : p = q) :
    Costs q m :=
  heq ▸ h

theorem costs_throw {p : Multiset Effect} {d : Defect} (hd : Effect.defect d ∈ p) :
    Costs p (throw d : Lower α) := by
  intro s
  refine ⟨by rintro a s' ⟨⟩, ?_⟩
  rintro d' ⟨⟩
  exact hd

/-- A step that always succeeds. -/
theorem costs_of_apply {p : Multiset Effect} {m : Lower α} (a : Emitter → α)
    (f : Emitter → Emitter) (h : ∀ s, m s = .ok (a s, f s)) (hf : ∀ s, Advances p s (f s))
    (hclean : ∀ d, Effect.defect d ∉ p) : Costs p m := by
  intro s
  rw [h s]
  refine ⟨?_, by rintro d ⟨⟩⟩
  rintro b s' ⟨⟩
  exact ⟨hf s, hclean⟩

theorem costs_need (h : Helper) : Costs {.helper h} (need h) := by
  refine costs_of_apply _ _ (need_apply h) (fun s => ?_) (by simp)
  refine ⟨?_, by simp, (Advances.refl s).scopes, rfl, rfl⟩
  intro h'
  simp only [HelperSet.contains_insert, Multiset.mem_singleton, Effect.helper.injEq]

theorem costs_freshNumber : Costs {.number} freshNumber := by
  refine costs_of_apply _ _ freshNumber_apply (fun s => ?_) (by simp)
  exact ⟨by simp, by simp, (Advances.refl s).scopes, rfl, rfl⟩

theorem costs_hoist (name : String) : Costs 0 (hoist name) := by
  refine costs_of_apply _ _ (hoist_apply name) (fun s => ?_) (by simp)
  exact ⟨by simp, by simp, ⟨[name], addToScope_eq name s.scopes⟩, rfl, rfl⟩

theorem costs_readAs (name : String) : Costs 0 (readAs name) :=
  costs_of_apply _ _ (readAs_apply name) Advances.refl (by simp)

theorem costs_indentation : Costs 0 indentation :=
  costs_of_apply _ _ (fun _ => rfl) Advances.refl (by simp)

theorem costs_line (text : String) : Costs 0 (line text) :=
  costs_of_apply _ _ (line_apply text) Advances.refl (by simp)

/-- Preparing the state, lowering and cleaning up the state again. -/
theorem Costs.around {p : Multiset Effect} {m : Lower α} {m' : Lower β} (hm : Costs p m)
    (before : Emitter → Emitter) (after : Emitter → α × Emitter → β × Emitter)
    (h : ∀ s, m' s = (m (before s)).map (after s))
    (hafter : ∀ s a s', Advances p (before s) s' → Advances p s (after s (a, s')).2) :
    Costs p m' := by
  intro s
  rw [h s]
  cases hrun : m (before s) with
  | error d =>
      refine ⟨by rintro b s' ⟨⟩, ?_⟩
      rintro d' ⟨⟩
      exact (hm (before s)).2 d hrun
  | ok r =>
      obtain ⟨hadvances, hclean⟩ := (hm (before s)).1 r.1 r.2 hrun
      refine ⟨?_, by rintro d ⟨⟩⟩
      intro b s' heq
      have hstate : (after s r).2 = s' := congrArg Prod.snd (Except.ok.inj heq)
      rw [← hstate]
      exact ⟨hafter s r.1 r.2 hadvances, hclean⟩

theorem Costs.indented {p : Multiset Effect} {m : Lower α} (hm : Costs p m) :
    Costs p (indented m) := by
  refine hm.around _ _ (indented_apply m) ?_
  intro s a s' h
  refine ⟨h.helpers, h.counter, h.scopes, h.rebind, ?_⟩
  rw [h.level, Nat.add_sub_cancel]

theorem Costs.inScope {p : Multiset Effect} {m : Lower α} (hm : Costs p m) :
    Costs p (inScope m) := by
  refine hm.around _ _ (inScope_apply m) ?_
  intro s a s' h
  obtain ⟨names, hnames⟩ := h.scopes
  have htail : s'.scopes.tail = s.scopes := by
    rw [hnames]
    rfl
  obtain ⟨none, hnone⟩ := (Advances.refl s).scopes
  exact ⟨h.helpers, h.counter, ⟨none, htail.trans hnone⟩, h.rebind, h.level⟩

theorem Costs.rebinding {p : Multiset Effect} {m : Lower α} (hm : Costs p m)
    (name reference : String) : Costs p (rebinding name reference m) := by
  refine hm.around _ _ (rebinding_apply name reference m) ?_
  intro s a s' h
  exact ⟨h.helpers, h.counter, h.scopes, rfl, h.level⟩

/-! ## Bodies -/

theorem costs_declarations (names : List String) : Costs 0 (declarations names) :=
  costs_of_apply _ _ (declarations_apply names) Advances.refl (by simp)

theorem Costs.braces {p : Multiset Effect} {m : Lower String} (hm : Costs p m) :
    Costs p (braces m) := by
  have h := hm.indented.bind fun text =>
    costs_indentation.map fun blanks => " \x7b\n" ++ text ++ blanks ++ "\x7d"
  rw [add_zero] at h
  exact h

theorem Costs.functionBody {p : Multiset Effect} {m : Lower String} (hm : Costs p m) :
    Costs p (functionBody m) := by
  have h := hm.indented.inScope.bind (q := 0) (f := fun r =>
    if r.1.isEmpty && r.2.isEmpty then pure " \x7b\x7d"
    else Lower.braces do return (← declarations r.2) ++ r.1) ?_
  · rw [add_zero] at h
    exact h
  · intro r
    split
    · exact costs_pure _
    · exact ((costs_declarations r.2).map (· ++ r.1)).braces

theorem Costs.arrowTail {p : Multiset Effect} {m : Lower String} (hm : Costs p m) :
    Costs p (arrowTail m) := by
  have h := hm.indented.inScope.bind (q := 0) (f := fun r =>
    if r.2.isEmpty then pure (" " ++ arrowResult r.1)
    else Lower.braces do
      return (← declarations r.2) ++ (← line (tailText .returned r.1))) ?_
  · rw [add_zero] at h
    exact h
  · intro r
    split
    · exact costs_pure _
    · have hlines := (costs_declarations r.2).bind fun text =>
        (costs_line (tailText .returned r.1)).map (text ++ ·)
      exact hlines.braces

theorem Costs.guardText {p q r : Multiset Effect} {expr fallback : Lower String}
    {binding : Lower (Option String)} (hexpr : Costs p expr) (hfallback : Costs q fallback)
    (hbinding : Costs r binding) (isAsync : Bool) (error : String) :
    Costs ({.number} + {.helper (if isAsync then .safeAsync else .safe)} + (r + p + q))
      (guardText isAsync expr error fallback binding) := by
  have hfailed (text : String) : Costs q
      (Lower.braces do return (← line text) ++ (← fallback)) := by
    have h := (costs_line text).bind fun first => hfallback.map (first ++ ·)
    rw [zero_add] at h
    exact h.braces
  refine Costs.of_eq (costs_freshNumber.bind fun id => (costs_need _).bind fun safe =>
    hexpr.bind fun body => (hfailed _).bind fun failed => costs_indentation.bind fun start =>
      hbinding.bind fun bound => costs_pure _) ?_
  abel

/-! ## Every tree has the effects of its pieces -/

/-- A string without interpolation has no effects. -/
theorem effectsOf_of_singleLine {parts : List StrPart} {text : String}
    (h : singleLine? parts = some text) : effectsOf (partsPieces parts) = 0 := by
  unfold singleLine? at h
  split at h
  · rfl
  · simp [partsPieces, Piece.effects]
  · cases h

mutual

theorem costs_exprText : ∀ e : Expr, Costs (effectsOf e.pieces) (exprText e)
  | .number _ => (costs_pure _).of_eq (by simp [Piece.effects])
  | .str parts => by
      rw [exprText]
      split
      case h_1 text hline =>
        refine (costs_pure _).of_eq ?_
        simp [Piece.effects, effectsOf_of_singleLine hline]
      case h_2 => exact ((costs_partTexts parts).map _).of_eq (by simp [Piece.effects])
  | .rawStr _ => (costs_pure _).of_eq (by simp [Piece.effects])
  | .bool _ => (costs_pure _).of_eq (by simp [Piece.effects])
  | .null => (costs_pure _).of_eq (by simp [Piece.effects])
  | .undefined => (costs_pure _).of_eq (by simp [Piece.effects])
  | .this => (costs_pure _).of_eq (by simp [Piece.effects])
  | .ident name => (costs_readAs name).of_eq (by simp [Piece.effects])
  | .array items => ((costs_elementTexts items).map _).of_eq (by simp [Piece.effects])
  | .object props => ((costs_propertyTexts props).map _).of_eq (by simp [Piece.effects])
  | .function f => (costs_functionText f).of_eq (by simp [Piece.effects])
  | .doBlock block => ((costs_scopeText block).map _).of_eq (by simp [Piece.effects])
  | .unary _ operand => ((costs_exprText operand).map _).of_eq (by simp [Piece.effects])
  | .binary _ left right =>
      ((costs_exprText left).bind fun _ => (costs_exprText right).map _).of_eq
        (by simp [Piece.effects])
  | .conditional test consequent alternate =>
      ((costs_exprText test).bind fun _ => (costs_exprText consequent).bind fun _ =>
        (costs_exprText alternate).map _).of_eq (by simp [Piece.effects])
  | .call callee args _ =>
      ((costs_exprText callee).bind fun _ => (costs_elementTexts args).map _).of_eq
        (by simp [Piece.effects])
  | .new callee args =>
      ((costs_exprText callee).bind fun _ => (costs_elementTexts args).map _).of_eq
        (by simp [Piece.effects])
  | .member object _ _ => ((costs_exprText object).map _).of_eq (by simp [Piece.effects])
  | .index object index => by
      rw [exprText]
      have hparts (f : String → String → String) : Costs
          (effectsOf object.pieces + effectsOf index.pieces)
          (do let o ← exprText object
              let i ← exprText index
              return f o i) :=
        (costs_exprText object).bind fun o => (costs_exprText index).map _
      split
      case isTrue hstatic => exact (hparts _).of_eq (by simp [Piece.effects, hstatic])
      case isFalse hstatic =>
        exact ((costs_need .get).bind fun get => hparts _).of_eq (by simp [Piece.effects, hstatic])
  | .pipeline head stages => by
      rw [exprText]
      split
      case isTrue hempty => exact costs_throw (by simp [Piece.effects, hempty])
      case isFalse hempty =>
        refine Costs.of_eq (costs_freshNumber.bind fun id => (costs_hoist _).bind fun _ =>
          (costs_exprText head).bind fun h => (costs_stageTexts _ stages).map _) ?_
        simp [Piece.effects, hempty]
  | .range start stop step =>
      ((costs_need .range).bind fun _ => (costs_exprText start).bind fun _ =>
        (costs_exprText stop).bind fun _ => (costs_exprText? step).map _).of_eq
          (by simp [Piece.effects])
  | .await operand => ((costs_exprText operand).map _).of_eq (by simp [Piece.effects])
  | .yield argument delegate => by
      refine Costs.of_eq ((costs_exprText? argument).bind (q := 0) fun text => ?_)
        (by simp [Piece.effects])
      cases text with
      | none => exact costs_pure _
      | some text => exact costs_pure _

theorem costs_exprText? : ∀ e : Option Expr, Costs (effectsOf (exprPieces? e)) (exprText? e)
  | none => costs_pure none
  | some e => (costs_exprText e).map _

theorem costs_partText : ∀ part : StrPart, Costs (effectsOf part.pieces) (partText part)
  | .text _ => (costs_pure _).of_eq (by simp [Piece.effects])
  | .expr e => ((costs_exprText e).map _).of_eq (by simp [Piece.effects])

theorem costs_partTexts : ∀ parts : List StrPart,
    Costs (effectsOf (partsPieces parts)) (partTexts parts)
  | [] => costs_pure []
  | part :: parts =>
      ((costs_partText part).bind fun _ => (costs_partTexts parts).map _).of_eq
        (effectsOf_append _ _).symm

theorem costs_elementText : ∀ element : Element,
    Costs (effectsOf element.pieces) (elementText element)
  | .expr e => ((costs_exprText e).map _).of_eq (by simp [Piece.effects])
  | .spread e => ((costs_exprText e).map _).of_eq (by simp [Piece.effects])

theorem costs_elementTexts : ∀ elements : List Element,
    Costs (effectsOf (elementsPieces elements)) (elementTexts elements)
  | [] => costs_pure []
  | element :: elements =>
      ((costs_elementText element).bind fun _ => (costs_elementTexts elements).map _).of_eq
        (effectsOf_append _ _).symm

theorem costs_propertyText : ∀ prop : Property,
    Costs (effectsOf prop.pieces) (propertyText prop)
  | .keyValue key value =>
      ((costs_keyText key).bind fun _ => (costs_exprText value).map _).of_eq
        (by simp [Piece.effects])
  | .shorthand name => ((costs_readAs name).map _).of_eq (by simp [Piece.effects])
  | .spread e => ((costs_exprText e).map _).of_eq (by simp [Piece.effects])

theorem costs_propertyTexts : ∀ props : List Property,
    Costs (effectsOf (propertiesPieces props)) (propertyTexts props)
  | [] => costs_pure []
  | prop :: props =>
      ((costs_propertyText prop).bind fun _ => (costs_propertyTexts props).map _).of_eq
        (effectsOf_append _ _).symm

theorem costs_keyText : ∀ key : PropertyKey, Costs (effectsOf key.pieces) (keyText key)
  | .ident _ => (costs_pure _).of_eq (by simp [Piece.effects])
  | .str _ => (costs_pure _).of_eq (by simp [Piece.effects])
  | .number _ => (costs_pure _).of_eq (by simp [Piece.effects])
  | .computed e => ((costs_exprText e).map _).of_eq (by simp [Piece.effects])

theorem costs_stageText (reference : String) : ∀ stage : PipeStage,
    Costs (effectsOf stage.pieces) (stageText reference stage)
  | .bind name e =>
      (((costs_exprText e).rebinding name reference).map _).of_eq (by simp [Piece.effects])
  | .call callee => ((costs_exprText callee).map _).of_eq (by simp [Piece.effects])

theorem costs_stageTexts (reference : String) : ∀ stages : List PipeStage,
    Costs (effectsOf (stagesPieces stages)) (stageTexts reference stages)
  | [] => costs_pure []
  | stage :: stages =>
      ((costs_stageText reference stage).bind fun _ =>
        (costs_stageTexts reference stages).map _).of_eq (effectsOf_append _ _).symm

theorem costs_functionText : ∀ f : FunctionDef, Costs (effectsOf f.pieces) (functionText f)
  | ⟨name, params, body, isAsync, isGenerator, isArrow⟩ => by
      refine Costs.of_eq
        ((costs_paramTexts params).bind (q := effectsOf body.pieces) fun texts => ?_)
        (by simp [Piece.effects])
      cases isArrow with
      | true => exact (costs_arrowText body).map _
      | false => exact (costs_scopeText body).map _

theorem costs_paramText : ∀ param : Param, Costs (effectsOf param.pieces) (paramText param)
  | ⟨pattern, default, _⟩ =>
      ((costs_patternText pattern).bind fun _ => (costs_exprText? default).map _).of_eq
        (by simp [Piece.effects])

theorem costs_paramTexts : ∀ params : List Param,
    Costs (effectsOf (paramsPieces params)) (paramTexts params)
  | [] => costs_pure []
  | param :: params =>
      ((costs_paramText param).bind fun _ => (costs_paramTexts params).map _).of_eq
        (effectsOf_append _ _).symm

theorem costs_patternText : ∀ pattern : Pattern,
    Costs (effectsOf pattern.pieces) (patternText pattern)
  | .ident _ => (costs_pure _).of_eq (by simp [Piece.effects])
  | .object props _ => ((costs_patternPropTexts props).map _).of_eq (by simp [Piece.effects])
  | .array items rest =>
      ((costs_arrayItemTexts items).bind fun _ => (costs_patternText? rest).map _).of_eq
        (by simp [Piece.effects])

theorem costs_patternText? : ∀ pattern : Option Pattern,
    Costs (effectsOf (patternPieces? pattern)) (patternText? pattern)
  | none => costs_pure none
  | some pattern => (costs_patternText pattern).map _

theorem costs_patternPropText : ∀ prop : PatternProp,
    Costs (effectsOf prop.pieces) (patternPropText prop)
  | ⟨_, value, default⟩ =>
      ((costs_patternText? value).bind fun _ => (costs_exprText? default).map _).of_eq
        (by simp [Piece.effects])

theorem costs_patternPropTexts : ∀ props : List PatternProp,
    Costs (effectsOf (patternPropsPieces props)) (patternPropTexts props)
  | [] => costs_pure []
  | prop :: props =>
      ((costs_patternPropText prop).bind fun _ => (costs_patternPropTexts props).map _).of_eq
        (effectsOf_append _ _).symm

theorem costs_arrayItemText : ∀ item : ArrayItem,
    Costs (effectsOf item.pieces) (arrayItemText item)
  | ⟨pattern, default⟩ =>
      ((costs_patternText pattern).bind fun _ => (costs_exprText? default).map _).of_eq
        (by simp [Piece.effects])

theorem costs_arrayItemTexts : ∀ items : List ArrayItem,
    Costs (effectsOf (arrayItemsPieces items)) (arrayItemTexts items)
  | [] => costs_pure []
  | item :: items =>
      ((costs_arrayItemText item).bind fun _ => (costs_arrayItemTexts items).map _).of_eq
        (effectsOf_append _ _).symm

theorem costs_tailLine (use : TailUse) : ∀ tail : Option Expr,
    Costs (effectsOf (exprPieces? tail)) (tailLine use tail)
  | none => costs_pure ""
  | some e =>
      ((costs_exprText e).bind fun _ => costs_line _).of_eq (add_zero _)

theorem costs_blockLines (use : TailUse) : ∀ block : Block,
    Costs (effectsOf block.pieces) (blockLines use block)
  | ⟨body, tail⟩ =>
      ((costs_stmtLines body).bind fun _ => (costs_tailLine use tail).map _).of_eq
        (by simp [Piece.effects])

theorem costs_bodyText : ∀ block : Block, Costs (effectsOf block.pieces) (bodyText block)
  | ⟨body, tail⟩ => by
      rw [bodyText]
      split
      case isTrue hempty =>
        -- The parts of an empty block are not visited, but they have no effects either.
        refine (costs_pure _).of_eq ?_
        simp only [Bool.and_eq_true, List.isEmpty_iff, Option.isNone_iff_eq_none] at hempty
        simp [Piece.effects, hempty.1, hempty.2, stmtsPieces]
      case isFalse =>
        exact (((costs_stmtLines body).bind fun _ =>
          (costs_tailLine .discarded tail).map _).braces).of_eq (by simp [Piece.effects])

theorem costs_scopeText : ∀ block : Block, Costs (effectsOf block.pieces) (scopeText block)
  | ⟨body, tail⟩ =>
      (((costs_stmtLines body).bind fun _ =>
        (costs_tailLine .returned tail).map _).functionBody).of_eq (by simp [Piece.effects])

theorem costs_arrowText : ∀ block : Block, Costs (effectsOf block.pieces) (arrowText block)
  | ⟨[], some tail⟩ => by
      rw [arrowText]
      exact ((costs_exprText tail).map _).arrowTail.of_eq (by simp [Piece.effects, stmtsPieces])
  | ⟨[], none⟩ => by
      rw [arrowText]
      · exact (((costs_stmtLines []).bind fun _ =>
          (costs_tailLine .returned none).map _).functionBody).of_eq (by simp [Piece.effects])
      · simp
  | ⟨stmt :: stmts, tail⟩ => by
      rw [arrowText]
      · exact (((costs_stmtLines (stmt :: stmts)).bind fun _ =>
          (costs_tailLine .returned tail).map _).functionBody).of_eq (by simp [Piece.effects])
      · simp

theorem costs_bodyText? (keyword : String) : ∀ block : Option Block,
    Costs (effectsOf (blockPieces? block)) (bodyText? keyword block)
  | none => costs_pure ""
  | some block => (costs_bodyText block).map _

theorem costs_branchText : ∀ branch : Branch,
    Costs (effectsOf branch.pieces) (branchText branch)
  | ⟨test, body⟩ =>
      ((costs_exprText test).bind fun _ => (costs_bodyText body).map _).of_eq
        (by simp [Piece.effects])

theorem costs_branchTexts : ∀ branches : List Branch,
    Costs (effectsOf (branchesPieces branches)) (branchTexts branches)
  | [] => costs_pure []
  | branch :: branches =>
      ((costs_branchText branch).bind fun _ => (costs_branchTexts branches).map _).of_eq
        (effectsOf_append _ _).symm

theorem costs_handlerText : ∀ handler : Option Handler,
    Costs (effectsOf (handlerPieces? handler)) (handlerText handler)
  | none => costs_pure ""
  | some ⟨param, body⟩ =>
      ((costs_patternText? param).bind fun _ => (costs_bodyText body).map _).of_eq
        (by simp [Piece.effects])

theorem costs_stmtLines : ∀ stmts : List Stmt,
    Costs (effectsOf (stmtsPieces stmts)) (stmtLines stmts)
  | [] => costs_pure ""
  | stmt :: stmts =>
      ((costs_stmtText stmt).bind fun _ => (costs_line _).bind fun _ =>
        (costs_stmtLines stmts).map _).of_eq (by simp [stmtsPieces])

theorem costs_assignText (op : AssignOp) (e : Expr) (value : String) : ∀ target : AssignTarget,
    Costs ((Piece.stmt (.assign target op e)).effects + effectsOf target.pieces)
      (assignText op value target)
  | .ident name => ((costs_readAs name).map _).of_eq (by simp [Piece.effects])
  | .member object _ => ((costs_exprText object).map _).of_eq (by simp [Piece.effects])
  | .index object index => by
      rw [assignText]
      split
      case isTrue hstatic =>
        exact ((costs_exprText object).bind fun _ => (costs_exprText index).map _).of_eq
          (by simp [Piece.effects, hstatic])
      case isFalse hstatic =>
        refine Costs.of_eq ((costs_need .set).bind fun _ => (costs_exprText object).bind fun _ =>
          (costs_exprText index).bind (q := op.effects) fun _ => ?_) ?_
        · cases op with
          | assign => exact costs_pure _
          | _ => exact (costs_need .get).map _
        · simp only [Piece.effects, hstatic, AssignTarget.pieces, effectsOf_cons, effectsOf_append,
            Bool.false_eq_true, if_false]
          abel
  | .pattern pattern => by
      rw [assignText]
      split
      case isTrue hop =>
        refine Costs.of_eq ((costs_patternText pattern).bind (q := 0) fun _ => ?_)
          (by simp [Piece.effects, hop])
        cases pattern <;> exact costs_pure _
      case isFalse hop => exact costs_throw (by simp [Piece.effects, hop])

theorem costs_stmtText : ∀ stmt : Stmt, Costs (effectsOf stmt.pieces) (stmtText stmt)
  | .decl kind pattern (some init) => by
      rw [stmtText_decl_some]
      exact ((costs_patternText pattern).bind fun _ => (costs_exprText init).map _).of_eq
        (by simp [Piece.effects])
  | .decl kind pattern none => by
      rw [stmtText_decl_none]
      refine Costs.of_eq ((costs_patternText pattern).bind
        (q := (Piece.stmt (.decl kind pattern none)).effects) fun text => ?_) (by simp [add_comm])
      split
      case isTrue h => exact costs_throw (by simp only [Piece.effects, h]; simp)
      case isFalse h => exact (costs_pure _).of_eq (by simp only [Piece.effects, h]; simp)
  | .assign target op value =>
      ((costs_exprText value).bind fun _ => costs_assignText op value _ target).of_eq
        (by simp only [Stmt.pieces, effectsOf_cons, effectsOf_append]; abel)
  | .expr e => ((costs_exprText e).map _).of_eq (by simp [Piece.effects])
  | .ifElse branches otherwise =>
      ((costs_branchTexts branches).bind fun _ => (costs_bodyText? _ otherwise).map _).of_eq
        (by simp [Piece.effects])
  | .whileLoop test body =>
      ((costs_exprText test).bind fun _ => (costs_bodyText body).map _).of_eq
        (by simp [Piece.effects])
  | .loop body => ((costs_bodyText body).map _).of_eq (by simp [Piece.effects])
  | .forIn pattern iterable body =>
      ((costs_patternText pattern).bind fun _ => (costs_exprText iterable).bind fun _ =>
        (costs_bodyText body).map _).of_eq (by simp [Piece.effects])
  | .forRange _ start stop step body =>
      (costs_freshNumber.bind fun _ => (costs_exprText start).bind fun _ =>
        (costs_exprText stop).bind fun _ => (costs_exprText? step).bind fun _ =>
          (costs_bodyText body).map _).of_eq (by simp [Piece.effects])
  | .ret value => by
      refine Costs.of_eq ((costs_exprText? value).bind (q := 0) fun text => ?_)
        (by simp [Piece.effects])
      cases text <;> exact costs_pure _
  | .breakLoop => (costs_pure _).of_eq (by simp [Piece.effects])
  | .continueLoop => (costs_pure _).of_eq (by simp [Piece.effects])
  | .throw e => ((costs_exprText e).map _).of_eq (by simp [Piece.effects])
  | .tryCatch body handler finalizer =>
      ((costs_bodyText body).bind fun _ => (costs_handlerText handler).bind fun _ =>
        (costs_bodyText? _ finalizer).map _).of_eq (by simp [Piece.effects])
  | .guard pattern e error fallback => by
      -- An `await` in front of what is guarded is not lowered, and has no effects of its own.
      have hguarded : Costs (effectsOf e.pieces) (exprText (guarded e)) := by
        cases e with
        | await operand => exact (costs_exprText operand).of_eq (by simp [Piece.effects])
        | _ => exact costs_exprText _
      rw [stmtText_guard]
      exact ((hguarded.map _).guardText (costs_blockLines .discarded fallback)
        (costs_patternText? pattern) e.awaits error).of_eq (by simp [Piece.effects, add_assoc])
  | .function f => by
      rw [stmtText]
      split
      case isTrue h => exact costs_throw (by simp [Piece.effects, h])
      case isFalse h => exact (costs_functionText f).of_eq (by simp [Piece.effects, h])
  | .importFrom _ => (costs_pure _).of_eq (by simp [Piece.effects])
  | .exportDecl decl => by
      rw [stmtText]
      split
      case isTrue h => exact ((costs_stmtText decl).map _).of_eq (by simp [Piece.effects, h])
      case isFalse h => exact costs_throw (by simp [Piece.effects, h])
  | .exportDefault e => ((costs_exprText e).map _).of_eq (by simp [Piece.effects])

end

theorem costs_stmtTexts (stmts : List Stmt) :
    Costs (effectsOf (stmtsPieces stmts)) (stmtTexts stmts) := by
  induction stmts with
  | nil => exact costs_pure []
  | cons stmt stmts ih =>
      exact ((costs_stmtText stmt).bind fun text => ih.map (text :: ·)).of_eq
        (effectsOf_append _ _).symm

/-! ## Whole programs -/

theorem effectsOf_program (program : Program) :
    effectsOf program.pieces = effectsOf (stmtsPieces program.body) := by
  simp [Program.pieces, Piece.effects]

theorem exists_of_generate_eq_ok {program : Program} {g : Generated}
    (h : generate program = .ok g) :
    ∃ texts s, inScope (stmtTexts program.body) {} = .ok ((texts, g.hoisted), s) ∧
      g.body = texts.map trimEnd ∧ g.helpers = s.helpers := by
  change (inScope (stmtTexts program.body) {}).bind _ = _ at h
  cases hrun : inScope (stmtTexts program.body) {} with
  | error d =>
      rw [hrun] at h
      cases h
  | ok r =>
      rw [hrun] at h
      cases h
      exact ⟨r.1.1, r.2, rfl, rfl, rfl⟩

theorem inScope_of_generate_eq_error {program : Program} {d : Defect}
    (h : generate program = .error d) : inScope (stmtTexts program.body) {} = .error d := by
  change (inScope (stmtTexts program.body) {}).bind _ = _ at h
  cases hrun : inScope (stmtTexts program.body) {} with
  | error d' =>
      rw [hrun] at h
      cases h
      rfl
  | ok r =>
      rw [hrun] at h
      cases h

/-- A generated program needs the helpers of its pieces, and none of these has a defect. -/
theorem effects_of_generate_eq_ok {program : Program} {g : Generated}
    (h : generate program = .ok g) :
    (∀ helper, g.helpers.contains helper = true ↔
        Effect.helper helper ∈ effectsOf program.pieces) ∧
      ∀ d, Effect.defect d ∉ effectsOf program.pieces := by
  obtain ⟨texts, s, hrun, -, hhelpers⟩ := exists_of_generate_eq_ok h
  obtain ⟨hadvances, hclean⟩ := ((costs_stmtTexts program.body).inScope {}).1 _ _ hrun
  rw [effectsOf_program, hhelpers]
  refine ⟨?_, hclean⟩
  intro helper
  rw [hadvances.helpers]
  simp [HelperSet.contains]

/-- The defect that stops lowering is that of a piece. -/
theorem effects_of_generate_eq_error {program : Program} {d : Defect}
    (h : generate program = .error d) : Effect.defect d ∈ effectsOf program.pieces := by
  rw [effectsOf_program]
  exact ((costs_stmtTexts program.body).inScope {}).2 d (inScope_of_generate_eq_error h)

end JavaScript

end PegScript

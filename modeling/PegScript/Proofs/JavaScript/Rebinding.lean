import PegScript.Proofs.JavaScript.Emitter
import PegScript.Proofs.Tree.Replace

/-!
# Names that are read under another one

While a stage of a pipeline is lowered, its name is read under another one.  The main result is that
this is a replacement in the tree: lowering a tree with the name read so is lowering, with all names
read as they are, the tree in which the name is replaced everywhere (`Mirrors`).  What binds a name
inside the tree plays no role.
-/

namespace PegScript

namespace JavaScript

open Lower

variable {α β : Type} {rebind : Rebind}

/-- With the name read under another one, the first lowering does what the second one does with all
names read as they are. -/
def Mirrors (rebind : Rebind) (m m' : Lower α) : Prop :=
  ∀ s, s.rebind = none → (∀ p, m' s = .ok p → p.2.rebind = none) ∧
    m { s with rebind := some rebind } =
      (m' s).map fun p => (p.1, { p.2 with rebind := some rebind })

section Mirrors

variable {m m' : Lower α}

theorem mirrors_pure (a : α) : Mirrors rebind (pure a) (pure a) := by
  intro s hs
  refine ⟨?_, rfl⟩
  rintro p ⟨⟩
  exact hs

theorem mirrors_throw (d : Defect) : Mirrors rebind (throw d : Lower α) (throw d) := by
  intro s hs
  refine ⟨?_, rfl⟩
  rintro p ⟨⟩

theorem Mirrors.bind {f f' : α → Lower β} (hm : Mirrors rebind m m')
    (hf : ∀ a, Mirrors rebind (f a) (f' a)) : Mirrors rebind (m >>= f) (m' >>= f') := by
  intro s hs
  obtain ⟨hkeeps, hrun⟩ := hm s hs
  rw [bind_apply, bind_apply, hrun]
  cases hfirst : m' s with
  | error d => exact ⟨by rintro p ⟨⟩, rfl⟩
  | ok p => exact hf p.1 p.2 (hkeeps p hfirst)

theorem Mirrors.map {f f' : α → β} (hm : Mirrors rebind m m') (hf : ∀ a, f a = f' a) :
    Mirrors rebind (do return f (← m)) (do return f' (← m')) := by
  refine hm.bind fun a => ?_
  rw [hf a]
  exact mirrors_pure _

/-- A step that has nothing to do with names that are read. -/
theorem mirrors_of_apply (a : Emitter → α) (f : Emitter → Emitter)
    (hrun : ∀ s, m s = .ok (a s, f s)) (hkeeps : ∀ s, (f s).rebind = s.rebind)
    (ha : ∀ s, a { s with rebind := some rebind } = a s)
    (hf : ∀ s, f { s with rebind := some rebind } = { f s with rebind := some rebind }) :
    Mirrors rebind m m := by
  intro s hs
  rw [hrun, hrun, ha, hf]
  refine ⟨?_, rfl⟩
  rintro p ⟨⟩
  exact (hkeeps s).trans hs

theorem mirrors_need (h : Helper) : Mirrors rebind (need h) (need h) :=
  mirrors_of_apply _ _ (need_apply h) (fun _ => rfl) (fun _ => rfl) fun _ => rfl

theorem mirrors_freshNumber : Mirrors rebind freshNumber freshNumber :=
  mirrors_of_apply _ _ freshNumber_apply (fun _ => rfl) (fun _ => rfl) fun _ => rfl

theorem mirrors_hoist (name : String) : Mirrors rebind (hoist name) (hoist name) :=
  mirrors_of_apply _ _ (hoist_apply name) (fun _ => rfl) (fun _ => rfl) fun _ => rfl

theorem mirrors_indentation : Mirrors rebind indentation indentation :=
  mirrors_of_apply _ _ (fun _ => rfl) (fun _ => rfl) (fun _ => rfl) fun _ => rfl

theorem mirrors_line (text : String) : Mirrors rebind (line text) (line text) :=
  mirrors_of_apply _ _ (line_apply text) (fun _ => rfl) (fun _ => rfl) fun _ => rfl

theorem mirrors_declarations (names : List String) :
    Mirrors rebind (declarations names) (declarations names) :=
  mirrors_of_apply _ _ (declarations_apply names) (fun _ => rfl) (fun _ => rfl) fun _ => rfl

theorem readAs_of_none {s : Emitter} (hs : s.rebind = none) (name : String) :
    readAs name s = .ok (name, s) := by
  rw [readAs_apply, hs]

theorem readAs_of_some (r : Replacement) (s : Emitter) (name : String) :
    readAs name { s with rebind := some ⟨r.name, r.reference⟩ } =
      .ok (r.read name, { s with rebind := some ⟨r.name, r.reference⟩ }) := by
  have hread : (if r.name = name then r.reference else name) = r.read name := by
    unfold Replacement.read
    simp only [eq_comm]
  rw [readAs_apply]
  dsimp only
  rw [hread]

/-- Where the texts of two lowerings agree and neither changes the state. -/
theorem mirrors_of_ok (a : α)
    (hm : ∀ s : Emitter, m { s with rebind := some rebind } =
      .ok (a, { s with rebind := some rebind }))
    (hm' : ∀ s : Emitter, s.rebind = none → m' s = .ok (a, s)) : Mirrors rebind m m' := by
  intro s hs
  rw [hm, hm' s hs]
  refine ⟨?_, rfl⟩
  rintro p ⟨⟩
  exact hs

theorem mirrors_readAs (r : Replacement) (name : String) :
    Mirrors ⟨r.name, r.reference⟩ (readAs name) (readAs (r.read name)) :=
  mirrors_of_ok _ (fun s => readAs_of_some r s name) fun _ hs => readAs_of_none hs _

/-- A name in short form becomes a key with a value once it is read under another one. -/
theorem mirrors_shorthand (r : Replacement) (name : String) :
    Mirrors ⟨r.name, r.reference⟩ (propertyText (.shorthand name))
      (propertyText ((Property.shorthand name).replace r)) := by
  refine mirrors_of_ok (if r.read name = name then name else name ++ ": " ++ r.read name) ?_ ?_
  · intro s
    rw [propertyText, bind_apply, readAs_of_some]
    rfl
  · intro s hs
    rw [Property.replace]
    split
    · rw [propertyText, bind_apply, readAs_of_none hs]
      exact congrArg (fun text => Except.ok (text, s)) (if_pos rfl)
    · change ((exprText (.ident (r.read name)) >>= fun v => pure (name ++ ": " ++ v)) :
        Lower String) s = _
      rw [bind_apply, exprText, readAs_of_none hs]
      rfl

/-- Preparing the state, lowering and cleaning up the state again. -/
theorem Mirrors.around {w w' : Lower β} (hm : Mirrors rebind m m') (before : Emitter → Emitter)
    (after : α × Emitter → β × Emitter) (hw : ∀ s, w s = (m (before s)).map after)
    (hw' : ∀ s, w' s = (m' (before s)).map after)
    (hkeeps : ∀ s, (before s).rebind = s.rebind) (hkeeps' : ∀ p, (after p).2.rebind = p.2.rebind)
    (hbefore : ∀ s, before { s with rebind := some rebind } =
      { before s with rebind := some rebind })
    (hafter : ∀ p, after (p.1, { p.2 with rebind := some rebind }) =
      ((after p).1, { (after p).2 with rebind := some rebind })) : Mirrors rebind w w' := by
  intro s hs
  obtain ⟨hnone, hrun⟩ := hm (before s) ((hkeeps s).trans hs)
  rw [hw, hw', hbefore, hrun]
  cases hinner : m' (before s) with
  | error d => exact ⟨by rintro p ⟨⟩, rfl⟩
  | ok p =>
      refine ⟨?_, congrArg Except.ok (hafter p)⟩
      rintro q ⟨⟩
      exact (hkeeps' p).trans (hnone p hinner)

theorem Mirrors.indented (hm : Mirrors rebind m m') :
    Mirrors rebind (indented m) (indented m') :=
  hm.around _ _ (indented_apply m) (indented_apply m') (fun _ => rfl) (fun _ => rfl)
    (fun _ => rfl) fun _ => rfl

theorem Mirrors.inScope (hm : Mirrors rebind m m') : Mirrors rebind (inScope m) (inScope m') :=
  hm.around _ _ (inScope_apply m) (inScope_apply m') (fun _ => rfl) (fun _ => rfl)
    (fun _ => rfl) fun _ => rfl

/-- A stage of an inner pipeline has a replacement of its own. -/
theorem mirrors_rebinding (name reference : String) (m : Lower α) :
    Mirrors rebind (rebinding name reference m) (rebinding name reference m) := by
  intro s hs
  rw [rebinding_apply, rebinding_apply]
  dsimp only
  cases m { s with rebind := some ⟨name, reference⟩ } with
  | error d => exact ⟨by rintro p ⟨⟩, rfl⟩
  | ok p =>
      refine ⟨?_, rfl⟩
      rintro q ⟨⟩
      exact hs

theorem Mirrors.braces {m m' : Lower String} (hm : Mirrors rebind m m') :
    Mirrors rebind (braces m) (braces m') :=
  hm.indented.bind fun _ => mirrors_indentation.map fun _ => rfl

theorem Mirrors.functionBody {m m' : Lower String} (hm : Mirrors rebind m m') :
    Mirrors rebind (functionBody m) (functionBody m') := by
  refine hm.indented.inScope.bind fun r => ?_
  dsimp only
  split
  · exact mirrors_pure _
  · exact ((mirrors_declarations r.2).map fun _ => rfl).braces

theorem Mirrors.arrowTail {m m' : Lower String} (hm : Mirrors rebind m m') :
    Mirrors rebind (arrowTail m) (arrowTail m') := by
  refine hm.indented.inScope.bind fun r => ?_
  dsimp only
  split
  · exact mirrors_pure _
  · exact ((mirrors_declarations r.2).bind fun _ => (mirrors_line _).map fun _ => rfl).braces

theorem Mirrors.guardText {expr expr' fallback fallback' : Lower String}
    {binding binding' : Lower (Option String)} (hexpr : Mirrors rebind expr expr')
    (hfallback : Mirrors rebind fallback fallback') (hbinding : Mirrors rebind binding binding')
    (isAsync : Bool) (error : String) :
    Mirrors rebind (guardText isAsync expr error fallback binding)
      (guardText isAsync expr' error fallback' binding') :=
  mirrors_freshNumber.bind fun _ => (mirrors_need _).bind fun _ => hexpr.bind fun _ =>
    (Mirrors.braces ((mirrors_line _).bind fun _ => hfallback.map fun _ => rfl)).bind fun _ =>
      mirrors_indentation.bind fun _ => hbinding.map fun _ => rfl

end Mirrors

/-! ## Replacement keeps the shape of a tree -/

section Shapes

variable (r : Replacement)

mutual

theorem awaits_replace : ∀ e : Expr, (e.replace r).awaits = e.awaits
  | .number _ | .rawStr _ | .bool _ | .null | .undefined | .this | .ident _ | .function _
  | .await _ => rfl
  | .str parts => partsAwait_replace parts
  | .array items => elementsAwait_replace items
  | .object props => propertiesAwait_replace props
  | .doBlock block => awaits_replace_block block
  | .unary _ operand => awaits_replace operand
  | .binary _ left right => congrArg₂ or (awaits_replace left) (awaits_replace right)
  | .conditional test consequent alternate =>
      congrArg₂ or (congrArg₂ or (awaits_replace test) (awaits_replace consequent))
        (awaits_replace alternate)
  | .call callee args _ => congrArg₂ or (awaits_replace callee) (elementsAwait_replace args)
  | .new callee args => congrArg₂ or (awaits_replace callee) (elementsAwait_replace args)
  | .member object _ _ => awaits_replace object
  | .index object index => congrArg₂ or (awaits_replace object) (awaits_replace index)
  | .pipeline head stages => congrArg₂ or (awaits_replace head) (stagesAwait_replace stages)
  | .range start stop step =>
      congrArg₂ or (congrArg₂ or (awaits_replace start) (awaits_replace stop))
        (exprAwaits?_replace step)
  | .yield argument _ => exprAwaits?_replace argument

theorem exprAwaits?_replace : ∀ e : Option Expr, exprAwaits? (exprReplace? r e) = exprAwaits? e
  | none => rfl
  | some e => awaits_replace e

theorem partsAwait_replace : ∀ parts : List StrPart,
    partsAwait (partsReplace r parts) = partsAwait parts
  | [] => rfl
  | .text _ :: parts => congrArg (or false) (partsAwait_replace parts)
  | .expr e :: parts => congrArg₂ or (awaits_replace e) (partsAwait_replace parts)

theorem elementsAwait_replace : ∀ elements : List Element,
    elementsAwait (elementsReplace r elements) = elementsAwait elements
  | [] => rfl
  | .expr e :: elements => congrArg₂ or (awaits_replace e) (elementsAwait_replace elements)
  | .spread e :: elements => congrArg₂ or (awaits_replace e) (elementsAwait_replace elements)

theorem awaits_replace_property : ∀ prop : Property, (prop.replace r).awaits = prop.awaits
  | .keyValue key value => congrArg₂ or (awaits_replace_key key) (awaits_replace value)
  | .shorthand name => by
      rw [Property.replace]
      split <;> rfl
  | .spread e => awaits_replace e

theorem propertiesAwait_replace : ∀ props : List Property,
    propertiesAwait (propertiesReplace r props) = propertiesAwait props
  | [] => rfl
  | prop :: props => congrArg₂ or (awaits_replace_property prop) (propertiesAwait_replace props)

theorem awaits_replace_key : ∀ key : PropertyKey, (key.replace r).awaits = key.awaits
  | .ident _ | .str _ | .number _ => rfl
  | .computed e => awaits_replace e

theorem awaits_replace_stage : ∀ stage : PipeStage, (stage.replace r).awaits = stage.awaits
  | .bind name e => by
      rw [PipeStage.replace]
      split
      · exact awaits_replace e
      · rfl
  | .call callee => awaits_replace callee

theorem stagesAwait_replace : ∀ stages : List PipeStage,
    stagesAwait (stagesReplace r stages) = stagesAwait stages
  | [] => rfl
  | stage :: stages => congrArg₂ or (awaits_replace_stage stage) (stagesAwait_replace stages)

theorem awaits_replace_target : ∀ target : AssignTarget, (target.replace r).awaits = target.awaits
  | .ident _ | .pattern _ => rfl
  | .member object _ => awaits_replace object
  | .index object index => congrArg₂ or (awaits_replace object) (awaits_replace index)

theorem awaits_replace_block : ∀ block : Block, (block.replace r).awaits = block.awaits
  | ⟨body, tail⟩ => by
      rw [Block.replace]
      split
      · rfl
      · exact congrArg₂ or (stmtsAwait_replace body) (exprAwaits?_replace tail)

theorem blockAwaits?_replace : ∀ block : Option Block,
    blockAwaits? (blockReplace? r block) = blockAwaits? block
  | none => rfl
  | some block => awaits_replace_block block

theorem branchesAwait_replace : ∀ branches : List Branch,
    branchesAwait (branchesReplace r branches) = branchesAwait branches
  | [] => rfl
  | ⟨test, body⟩ :: branches =>
      congrArg₂ or (congrArg₂ or (awaits_replace test) (awaits_replace_block body))
        (branchesAwait_replace branches)

theorem handlerAwaits?_replace : ∀ handler : Option Handler,
    handlerAwaits? (handlerReplace? r handler) = handlerAwaits? handler
  | none => rfl
  | some ⟨param, body⟩ => by
      rw [handlerReplace?, Handler.replace]
      split
      · rfl
      · exact awaits_replace_block body

theorem awaits_replace_stmt : ∀ stmt : Stmt, (stmt.replace r).awaits = stmt.awaits
  | .breakLoop | .continueLoop | .function _ | .importFrom _ => rfl
  | .decl _ _ init => exprAwaits?_replace init
  | .assign target _ value => congrArg₂ or (awaits_replace_target target) (awaits_replace value)
  | .expr e => awaits_replace e
  | .ifElse branches otherwise =>
      congrArg₂ or (branchesAwait_replace branches) (blockAwaits?_replace otherwise)
  | .whileLoop test body => congrArg₂ or (awaits_replace test) (awaits_replace_block body)
  | .loop body => awaits_replace_block body
  | .forIn pattern iterable body => by
      rw [Stmt.replace]
      split
      · exact congrArg (or · body.awaits) (awaits_replace iterable)
      · exact congrArg₂ or (awaits_replace iterable) (awaits_replace_block body)
  | .forRange binding start stop step body => by
      rw [Stmt.replace]
      refine congrArg₂ or (congrArg₂ or (congrArg₂ or (awaits_replace start) (awaits_replace stop))
        (exprAwaits?_replace step)) ?_
      split
      · rfl
      · exact awaits_replace_block body
  | .ret value => exprAwaits?_replace value
  | .throw e => awaits_replace e
  | .tryCatch body handler finalizer =>
      congrArg₂ or (congrArg₂ or (awaits_replace_block body) (handlerAwaits?_replace handler))
        (blockAwaits?_replace finalizer)
  | .guard pattern e error fallback => by
      rw [Stmt.replace]
      refine congrArg₂ or (awaits_replace e) ?_
      split
      · rfl
      · exact awaits_replace_block fallback
  | .exportDecl decl => awaits_replace_stmt decl
  | .exportDefault e => awaits_replace e

theorem stmtsAwait_replace : ∀ stmts : List Stmt,
    stmtsAwait (stmtsReplace r stmts) = stmtsAwait stmts
  | [] => rfl
  | stmt :: stmts => congrArg₂ or (awaits_replace_stmt stmt) (stmtsAwait_replace stmts)

end

theorem grouped_replace (e : Expr) (text : String) :
    grouped (e.replace r) text = grouped e text := by
  cases e <;> rfl

theorem asOperand_replace (e : Expr) (text : String) :
    asOperand (e.replace r) text = asOperand e text := by
  cases e <;> rfl

theorem asUnaryOperand_replace (e : Expr) (text : String) :
    asUnaryOperand (e.replace r) text = asUnaryOperand e text := by
  cases e <;> rfl

theorem asTarget_replace (e : Expr) (text : String) :
    asTarget (e.replace r) text = asTarget e text := by
  cases e <;> rfl

theorem isPath_replace : ∀ e : Expr, isPath (e.replace r) = isPath e
  | .member object _ false => isPath_replace object
  | .member _ _ true => rfl
  | .number _ | .rawStr _ | .bool _ | .null | .undefined | .this | .ident _ | .function _
  | .await _ | .str _ | .array _ | .object _ | .doBlock _ | .unary .. | .binary ..
  | .conditional .. | .call .. | .new .. | .index .. | .pipeline .. | .range .. | .yield .. => rfl

theorem asConstructor_replace (e : Expr) (text : String) :
    asConstructor (e.replace r) text = asConstructor e text := by
  unfold asConstructor
  rw [isPath_replace, grouped_replace]

theorem isTextPart_replace (parts : List StrPart) :
    (partsReplace r parts).all isTextPart = parts.all isTextPart := by
  induction parts with
  | nil => rfl
  | cons part parts ih =>
      rw [partsReplace, List.all_cons, List.all_cons, ih]
      cases part <;> rfl

theorem isStaticIndex_replace (e : Expr) : isStaticIndex (e.replace r) = isStaticIndex e := by
  cases e with
  | str parts => exact isTextPart_replace r parts
  | _ => rfl

theorem singleLine?_replace (parts : List StrPart) :
    singleLine? (partsReplace r parts) = singleLine? parts := by
  cases parts with
  | nil => rfl
  | cons part parts => cases parts <;> cases part <;> rfl

theorem isIdentPattern_replace (assigned : Bool) (pattern : Pattern) :
    isIdentPattern (pattern.replace r assigned) = isIdentPattern pattern := by
  cases pattern <;> rfl

theorem guarded_replace (e : Expr) : guarded (e.replace r) = (guarded e).replace r := by
  cases e <;> rfl

theorem stagesReplace_isEmpty (stages : List PipeStage) :
    (stagesReplace r stages).isEmpty = stages.isEmpty := by
  cases stages <;> rfl

theorem stmtsReplace_isEmpty (stmts : List Stmt) :
    (stmtsReplace r stmts).isEmpty = stmts.isEmpty := by
  cases stmts <;> rfl

theorem exprReplace?_isNone (e : Option Expr) : (exprReplace? r e).isNone = e.isNone := by
  cases e <;> rfl

theorem isDeclaration_replace (stmt : Stmt) :
    isDeclaration (stmt.replace r) = isDeclaration stmt := by
  cases stmt with
  | forIn pattern iterable body =>
      rw [Stmt.replace]
      split <;> rfl
  | _ => rfl

theorem name_replace (f : FunctionDef) : (f.replace r).name = f.name := by
  obtain ⟨name, params, body, isAsync, isGenerator, isArrow⟩ := f
  rw [FunctionDef.replace]
  split <;> rfl

end Shapes

/-! ## Lowering with a name that is read under another one -/

section Lowering

variable (name reference : String)

mutual

theorem mirrors_exprText : ∀ e : Expr,
    Mirrors ⟨name, reference⟩ (exprText e) (exprText (e.replace (.every name reference)))
  | .number _ | .rawStr _ | .bool _ | .null | .undefined | .this => mirrors_pure _
  | .ident n => mirrors_readAs (.every name reference) n
  | .str parts => by
      change Mirrors _ (exprText (.str parts)) (exprText (.str (partsReplace _ parts)))
      rw [exprText, exprText, singleLine?_replace]
      split
      · exact mirrors_pure _
      · exact (mirrors_partTexts parts).map fun _ => rfl
  | .array items => (mirrors_elementTexts items).map fun _ => rfl
  | .object props => (mirrors_propertyTexts props).map fun _ => rfl
  | .function f => mirrors_functionText f
  | .doBlock block => (mirrors_scopeText block).map fun _ => by rw [awaits_replace_block]
  | .unary _ operand => (mirrors_exprText operand).map fun _ => by rw [asUnaryOperand_replace]
  | .binary op left right =>
      (mirrors_exprText left).bind fun _ => (mirrors_exprText right).map fun _ => by
        rw [asUnaryOperand_replace, asOperand_replace, asOperand_replace]
  | .conditional test consequent alternate =>
      (mirrors_exprText test).bind fun _ => (mirrors_exprText consequent).bind fun _ =>
        (mirrors_exprText alternate).map fun _ => by
          rw [asOperand_replace, asOperand_replace, asOperand_replace]
  | .call callee args _ =>
      (mirrors_exprText callee).bind fun _ => (mirrors_elementTexts args).map fun _ => by
        rw [asTarget_replace]
  | .new callee args =>
      (mirrors_exprText callee).bind fun _ => (mirrors_elementTexts args).map fun _ => by
        rw [asConstructor_replace]
  | .member object _ _ => (mirrors_exprText object).map fun _ => by rw [asTarget_replace]
  | .index object index => by
      change Mirrors _ (exprText (.index object index))
        (exprText (.index (object.replace _) (index.replace _)))
      rw [exprText, exprText, isStaticIndex_replace]
      split
      · exact (mirrors_exprText object).bind fun _ => (mirrors_exprText index).map fun _ => by
          rw [asTarget_replace, grouped_replace]
      · exact (mirrors_need _).bind fun _ => (mirrors_exprText object).bind fun _ =>
          (mirrors_exprText index).map fun _ => by rw [grouped_replace, grouped_replace]
  | .pipeline head stages => by
      change Mirrors _ (exprText (.pipeline head stages))
        (exprText (.pipeline (head.replace _) (stagesReplace _ stages)))
      rw [exprText, exprText, stagesReplace_isEmpty]
      split
      · exact mirrors_throw _
      · exact mirrors_freshNumber.bind fun id => (mirrors_hoist _).bind fun _ =>
          (mirrors_exprText head).bind fun _ => (mirrors_stageTexts s!"_ref{id}" stages).map
            fun _ => by rw [grouped_replace]
  | .range start stop step =>
      (mirrors_need _).bind fun _ => (mirrors_exprText start).bind fun _ =>
        (mirrors_exprText stop).bind fun _ => (mirrors_exprText? step).map fun _ => by
          rw [grouped_replace, grouped_replace]
  | .await operand => (mirrors_exprText operand).map fun _ => by rw [asUnaryOperand_replace]
  | .yield argument _ => (mirrors_exprText? argument).bind fun text => by
      cases text <;> exact mirrors_pure _

theorem mirrors_exprText? : ∀ e : Option Expr,
    Mirrors ⟨name, reference⟩ (exprText? e) (exprText? (exprReplace? (.every name reference) e))
  | none => mirrors_pure none
  | some e => (mirrors_exprText e).map fun _ => by rw [grouped_replace]

theorem mirrors_partText : ∀ part : StrPart,
    Mirrors ⟨name, reference⟩ (partText part) (partText (part.replace (.every name reference)))
  | .text _ => mirrors_pure _
  | .expr e => (mirrors_exprText e).map fun _ => by rw [grouped_replace]

theorem mirrors_partTexts : ∀ parts : List StrPart,
    Mirrors ⟨name, reference⟩ (partTexts parts)
      (partTexts (partsReplace (.every name reference) parts))
  | [] => mirrors_pure []
  | part :: parts =>
      (mirrors_partText part).bind fun _ => (mirrors_partTexts parts).map fun _ => rfl

theorem mirrors_elementText : ∀ element : Element,
    Mirrors ⟨name, reference⟩ (elementText element)
      (elementText (element.replace (.every name reference)))
  | .expr e => (mirrors_exprText e).map fun _ => by rw [grouped_replace]
  | .spread e => (mirrors_exprText e).map fun _ => by rw [grouped_replace]

theorem mirrors_elementTexts : ∀ elements : List Element,
    Mirrors ⟨name, reference⟩ (elementTexts elements)
      (elementTexts (elementsReplace (.every name reference) elements))
  | [] => mirrors_pure []
  | element :: elements =>
      (mirrors_elementText element).bind fun _ => (mirrors_elementTexts elements).map fun _ => rfl

theorem mirrors_propertyText : ∀ prop : Property,
    Mirrors ⟨name, reference⟩ (propertyText prop)
      (propertyText (prop.replace (.every name reference)))
  | .keyValue key value =>
      (mirrors_keyText key).bind fun _ => (mirrors_exprText value).map fun _ => by
        rw [grouped_replace]
  | .shorthand n => mirrors_shorthand (.every name reference) n
  | .spread e => (mirrors_exprText e).map fun _ => by rw [grouped_replace]

theorem mirrors_propertyTexts : ∀ props : List Property,
    Mirrors ⟨name, reference⟩ (propertyTexts props)
      (propertyTexts (propertiesReplace (.every name reference) props))
  | [] => mirrors_pure []
  | prop :: props =>
      (mirrors_propertyText prop).bind fun _ => (mirrors_propertyTexts props).map fun _ => rfl

theorem mirrors_keyText : ∀ key : PropertyKey,
    Mirrors ⟨name, reference⟩ (keyText key) (keyText (key.replace (.every name reference)))
  | .ident _ | .str _ | .number _ => mirrors_pure _
  | .computed e => (mirrors_exprText e).map fun _ => by rw [grouped_replace]

theorem mirrors_stageText (running : String) : ∀ stage : PipeStage,
    Mirrors ⟨name, reference⟩ (stageText running stage)
      (stageText running (stage.replace (.every name reference)))
  -- The replacement of the inner stage takes the place of the outer one, whatever its name is.
  | .bind n e => (mirrors_rebinding n running (exprText e)).map fun _ => rfl
  | .call callee => (mirrors_exprText callee).map fun _ => by rw [asTarget_replace]

theorem mirrors_stageTexts (running : String) : ∀ stages : List PipeStage,
    Mirrors ⟨name, reference⟩ (stageTexts running stages)
      (stageTexts running (stagesReplace (.every name reference) stages))
  | [] => mirrors_pure []
  | stage :: stages =>
      (mirrors_stageText running stage).bind fun _ =>
        (mirrors_stageTexts running stages).map fun _ => rfl

theorem mirrors_functionText : ∀ f : FunctionDef,
    Mirrors ⟨name, reference⟩ (functionText f)
      (functionText (f.replace (.every name reference)))
  | ⟨_, params, body, _, _, isArrow⟩ => (mirrors_paramTexts params).bind fun _ => by
      cases isArrow with
      | true => exact (mirrors_arrowText body).map fun _ => rfl
      | false => exact (mirrors_scopeText body).map fun _ => rfl

theorem mirrors_paramText : ∀ param : Param,
    Mirrors ⟨name, reference⟩ (paramText param) (paramText (param.replace (.every name reference)))
  | ⟨pattern, default, _⟩ =>
      (mirrors_patternText false pattern).bind fun _ => (mirrors_exprText? default).map fun _ => rfl

theorem mirrors_paramTexts : ∀ params : List Param,
    Mirrors ⟨name, reference⟩ (paramTexts params)
      (paramTexts (paramsReplace (.every name reference) params))
  | [] => mirrors_pure []
  | param :: params =>
      (mirrors_paramText param).bind fun _ => (mirrors_paramTexts params).map fun _ => rfl

theorem mirrors_patternText (assigned : Bool) : ∀ pattern : Pattern,
    Mirrors ⟨name, reference⟩ (patternText pattern)
      (patternText (pattern.replace (.every name reference) assigned))
  | .ident _ => mirrors_pure _
  | .object props rest => (mirrors_patternPropTexts assigned props).map fun _ => by
      cases rest <;> rfl
  | .array items rest =>
      (mirrors_arrayItemTexts assigned items).bind fun _ =>
        (mirrors_patternText? assigned rest).map fun _ => rfl

theorem mirrors_patternText? (assigned : Bool) : ∀ pattern : Option Pattern,
    Mirrors ⟨name, reference⟩ (patternText? pattern)
      (patternText? (patternReplace? (.every name reference) assigned pattern))
  | none => mirrors_pure none
  | some pattern => (mirrors_patternText assigned pattern).map fun _ => rfl

theorem mirrors_patternPropText (assigned : Bool) : ∀ prop : PatternProp,
    Mirrors ⟨name, reference⟩ (patternPropText prop)
      (patternPropText (prop.replace (.every name reference) assigned))
  | ⟨key, none, default⟩ => by
      have hkey : (Replacement.every name reference).target assigned key = key := rfl
      rw [PatternProp.replace, if_pos hkey]
      exact (mirrors_pure none).bind fun _ => (mirrors_exprText? default).map fun _ => rfl
  | ⟨_, some pattern, default⟩ =>
      ((mirrors_patternText assigned pattern).map fun _ => rfl).bind fun _ =>
        (mirrors_exprText? default).map fun _ => rfl

theorem mirrors_patternPropTexts (assigned : Bool) : ∀ props : List PatternProp,
    Mirrors ⟨name, reference⟩ (patternPropTexts props)
      (patternPropTexts (patternPropsReplace (.every name reference) assigned props))
  | [] => mirrors_pure []
  | prop :: props =>
      (mirrors_patternPropText assigned prop).bind fun _ =>
        (mirrors_patternPropTexts assigned props).map fun _ => rfl

theorem mirrors_arrayItemText (assigned : Bool) : ∀ item : ArrayItem,
    Mirrors ⟨name, reference⟩ (arrayItemText item)
      (arrayItemText (item.replace (.every name reference) assigned))
  | ⟨pattern, default⟩ =>
      (mirrors_patternText assigned pattern).bind fun _ =>
        (mirrors_exprText? default).map fun _ => rfl

theorem mirrors_arrayItemTexts (assigned : Bool) : ∀ items : List ArrayItem,
    Mirrors ⟨name, reference⟩ (arrayItemTexts items)
      (arrayItemTexts (arrayItemsReplace (.every name reference) assigned items))
  | [] => mirrors_pure []
  | item :: items =>
      (mirrors_arrayItemText assigned item).bind fun _ =>
        (mirrors_arrayItemTexts assigned items).map fun _ => rfl

theorem mirrors_assignText (op : AssignOp) (value : String) : ∀ target : AssignTarget,
    Mirrors ⟨name, reference⟩ (assignText op value target)
      (assignText op value (target.replace (.every name reference)))
  | .ident n => (mirrors_readAs (.every name reference) n).map fun _ => rfl
  | .member object _ => (mirrors_exprText object).map fun _ => by rw [asTarget_replace]
  | .index object index => by
      change Mirrors _ (assignText op value (.index object index))
        (assignText op value (.index (object.replace _) (index.replace _)))
      rw [assignText, assignText, isStaticIndex_replace]
      split
      · exact (mirrors_exprText object).bind fun _ => (mirrors_exprText index).map fun _ => by
          rw [asTarget_replace, grouped_replace]
      · refine (mirrors_need _).bind fun _ => (mirrors_exprText object).bind fun _ =>
          (mirrors_exprText index).bind fun _ => ?_
        rw [grouped_replace, grouped_replace]
        cases op with
        | assign => exact mirrors_pure _
        | _ => exact (mirrors_need _).map fun _ => rfl
  | .pattern pattern => by
      change Mirrors _ (assignText op value (.pattern pattern))
        (assignText op value (.pattern (pattern.replace _ true)))
      rw [assignText, assignText]
      split
      · refine (mirrors_patternText true pattern).bind fun _ => ?_
        cases pattern <;> exact mirrors_pure _
      · exact mirrors_throw _

theorem mirrors_tailLine (use : TailUse) : ∀ tail : Option Expr,
    Mirrors ⟨name, reference⟩ (tailLine use tail)
      (tailLine use (exprReplace? (.every name reference) tail))
  | none => mirrors_pure ""
  | some e => (mirrors_exprText e).bind fun _ => by
      rw [grouped_replace]
      exact mirrors_line _

theorem mirrors_blockLines (use : TailUse) : ∀ block : Block,
    Mirrors ⟨name, reference⟩ (blockLines use block)
      (blockLines use (block.replace (.every name reference)))
  | ⟨body, tail⟩ =>
      (mirrors_stmtLines body).bind fun _ => (mirrors_tailLine use tail).map fun _ => rfl

theorem mirrors_bodyText : ∀ block : Block,
    Mirrors ⟨name, reference⟩ (bodyText block) (bodyText (block.replace (.every name reference)))
  | ⟨body, tail⟩ => by
      change Mirrors _ (bodyText ⟨body, tail⟩)
        (bodyText ⟨stmtsReplace _ body, exprReplace? _ tail⟩)
      rw [bodyText, bodyText, stmtsReplace_isEmpty, exprReplace?_isNone]
      split
      · exact mirrors_pure _
      · exact Mirrors.braces ((mirrors_stmtLines body).bind fun _ =>
          (mirrors_tailLine .discarded tail).map fun _ => rfl)

theorem mirrors_scopeText : ∀ block : Block,
    Mirrors ⟨name, reference⟩ (scopeText block)
      (scopeText (block.replace (.every name reference)))
  | ⟨body, tail⟩ =>
      Mirrors.functionBody ((mirrors_stmtLines body).bind fun _ =>
        (mirrors_tailLine .returned tail).map fun _ => rfl)

theorem mirrors_arrowText : ∀ block : Block,
    Mirrors ⟨name, reference⟩ (arrowText block)
      (arrowText (block.replace (.every name reference)))
  | ⟨[], some tail⟩ =>
      Mirrors.arrowTail ((mirrors_exprText tail).map fun _ => by rw [grouped_replace])
  | ⟨[], none⟩ =>
      Mirrors.functionBody ((mirrors_stmtLines []).bind fun _ =>
        (mirrors_tailLine .returned none).map fun _ => rfl)
  | ⟨stmt :: stmts, tail⟩ =>
      Mirrors.functionBody ((mirrors_stmtLines (stmt :: stmts)).bind fun _ =>
        (mirrors_tailLine .returned tail).map fun _ => rfl)

theorem mirrors_bodyText? (keyword : String) : ∀ block : Option Block,
    Mirrors ⟨name, reference⟩ (bodyText? keyword block)
      (bodyText? keyword (blockReplace? (.every name reference) block))
  | none => mirrors_pure ""
  | some block => (mirrors_bodyText block).map fun _ => rfl

theorem mirrors_branchText : ∀ branch : Branch,
    Mirrors ⟨name, reference⟩ (branchText branch)
      (branchText (branch.replace (.every name reference)))
  | ⟨test, body⟩ =>
      (mirrors_exprText test).bind fun _ => (mirrors_bodyText body).map fun _ => rfl

theorem mirrors_branchTexts : ∀ branches : List Branch,
    Mirrors ⟨name, reference⟩ (branchTexts branches)
      (branchTexts (branchesReplace (.every name reference) branches))
  | [] => mirrors_pure []
  | branch :: branches =>
      (mirrors_branchText branch).bind fun _ => (mirrors_branchTexts branches).map fun _ => rfl

theorem mirrors_handlerText : ∀ handler : Option Handler,
    Mirrors ⟨name, reference⟩ (handlerText handler)
      (handlerText (handlerReplace? (.every name reference) handler))
  | none => mirrors_pure ""
  | some ⟨param, body⟩ =>
      (mirrors_patternText? false param).bind fun _ => (mirrors_bodyText body).map fun _ => rfl

theorem mirrors_stmtText : ∀ stmt : Stmt,
    Mirrors ⟨name, reference⟩ (stmtText stmt) (stmtText (stmt.replace (.every name reference)))
  | .decl kind pattern (some init) => by
      change Mirrors _ (stmtText (.decl kind pattern (some init)))
        (stmtText (.decl kind (pattern.replace _ false) (some (init.replace _))))
      rw [stmtText_decl_some, stmtText_decl_some]
      exact (mirrors_patternText false pattern).bind fun _ =>
        (mirrors_exprText init).map fun _ => by rw [grouped_replace]
  | .decl kind pattern none => by
      change Mirrors _ (stmtText (.decl kind pattern none))
        (stmtText (.decl kind (pattern.replace _ false) none))
      rw [stmtText_decl_none, stmtText_decl_none, isIdentPattern_replace]
      refine (mirrors_patternText false pattern).bind fun _ => ?_
      split
      · exact mirrors_throw _
      · exact mirrors_pure _
  | .assign target op value => (mirrors_exprText value).bind fun _ => by
      rw [grouped_replace]
      exact mirrors_assignText op _ target
  | .expr e => (mirrors_exprText e).map fun _ => by rw [grouped_replace]
  | .ifElse branches otherwise =>
      (mirrors_branchTexts branches).bind fun _ => (mirrors_bodyText? _ otherwise).map fun _ => rfl
  | .whileLoop test body =>
      (mirrors_exprText test).bind fun _ => (mirrors_bodyText body).map fun _ => rfl
  | .loop body => (mirrors_bodyText body).map fun _ => rfl
  | .forIn pattern iterable body =>
      (mirrors_patternText false pattern).bind fun _ => (mirrors_exprText iterable).bind fun _ =>
        (mirrors_bodyText body).map fun _ => by rw [grouped_replace]
  | .forRange _ start stop step body =>
      mirrors_freshNumber.bind fun _ => (mirrors_exprText start).bind fun _ =>
        (mirrors_exprText stop).bind fun _ => (mirrors_exprText? step).bind fun _ =>
          (mirrors_bodyText body).map fun _ => by rw [grouped_replace, grouped_replace]
  | .ret value => (mirrors_exprText? value).bind fun text => by
      cases text <;> exact mirrors_pure _
  | .breakLoop | .continueLoop | .importFrom _ => mirrors_pure _
  | .throw e => (mirrors_exprText e).map fun _ => by rw [grouped_replace]
  | .tryCatch body handler finalizer =>
      (mirrors_bodyText body).bind fun _ => (mirrors_handlerText handler).bind fun _ =>
        (mirrors_bodyText? _ finalizer).map fun _ => rfl
  | .guard pattern e error fallback => by
      -- `guarded e` is either `e` or its operand, so the recursion needs the form of `e`.
      have hguarded : Mirrors ⟨name, reference⟩ (exprText (guarded e))
          (exprText ((guarded e).replace (.every name reference))) := by
        cases e with
        | await operand => exact mirrors_exprText operand
        | _ => exact mirrors_exprText _
      change Mirrors _ (stmtText (.guard pattern e error fallback))
        (stmtText (.guard (patternReplace? _ false pattern) (e.replace _) error
          (fallback.replace _)))
      rw [stmtText_guard, stmtText_guard, awaits_replace, guarded_replace]
      exact Mirrors.guardText (hguarded.map fun _ => by rw [grouped_replace])
        (mirrors_blockLines .discarded fallback) (mirrors_patternText? false pattern) _ _
  | .function f => by
      change Mirrors _ (stmtText (.function f)) (stmtText (.function (f.replace _)))
      rw [stmtText, stmtText, name_replace]
      split
      · exact mirrors_throw _
      · exact mirrors_functionText f
  | .exportDecl decl => by
      change Mirrors _ (stmtText (.exportDecl decl)) (stmtText (.exportDecl (decl.replace _)))
      rw [stmtText, stmtText, isDeclaration_replace]
      split
      · exact (mirrors_stmtText decl).map fun _ => rfl
      · exact mirrors_throw _
  | .exportDefault e => (mirrors_exprText e).map fun _ => by rw [grouped_replace]

theorem mirrors_stmtLines : ∀ stmts : List Stmt,
    Mirrors ⟨name, reference⟩ (stmtLines stmts)
      (stmtLines (stmtsReplace (.every name reference) stmts))
  | [] => mirrors_pure ""
  | stmt :: stmts =>
      (mirrors_stmtText stmt).bind fun _ => (mirrors_line _).bind fun _ =>
        (mirrors_stmtLines stmts).map fun _ => rfl

end

end Lowering

/-- Lowering an expression with a name read under another one is lowering, with all names read as
they are, the expression in which the name is replaced: the text and the state, or the defect, are
the same. -/
theorem exprText_rebound (name reference : String) (e : Expr) (s : Emitter) :
    exprText e { s with rebind := some ⟨name, reference⟩ } =
      (exprText (e.replace (.every name reference)) { s with rebind := none }).map
        fun p => (p.1, { p.2 with rebind := some ⟨name, reference⟩ }) :=
  (mirrors_exprText name reference e { s with rebind := none } rfl).2

-- The stage that binds `b` keeps its expression, and what is in short form gets its value.
example : (Expr.pipeline (.object [.shorthand "a"])
      [.bind "b" (.ident "a"), .call (.ident "a")]).replace (.every "a" "_ref1") =
    .pipeline (.object [.keyValue (.ident "a") (.ident "_ref1")])
      [.bind "b" (.ident "a"), .call (.ident "_ref1")] := rfl

/-! ## Stages that bind a name -/

/-- The lowering with all names read as they are. -/
def plainly (m : Lower α) : Lower α := fun s =>
  (m { s with rebind := none }).map fun p => (p.1, { p.2 with rebind := s.rebind })

theorem stageText_bind (reference name : String) (e : Expr) :
    stageText reference (.bind name e) =
      plainly (elementText (.expr (e.replace (.every name reference)))) := by
  funext s
  have hrun := (mirrors_exprText name reference e { s with rebind := none } rfl).2
  change ((exprText e { s with rebind := some ⟨name, reference⟩ }).map _).bind _ =
    ((exprText (e.replace (.every name reference)) { s with rebind := none }).bind _).map _
  rw [hrun]
  cases exprText (e.replace (.every name reference)) { s with rebind := none } with
  | error d => rfl
  | ok p => exact congrArg (fun text => Except.ok (text, _)) (grouped_replace _ e p.1).symm

/-- An arrow function with a parameter and a result. -/
def arrow (param : String) (result : Expr) : Expr :=
  .function ⟨none, [⟨.ident param, none, false⟩], ⟨[], some result⟩, false, false, true⟩

/-- A stage that binds a name is lowered as its expression with the name replaced by the variable
that holds the running value.  Bound occurrences are replaced like free ones; without them, and
outside of inner pipelines, this replaces exactly the free occurrences. -/
theorem stageText_bind_replace (reference name : String) (e : Expr) :
    stageText reference (.bind name e) =
        plainly (elementText (.expr (e.replace (.every name reference)))) ∧
      (Everywhere (Piece.Spares name) e.pieces →
        stageText reference (.bind name e) =
          plainly (elementText (.expr (e.replace (.free name reference))))) := by
  refine ⟨stageText_bind reference name e, ?_⟩
  intro hspares
  rw [replace_free_expr e hspares]
  exact stageText_bind reference name e

/-- The name is replaced inside a function with another parameter, in short form too. -/
theorem stageText_bind_replace_closure :
    Everywhere (Piece.Spares "a") (arrow "b" (.object [.shorthand "a", .shorthand "b"])).pieces ∧
      stageText "_ref1" (.bind "a" (arrow "b" (.object [.shorthand "a", .shorthand "b"]))) =
        plainly (elementText (.expr (arrow "b"
          (.object [.keyValue (.ident "a") (.ident "_ref1"), .shorthand "b"])))) := by
  have hspares : Everywhere (Piece.Spares "a")
      (arrow "b" (.object [.shorthand "a", .shorthand "b"])).pieces := by
    simp [arrow, Piece.Spares, Piece.IsPipeline, Piece.Binds, stmtsPieces, paramsPieces]
  exact ⟨hspares, (stageText_bind_replace "_ref1" "a" _).2 hspares⟩

/-- A parameter of the same name does not keep its occurrences from being replaced: this stage gives
`(a) => _ref1`. -/
theorem stageText_bind_parameter :
    ¬ ∀ (reference name : String) (e : Expr), (∀ piece ∈ e.pieces, ¬ piece.IsPipeline) →
      stageText reference (.bind name e) =
        plainly (elementText (.expr (e.replace (.free name reference)))) := by
  intro h
  have hpieces : ∀ piece ∈ (arrow "a" (.ident "a")).pieces, ¬ piece.IsPipeline := by
    simp [arrow, Piece.IsPipeline, stmtsPieces, paramsPieces]
  have htexts := congrArg (fun result => result.toOption.map Prod.fst)
    (congrFun (h "_ref1" "a" _ hpieces) {})
  have hbound : some "(a) => _ref1" = some "(a) => a" := htexts
  simp at hbound

end JavaScript

end PegScript

import PegScript.Proofs.JavaScript.Effects
import PegScript.Proofs.JavaScript.Scanner
import PegScript.Proofs.JavaScript.Trimming
import PegScript.Proofs.Language.WellFormed

/-!
# Balanced programs

Every statement of a generated program is balanced on its own, if the program was parsed.  The fixed
texts of the lowering close what they open, names and numbers open nothing, and literals end where
they should.
-/

namespace PegScript

namespace JavaScript

open Lower Scanner PegScript.Language

/-! ## Fixed texts -/

section Fixed

variable (opened : List Opener)

@[simp]
theorem scan_openParen : scan ⟨.code, opened⟩ "(" = some ⟨.code, .paren :: opened⟩ := rfl

@[simp]
theorem scan_closeParen : scan ⟨.code, .paren :: opened⟩ ")" = some ⟨.code, opened⟩ := rfl

@[simp]
theorem scan_openBracket : scan ⟨.code, opened⟩ "[" = some ⟨.code, .bracket :: opened⟩ := rfl

@[simp]
theorem scan_closeBracket : scan ⟨.code, .bracket :: opened⟩ "]" = some ⟨.code, opened⟩ := rfl

@[simp]
theorem scan_closeBrace : scan ⟨.code, .brace :: opened⟩ "\x7d" = some ⟨.code, opened⟩ := rfl

end Fixed

/-! ## Shapes -/

section Shapes

variable {t : String} {ts : List String} {e : Expr}

theorem balanced_nil : Balanced "" :=
  fun _ => rfl

theorem Balanced.append {t' : String} (h : Balanced t) (h' : Balanced t') : Balanced (t ++ t') := by
  intro opened
  simp [h, h']

theorem balanced_join (h : ∀ t ∈ ts, Balanced t) : Balanced (String.join ts) := by
  induction ts with
  | nil => exact balanced_nil
  | cons t ts ih =>
      obtain ⟨ht, hts⟩ := List.forall_mem_cons.mp h
      rw [String.join_cons]
      exact ht.append (ih hts)

theorem balanced_intercalate {sep : String} (hsep : Quiet sep) (h : ∀ t ∈ ts, Balanced t) :
    Balanced (sep.intercalate ts) := by
  induction ts with
  | nil => exact balanced_nil
  | cons t ts ih =>
      obtain ⟨ht, hts⟩ := List.forall_mem_cons.mp h
      cases ts with
      | nil => simpa using ht
      | cons t' ts =>
          rw [String.intercalate_cons_cons]
          exact (ht.append (balanced_of_quiet hsep)).append (ih hts)

@[simp]
theorem balanced_commaList (h : ∀ t ∈ ts, Balanced t) : Balanced (commaList ts) :=
  balanced_intercalate (by decide) h

@[simp]
theorem balanced_parens (h : Balanced t) : Balanced (parens t) := by
  intro opened
  simp [parens, h]

@[simp]
theorem balanced_objectText (h : ∀ t ∈ ts, Balanced t) : Balanced (objectText ts) := by
  intro opened
  have hopen : scan ⟨.code, opened⟩ "\x7b " = some ⟨.code, .brace :: opened⟩ := rfl
  have hclose : scan ⟨.code, .brace :: opened⟩ " \x7d" = some ⟨.code, opened⟩ := rfl
  unfold objectText
  split
  · rfl
  · simp [hopen, hclose, balanced_commaList h]

@[simp]
theorem balanced_grouped (h : Balanced t) : Balanced (grouped e t) := by
  unfold grouped
  split
  · exact balanced_parens h
  · exact balanced_parens h
  · exact h

@[simp]
theorem balanced_asOperand (h : Balanced t) : Balanced (asOperand e t) := by
  unfold asOperand
  split
  · exact balanced_parens h
  · exact balanced_parens h
  · exact balanced_grouped h

@[simp]
theorem balanced_asUnaryOperand (h : Balanced t) : Balanced (asUnaryOperand e t) := by
  unfold asUnaryOperand
  split
  case h_5 => exact balanced_grouped h
  all_goals exact balanced_parens h

@[simp]
theorem balanced_asTarget (h : Balanced t) : Balanced (asTarget e t) := by
  unfold asTarget
  split
  case h_6 => exact balanced_grouped h
  all_goals exact balanced_parens h

@[simp]
theorem balanced_asConstructor (h : Balanced t) : Balanced (asConstructor e t) := by
  unfold asConstructor
  split
  · exact h
  · exact balanced_parens (balanced_grouped h)

@[simp]
theorem balanced_arrowResult (h : Balanced t) : Balanced (arrowResult t) := by
  unfold arrowResult
  split
  · exact balanced_parens h
  · exact h

@[simp]
theorem balanced_statementText (h : Balanced t) : Balanced (statementText t) := by
  unfold statementText
  intro opened
  split
  · simp +decide [h]
  · simp +decide [h]

@[simp]
theorem balanced_tailText {use : TailUse} (h : Balanced t) : Balanced (tailText use t) := by
  cases use with
  | returned =>
      intro opened
      simp +decide [tailText, h]
  | discarded => exact balanced_statementText h

@[simp]
theorem balanced_withDefault {default : Option String} (h : Balanced t)
    (hdefault : ∀ d ∈ default, Balanced d) : Balanced (withDefault t default) := by
  cases default with
  | none => exact h
  | some d =>
      intro opened
      simp +decide [withDefault, h, hdefault]

@[simp]
theorem balanced_calledBlock {isAsync : Bool} (h : Balanced t) :
    Balanced (calledBlock isAsync t) := by
  intro opened
  have hopen : scan ⟨.code, opened⟩ "(await (async () =>" =
    some ⟨.code, .paren :: .paren :: opened⟩ := rfl
  have hclose : scan ⟨.code, .paren :: .paren :: opened⟩ ")())" = some ⟨.code, opened⟩ := rfl
  have hopen' : scan ⟨.code, opened⟩ "(() =>" = some ⟨.code, .paren :: opened⟩ := rfl
  have hclose' : scan ⟨.code, .paren :: opened⟩ ")()" = some ⟨.code, opened⟩ := rfl
  unfold calledBlock
  split
  · simp [hopen, hclose, h]
  · simp [hopen', hclose', h]

theorem balanced_functionHead {f : FunctionDef} (hname : ∀ name ∈ f.name, Quiet name)
    (h : ∀ t ∈ ts, Balanced t) : Balanced (functionHead f ts) := by
  intro opened
  unfold functionHead
  have hparams := balanced_parens (balanced_commaList h)
  cases f.isAsync <;> cases f.isArrow <;> cases f.isGenerator <;> cases hf : f.name <;>
    simp_all +decide

theorem balanced_countingHead {id : Nat} {binding start stop step : String}
    (hbinding : Quiet binding) (hstart : Balanced start) (hstop : Balanced stop)
    (hstep : Balanced step) :
    Balanced (countingHead id binding start stop step) := by
  intro opened
  have hopen : scan ⟨.code, opened⟩ "for (let " = some ⟨.code, .paren :: opened⟩ := rfl
  have habs : scan ⟨.code, .paren :: opened⟩ " = Math.abs(" =
      some ⟨.code, .paren :: .paren :: opened⟩ := rfl
  have hclose : scan ⟨.code, .paren :: .paren :: opened⟩ "), " =
      some ⟨.code, .paren :: opened⟩ := rfl
  unfold countingHead
  simp +decide [hopen, habs, hclose, hbinding, hstart, hstop, hstep]

@[simp]
theorem quiet_helperName (h : Helper) : Quiet h.name := by
  cases h <;> decide

theorem quiet_append {t' : String} (h : Quiet t) (h' : Quiet t') : Quiet (t ++ t') := by
  intro c hc
  rw [String.toList_append, List.mem_append] at hc
  exact hc.elim (h c) (h' c)

/-- A call whose parenthesis opens within `opening` and closes behind the argument. -/
theorem balanced_calling {callee opening : String} (hcallee : Quiet callee)
    (hopening : ∀ opened, scan ⟨.code, opened⟩ opening = some ⟨.code, .paren :: opened⟩)
    (h : Balanced t) : Balanced (callee ++ opening ++ t ++ ")") := by
  intro opened
  simp [hcallee, hopening, h]

theorem balanced_guardCall {isAsync : Bool} (h : Balanced t) : Balanced (guardCall isAsync t) := by
  cases isAsync with
  | true =>
    exact balanced_calling (quiet_append (by decide) (quiet_helperName .safeAsync))
      (fun _ => rfl) h
  | false => exact balanced_calling (quiet_helperName .safe) (fun _ => rfl) h

theorem quiet_of_isBlank (h : IsBlank t) : Quiet t := by
  obtain ⟨n, rfl⟩ := h
  intro c hc
  rw [String.toList_ofList, List.mem_replicate] at hc
  rw [hc.2]
  decide

theorem balanced_of_declaresNames (h : DeclaresNames Quiet t) : Balanced t := by
  obtain ⟨names, blanks, hnames, hblanks, rfl⟩ := h
  refine balanced_join ?_
  intro line hline
  obtain ⟨name, hname, rfl⟩ := List.mem_map.mp hline
  intro opened
  simp +decide [declaration, hnames name hname, quiet_of_isBlank hblanks]

theorem balanced_braces {blanks : String} (h : Balanced t) (hblanks : IsBlank blanks) :
    Balanced (" \x7b\n" ++ t ++ blanks ++ "\x7d") := by
  intro opened
  have hopen : scan ⟨.code, opened⟩ " \x7b\n" = some ⟨.code, .brace :: opened⟩ := rfl
  simp [hopen, h, quiet_of_isBlank hblanks]

theorem balanced_importSpecText {spec : ImportSpec} (h : spec.Named) :
    Balanced (importSpecText spec) := by
  intro opened
  have hname := quiet_of_isName h.name
  unfold importSpecText
  split
  case h_1 name hlocal =>
    have hlocal := quiet_of_isVariable (h.localName name hlocal)
    simp +decide [hname, hlocal]
  case h_2 => exact balanced_of_quiet hname opened

theorem balanced_importClauses {clause : Import} (h : clause.Named) :
    ∀ t ∈ importClauses clause, Balanced t := by
  intro t ht
  simp only [importClauses, List.mem_append, Option.mem_toList, List.mem_map] at ht
  rcases ht with (hdefault | ⟨name, hname, rfl⟩) | hnamed
  · exact balanced_of_quiet (quiet_of_isVariable (h.default t hdefault))
  · have hname := quiet_of_isVariable (h.namespaceName name hname)
    intro opened
    simp +decide [hname]
  · split at hnamed
    · cases hnamed
    · rw [List.mem_singleton] at hnamed
      subst hnamed
      refine balanced_objectText ?_
      intro t ht
      obtain ⟨spec, hspec, rfl⟩ := List.mem_map.mp ht
      exact balanced_importSpecText (h.named spec hspec)

theorem balanced_importText {clause : Import} (h : clause.Named)
    (hsource : IsStringText clause.source.toList) : Balanced (importText clause) := by
  intro opened
  have hnames := balanced_commaList (balanced_importClauses h)
  have hsource := balanced_plain hsource
  unfold importText
  dsimp only
  split
  · simp +decide [hsource]
  · simp +decide [hsource, hnames]

@[simp]
theorem quiet_unaryToken (op : UnaryOp) : Quiet (unaryToken op) := by
  cases op <;> decide

@[simp]
theorem quiet_binaryToken (op : BinaryOp) : Quiet (binaryToken op) := by
  cases op <;> decide

@[simp]
theorem quiet_assignToken (op : AssignOp) : Quiet op.token := by
  cases op <;> decide

@[simp]
theorem quiet_keyword (kind : DeclKind) : Quiet kind.keyword := by
  cases kind <;> decide

/-- The steps of a pipeline. -/
theorem balanced_steps {reference : String} (href : Quiet reference) (h : ∀ t ∈ ts, Balanced t) :
    Balanced (parens (commaList (ts.map (fun value => reference ++ " = " ++ value)
      ++ [reference]))) := by
  refine balanced_parens (balanced_commaList ?_)
  intro step hstep
  rcases List.mem_append.mp hstep with hmem | hlast
  · obtain ⟨value, hvalue, rfl⟩ := List.mem_map.mp hmem
    intro opened
    simp +decide [href, h value hvalue]
  · rw [List.mem_singleton.mp hlast]
    exact balanced_of_quiet href

/-- Items of a pattern, with the rest behind them. -/
theorem balanced_rest {rest : Option String} (h : ∀ t ∈ ts, Balanced t)
    (hrest : ∀ t ∈ rest, Balanced t) :
    ∀ t ∈ ts ++ rest.toList.map ("..." ++ ·), Balanced t := by
  intro t ht
  rcases List.mem_append.mp ht with hmem | hlast
  · exact h t hmem
  · obtain ⟨name, hname, rfl⟩ := List.mem_map.mp hlast
    exact (balanced_of_quiet (by decide)).append (hrest name (Option.mem_toList.mp hname))

theorem balanced_singleLine {parts : List StrPart} (h : StringParts parts)
    (hline : singleLine? parts = some t) : Balanced (plain t) := by
  unfold singleLine? at hline
  split at hline
  case h_1 =>
    cases hline
    exact fun _ => rfl
  case h_2 text =>
    split at hline
    · cases hline
    · cases hline
      exact balanced_plain (h.texts _ List.mem_cons_self).2
  case h_3 => cases hline

theorem balanced_while_true : Balanced "while (true)" :=
  fun _ => rfl

theorem balanced_helperCall {h : Helper} (hts : ∀ t ∈ ts, Balanced t) :
    Balanced (h.name ++ parens (commaList ts)) :=
  (balanced_of_quiet (quiet_helperName h)).append (balanced_parens (balanced_commaList hts))

theorem balanced_forHead {p i : String} (hp : Balanced p) (hi : Balanced i) :
    Balanced s!"for (const {p} of {i})" := by
  intro opened
  have hopen : scan ⟨.code, opened⟩ "for (const " = some ⟨.code, .paren :: opened⟩ := rfl
  simp +decide [hopen, hp, hi]

end Shapes

/-! ## Every tree has a balanced text -/

theorem yields_quietName {name : String} (h : Quiet name) : Yields Quiet Quiet (readAs name) := by
  refine (yields_readAs name).mono ?_
  rintro text (rfl | htext)
  · exact h
  · exact htext

theorem yields_braces {lines : Lower String} (h : Yields Quiet Balanced lines) :
    Yields Quiet Balanced (braces lines) :=
  h.braces fun _ _ htext hblanks => balanced_braces htext hblanks

theorem yields_functionBody {lines : Lower String} (h : Yields Quiet Balanced lines) :
    Yields Quiet Balanced (functionBody lines) :=
  h.functionBody (fun _ _ => rfl) fun _ _ _ hdeclared htext hblanks =>
    balanced_braces ((balanced_of_declaresNames hdeclared).append htext) hblanks

theorem balanced_line {text blanks : String} (htext : Balanced text) (hblanks : IsBlank blanks) :
    Balanced (blanks ++ text ++ "\n") := by
  intro opened
  simp +decide [htext, quiet_of_isBlank hblanks]

theorem yields_arrowTail {result : Lower String} (h : Yields Quiet Balanced result) :
    Yields Quiet Balanced (arrowTail result) := by
  refine h.arrowTail ?_ ?_
  · intro text htext opened
    simp +decide [htext]
  · intro declared text blanks blanks' hdeclared htext hblanks hblanks'
    have hreturn : Balanced (tailText .returned text) := balanced_tailText htext
    have hline := balanced_line hreturn hblanks'
    exact balanced_braces ((balanced_of_declaresNames hdeclared).append hline) hblanks

theorem yields_balancedLine {text : String} (h : Balanced text) :
    Yields Quiet Balanced (line text) := by
  refine (yields_line text).mono ?_
  rintro l ⟨blanks, hblanks, rfl⟩
  exact balanced_line h hblanks

theorem yields_guardText {expr fallback : Lower String} {binding : Lower (Option String)}
    {isAsync : Bool} {error : String} (hexpr : Yields Quiet Balanced expr) (herror : Quiet error)
    (hfallback : Yields Quiet Balanced fallback)
    (hbinding : Yields Quiet (fun o => ∀ t ∈ o, Balanced t) binding) :
    Yields Quiet Balanced (guardText isAsync expr error fallback binding) := by
  have hfailed {result : String} (hresult : Quiet result) : Yields Quiet Balanced
      (Lower.braces do return (← line s!"const {error} = {result}.error;") ++ (← fallback)) := by
    have hconst : Balanced s!"const {error} = {result}.error;" := by
      intro opened
      simp +decide [herror, hresult]
    exact yields_braces ((yields_balancedLine hconst).bind fun _ hfirst =>
      hfallback.map fun _ => hfirst.append)
  rw [guardText_eq]
  refine yields_freshNumber.bind fun id _ => ?_
  have hresult : Quiet s!"_res{id}" := quiet_append (by decide) (quiet_repr id)
  refine (yields_need _).bind fun _ _ => hexpr.bind fun body hbody =>
    (hfailed hresult).bind fun failed hfailed => yields_indentation.bind fun start hstart =>
      hbinding.map fun bound hbound => ?_
  have hcall : Balanced (guardCall isAsync (arrowResult body)) :=
    balanced_guardCall (balanced_arrowResult hbody)
  have hstart := quiet_of_isBlank hstart
  intro opened
  have hopen : scan ⟨.code, opened⟩ "if (!" = some ⟨.code, .paren :: opened⟩ := rfl
  have hclose : scan ⟨.code, .paren :: opened⟩ ".ok)" = some ⟨.code, opened⟩ := rfl
  cases bound with
  | none => simp +decide [hcall, hstart, hfailed, hopen, hclose]
  | some pattern => simp +decide [hcall, hstart, hfailed, hopen, hclose, hbound]

mutual

theorem balanced_exprText : ∀ e : Expr, Sound e.pieces → Yields Quiet Balanced (exprText e)
  | .number _, h => yields_pure (balanced_of_quiet (quiet_number h.head.2))
  | .str parts, h => by
      rw [exprText]
      split
      case h_1 text hline => exact yields_pure (balanced_singleLine h.head.1 hline)
      case h_2 =>
        exact (balanced_partTexts parts h.head.1 h.tail).map fun texts htexts =>
          (htexts .template (Or.inl rfl) (by simp)).balanced
  | .rawStr text, _ => yields_pure (balanced_raw text)
  | .bool value, _ => yields_pure (by cases value <;> exact fun _ => rfl)
  | .null, _ => yields_pure fun _ => rfl
  | .undefined, _ => yields_pure fun _ => rfl
  | .this, _ => yields_pure fun _ => rfl
  | .ident _, h =>
      (yields_quietName (quiet_of_isVariable h.head.2)).mono fun _ => balanced_of_quiet
  | .array items, h =>
      (balanced_elementTexts items h.tail).map fun texts htexts opened => by
        simp [balanced_commaList htexts]
  | .object props, h => (balanced_propertyTexts props h.tail).map fun _ => balanced_objectText
  | .function f, h => balanced_functionText f h.tail
  | .doBlock block, h => (balanced_scopeText block h.tail).map fun _ => balanced_calledBlock
  | .unary op operand, h =>
      (balanced_exprText operand h.tail).map fun t ht opened => by simp [ht]
  | .binary op left right, h =>
      (balanced_exprText left h.tail.left).bind fun l hl =>
        (balanced_exprText right h.tail.right).map fun r hr opened => by
          split <;> simp +decide [hl, hr]
  | .conditional test consequent alternate, h =>
      (balanced_exprText test h.tail.left.left).bind fun t ht =>
        (balanced_exprText consequent h.tail.left.right).bind fun c hc =>
          (balanced_exprText alternate h.tail.right).map fun a ha opened => by
            simp +decide [ht, hc, ha]
  | .call callee args optional, h =>
      (balanced_exprText callee h.tail.left).bind fun f hf =>
        (balanced_elementTexts args h.tail.right).map fun texts htexts opened => by
          cases optional <;> simp +decide [hf, balanced_commaList htexts]
  | .new callee args, h =>
      (balanced_exprText callee h.tail.left).bind fun f hf =>
        (balanced_elementTexts args h.tail.right).map fun texts htexts opened => by
          simp +decide [hf, balanced_commaList htexts]
  | .member object property optional, h =>
      (balanced_exprText object h.tail).map fun o ho opened => by
        have hproperty : Quiet property := quiet_of_isName h.head.2
        cases optional <;> simp +decide [ho, hproperty]
  | .index object index, h => by
      rw [exprText]
      split
      case isTrue =>
        exact (balanced_exprText object h.tail.left).bind fun o ho =>
          (balanced_exprText index h.tail.right).map fun i hi opened => by simp [ho, hi]
      case isFalse =>
        refine (yields_need .get).bind fun get hget =>
          (balanced_exprText object h.tail.left).bind fun o ho =>
            (balanced_exprText index h.tail.right).map fun i hi => ?_
        subst hget
        exact balanced_helperCall (by simp [ho, hi])
  | .pipeline head stages, h => by
      rw [exprText]
      split
      case isTrue => exact yields_throw
      case isFalse =>
        refine yields_freshNumber.bind fun id _ => ?_
        -- The variable is declared by the function around the pipeline, so its name is noted too.
        have href : Quiet s!"_ref{id}" := quiet_append (by decide) (quiet_repr id)
        exact (yields_hoist href).bind fun _ _ =>
          (balanced_exprText head h.tail.left).bind fun t ht =>
            (balanced_stageTexts href stages h.tail.right).map fun texts htexts =>
              balanced_steps href (List.forall_mem_cons.mpr ⟨balanced_grouped ht, htexts⟩)
  | .range start stop step, h => by
      refine (yields_need .range).bind fun range hrange =>
        (balanced_exprText start h.tail.left.left).bind fun a ha =>
          (balanced_exprText stop h.tail.left.right).bind fun b hb =>
            (balanced_exprText? step h.tail.right).map fun c hc => ?_
      subst hrange
      have hstep : Balanced (c.getD "1") := by
        cases c with
        | none => exact fun _ => rfl
        | some c => exact hc c rfl
      exact balanced_helperCall (by simp [ha, hb, hstep])
  | .await operand, h =>
      (balanced_exprText operand h.tail).map fun t ht opened => by simp +decide [ht]
  | .yield argument delegate, h => by
      refine (balanced_exprText? argument h.tail).bind fun text htext => ?_
      cases text with
      | none => exact yields_pure fun opened => by cases delegate <;> rfl
      | some text =>
          exact yields_pure fun opened => by cases delegate <;> simp +decide [htext text rfl]

theorem balanced_exprText? : ∀ e : Option Expr, Sound (exprPieces? e) →
    Yields Quiet (fun o => ∀ t ∈ o, Balanced t) (exprText? e)
  | none, _ => yields_pure (by simp)
  | some e, h => (balanced_exprText e h).map fun t ht => by simp [ht]

theorem balanced_partTexts : ∀ parts : List StrPart, StringParts parts → Sound (partsPieces parts) →
    Yields Quiet (fun ts => ∀ m : Mode, m.InTemplate →
      (m = .templateDollar → ∀ p ∈ parts.head?, p.isText = false) →
      StaysInTemplate m (String.join ts).toList) (partTexts parts)
  | [], _, _ => yields_pure fun _ hm _ => staysInTemplate_nil hm
  | .text text :: parts, hparts, h =>
      (balanced_partTexts parts hparts.tail h.right).map fun ts hts m hm hhead => by
        have htext : IsStringText text.toList := (hparts.texts text List.mem_cons_self).2
        rw [String.join_cons, String.toList_append, templateText, String.toList_ofList]
        refine (staysInTemplate_copy htext hm ?_).append fun m' hm' => hts m' hm' fun _ p hp =>
          hparts.isText_eq_false hp
        intro hdollar
        cases hhead hdollar (.text text) rfl
  | .expr e :: parts, hparts, h => by
      have hpart : Yields Quiet (fun t => ∀ m : Mode, m.InTemplate → ∀ opened,
          scanChars ⟨m, opened⟩ t.toList = some ⟨.template, opened⟩) (partText (.expr e)) :=
        (balanced_exprText e h.left.tail).map fun _ ht _ =>
          scanChars_substitution (balanced_grouped ht)
      refine hpart.bind fun t ht => (balanced_partTexts parts hparts.tail h.right).map ?_
      intro ts hts m hm _
      rw [String.join_cons, String.toList_append]
      exact (hts .template (Or.inl rfl) (by simp)).after (ht m hm)

theorem balanced_elementText : ∀ element : Element, Sound element.pieces →
    Yields Quiet Balanced (elementText element)
  | .expr e, h => (balanced_exprText e h.tail).map fun _ => balanced_grouped
  | .spread e, h => (balanced_exprText e h.tail).map fun t ht opened => by simp +decide [ht]

theorem balanced_elementTexts : ∀ elements : List Element, Sound (elementsPieces elements) →
    Yields Quiet (fun ts => ∀ t ∈ ts, Balanced t) (elementTexts elements)
  | [], _ => yields_pure (by simp)
  | element :: elements, h =>
      (balanced_elementText element h.left).bind fun _ ht =>
        (balanced_elementTexts elements h.right).map fun _ hts =>
          List.forall_mem_cons.mpr ⟨ht, hts⟩

theorem balanced_propertyText : ∀ prop : Property, Sound prop.pieces →
    Yields Quiet Balanced (propertyText prop)
  | .keyValue key value, h =>
      (balanced_keyText key h.tail.left).bind fun k hk =>
        (balanced_exprText value h.tail.right).map fun v hv opened => by simp +decide [hk, hv]
  | .shorthand name, h => by
      have hname : Quiet name := quiet_of_isVariable h.head.2
      refine (yields_quietName hname).map fun read hread opened => ?_
      split <;> simp +decide [hname, hread]
  | .spread e, h => (balanced_exprText e h.tail).map fun t ht opened => by simp +decide [ht]

theorem balanced_propertyTexts : ∀ props : List Property, Sound (propertiesPieces props) →
    Yields Quiet (fun ts => ∀ t ∈ ts, Balanced t) (propertyTexts props)
  | [], _ => yields_pure (by simp)
  | prop :: props, h =>
      (balanced_propertyText prop h.left).bind fun _ ht =>
        (balanced_propertyTexts props h.right).map fun _ hts =>
          List.forall_mem_cons.mpr ⟨ht, hts⟩

theorem balanced_keyText : ∀ key : PropertyKey, Sound key.pieces →
    Yields Quiet Balanced (keyText key)
  | .ident _, h => yields_pure (balanced_of_quiet (quiet_of_isName h.head.2))
  | .str _, h => yields_pure (balanced_plain h.head.1)
  | .number _, h => yields_pure (balanced_of_quiet (quiet_number h.head.2))
  | .computed e, h => (balanced_exprText e h.tail).map fun t ht opened => by simp [ht]

theorem balanced_stageText {reference : String} (href : Quiet reference) :
    ∀ stage : PipeStage, Sound stage.pieces → Yields Quiet Balanced (stageText reference stage)
  | .bind name e, h =>
      ((balanced_exprText e h.tail).rebinding href name).map fun _ => balanced_grouped
  | .call callee, h =>
      (balanced_exprText callee h.tail).map fun t ht opened => by simp [parens, ht, href]

theorem balanced_stageTexts {reference : String} (href : Quiet reference) :
    ∀ stages : List PipeStage, Sound (stagesPieces stages) →
      Yields Quiet (fun ts => ∀ t ∈ ts, Balanced t) (stageTexts reference stages)
  | [], _ => yields_pure (by simp)
  | stage :: stages, h =>
      (balanced_stageText href stage h.left).bind fun _ ht =>
        (balanced_stageTexts href stages h.right).map fun _ hts =>
          List.forall_mem_cons.mpr ⟨ht, hts⟩

theorem balanced_functionText : ∀ f : FunctionDef, Sound f.pieces →
    Yields Quiet Balanced (functionText f)
  | ⟨name, params, body, isAsync, isGenerator, isArrow⟩, h => by
      have hname : ∀ n ∈ name, Quiet n := fun n hn => quiet_of_isVariable (h.head.2 n hn)
      refine (balanced_paramTexts params h.tail.left).bind fun texts htexts => ?_
      have hhead := balanced_functionHead
        (f := ⟨name, params, body, isAsync, isGenerator, isArrow⟩) hname htexts
      cases isArrow with
      | true => exact (balanced_arrowText body h.tail.right).map fun _ => hhead.append
      | false => exact (balanced_scopeText body h.tail.right).map fun _ => hhead.append

theorem balanced_paramText : ∀ param : Param, Sound param.pieces →
    Yields Quiet Balanced (paramText param)
  | ⟨pattern, default, rest⟩, h =>
      (balanced_patternText pattern h.tail.left).bind fun t ht =>
        (balanced_exprText? default h.tail.right).map fun d hd => by
          refine balanced_withDefault ?_ hd
          split
          · exact (balanced_of_quiet (by decide)).append ht
          · exact ht

theorem balanced_paramTexts : ∀ params : List Param, Sound (paramsPieces params) →
    Yields Quiet (fun ts => ∀ t ∈ ts, Balanced t) (paramTexts params)
  | [], _ => yields_pure (by simp)
  | param :: params, h =>
      (balanced_paramText param h.left).bind fun _ ht =>
        (balanced_paramTexts params h.right).map fun _ hts =>
          List.forall_mem_cons.mpr ⟨ht, hts⟩

theorem balanced_patternText : ∀ pattern : Pattern, Sound pattern.pieces →
    Yields Quiet Balanced (patternText pattern)
  | .ident _, h => yields_pure (balanced_of_quiet (quiet_of_isVariable h.head.2))
  | .object props rest, h =>
      (balanced_patternPropTexts props h.tail).map fun ts hts =>
        balanced_objectText (balanced_rest hts fun name hname =>
          balanced_of_quiet (quiet_of_isVariable (h.head.2 name hname)))
  | .array items rest, h =>
      (balanced_arrayItemTexts items h.tail.left).bind fun ts hts =>
        (balanced_patternText? rest h.tail.right).map fun r hr opened => by
          simp [balanced_commaList (balanced_rest hts hr)]

theorem balanced_patternText? : ∀ pattern : Option Pattern, Sound (patternPieces? pattern) →
    Yields Quiet (fun o => ∀ t ∈ o, Balanced t) (patternText? pattern)
  | none, _ => yields_pure (by simp)
  | some pattern, h => (balanced_patternText pattern h).map fun t ht => by simp [ht]

theorem balanced_patternPropText : ∀ prop : PatternProp, Sound prop.pieces →
    Yields Quiet Balanced (patternPropText prop)
  | ⟨key, value, default⟩, h => by
      have hkey : Quiet key := quiet_of_isName h.head.2
      refine (balanced_patternText? value h.tail.left).bind fun v hv =>
        (balanced_exprText? default h.tail.right).map fun d hd => ?_
      refine balanced_withDefault ?_ hd
      cases v with
      | none => exact balanced_of_quiet hkey
      | some v =>
          intro opened
          simp +decide [hkey, hv]

theorem balanced_patternPropTexts : ∀ props : List PatternProp, Sound (patternPropsPieces props) →
    Yields Quiet (fun ts => ∀ t ∈ ts, Balanced t) (patternPropTexts props)
  | [], _ => yields_pure (by simp)
  | prop :: props, h =>
      (balanced_patternPropText prop h.left).bind fun _ ht =>
        (balanced_patternPropTexts props h.right).map fun _ hts =>
          List.forall_mem_cons.mpr ⟨ht, hts⟩

theorem balanced_arrayItemText : ∀ item : ArrayItem, Sound item.pieces →
    Yields Quiet Balanced (arrayItemText item)
  | ⟨pattern, default⟩, h =>
      (balanced_patternText pattern h.tail.left).bind fun _ ht =>
        (balanced_exprText? default h.tail.right).map fun _ => balanced_withDefault ht

theorem balanced_arrayItemTexts : ∀ items : List ArrayItem, Sound (arrayItemsPieces items) →
    Yields Quiet (fun ts => ∀ t ∈ ts, Balanced t) (arrayItemTexts items)
  | [], _ => yields_pure (by simp)
  | item :: items, h =>
      (balanced_arrayItemText item h.left).bind fun _ ht =>
        (balanced_arrayItemTexts items h.right).map fun _ hts =>
          List.forall_mem_cons.mpr ⟨ht, hts⟩

theorem balanced_tailLine (use : TailUse) : ∀ tail : Option Expr, Sound (exprPieces? tail) →
    Yields Quiet Balanced (tailLine use tail)
  | none, _ => yields_pure balanced_nil
  | some e, h =>
      (balanced_exprText e h).bind fun _ ht =>
        yields_balancedLine (balanced_tailText (balanced_grouped ht))

theorem balanced_blockLines (use : TailUse) : ∀ block : Block, Sound block.pieces →
    Yields Quiet Balanced (blockLines use block)
  | ⟨body, tail⟩, h =>
      (balanced_stmtLines body h.tail.left).bind fun _ hlines =>
        (balanced_tailLine use tail h.tail.right).map fun _ => hlines.append

theorem balanced_bodyText : ∀ block : Block, Sound block.pieces →
    Yields Quiet Balanced (bodyText block)
  | ⟨body, tail⟩, h => by
      rw [bodyText]
      split
      case isTrue => exact yields_pure fun _ => rfl
      case isFalse =>
        exact yields_braces ((balanced_stmtLines body h.tail.left).bind fun _ hlines =>
          (balanced_tailLine .discarded tail h.tail.right).map fun _ => hlines.append)

theorem balanced_scopeText : ∀ block : Block, Sound block.pieces →
    Yields Quiet Balanced (scopeText block)
  | ⟨body, tail⟩, h =>
      yields_functionBody ((balanced_stmtLines body h.tail.left).bind fun _ hlines =>
        (balanced_tailLine .returned tail h.tail.right).map fun _ => hlines.append)

theorem balanced_arrowText : ∀ block : Block, Sound block.pieces →
    Yields Quiet Balanced (arrowText block)
  | ⟨[], some tail⟩, h => by
      rw [arrowText]
      exact yields_arrowTail ((balanced_exprText tail h.tail.right).map fun _ => balanced_grouped)
  | ⟨[], none⟩, h => by
      rw [arrowText]
      · exact yields_functionBody (yields_pure balanced_nil)
      · simp
  | ⟨stmt :: stmts, tail⟩, h => by
      rw [arrowText]
      · exact yields_functionBody ((balanced_stmtLines (stmt :: stmts) h.tail.left).bind
          fun _ hlines => (balanced_tailLine .returned tail h.tail.right).map
            fun _ => hlines.append)
      · simp

theorem balanced_bodyText? {keyword : String} (hkeyword : Quiet keyword) :
    ∀ block : Option Block, Sound (blockPieces? block) →
      Yields Quiet Balanced (bodyText? keyword block)
  | none, _ => yields_pure balanced_nil
  | some block, h =>
      (balanced_bodyText block h).map fun _ => (balanced_of_quiet hkeyword).append

theorem balanced_branchText : ∀ branch : Branch, Sound branch.pieces →
    Yields Quiet Balanced (branchText branch)
  | ⟨test, body⟩, h =>
      (balanced_exprText test h.tail.left).bind fun t ht =>
        (balanced_bodyText body h.tail.right).map fun b hb opened => by simp +decide [ht, hb]

theorem balanced_branchTexts : ∀ branches : List Branch, Sound (branchesPieces branches) →
    Yields Quiet (fun ts => ∀ t ∈ ts, Balanced t) (branchTexts branches)
  | [], _ => yields_pure (by simp)
  | branch :: branches, h =>
      (balanced_branchText branch h.left).bind fun _ ht =>
        (balanced_branchTexts branches h.right).map fun _ hts =>
          List.forall_mem_cons.mpr ⟨ht, hts⟩

theorem balanced_handlerText : ∀ handler : Option Handler, Sound (handlerPieces? handler) →
    Yields Quiet Balanced (handlerText handler)
  | none, _ => yields_pure balanced_nil
  | some ⟨param, body⟩, h =>
      (balanced_patternText? param h.tail.left).bind fun p hp =>
        (balanced_bodyText body h.tail.right).map fun b hb opened => by
          cases p with
          | none => simp +decide [hb]
          | some p => simp +decide [hp p rfl, hb]

theorem balanced_stmtLines : ∀ stmts : List Stmt, Sound (stmtsPieces stmts) →
    Yields Quiet Balanced (stmtLines stmts)
  | [], _ => yields_pure balanced_nil
  | stmt :: stmts, h =>
      (balanced_stmtText stmt h.left).bind fun _ ht => (yields_balancedLine ht).bind fun _ hl =>
        (balanced_stmtLines stmts h.right).map fun _ => hl.append

theorem balanced_assignText (op : AssignOp) {value : String} (hvalue : Balanced value) :
    ∀ target : AssignTarget, Sound target.pieces →
      Yields Quiet Balanced (assignText op value target)
  | .ident _, h =>
      (yields_quietName (quiet_of_isVariable h.head.2)).map fun t ht opened => by
        simp +decide [ht, hvalue]
  | .member object property, h => by
      have hproperty : Quiet property := quiet_of_isName h.head.2
      exact (balanced_exprText object h.tail).map fun o ho opened => by
        simp +decide [ho, hproperty, hvalue]
  | .index object index, h => by
      rw [assignText]
      split
      case isTrue =>
        exact (balanced_exprText object h.tail.left).bind fun o ho =>
          (balanced_exprText index h.tail.right).map fun i hi opened => by
            simp +decide [ho, hi, hvalue]
      case isFalse =>
        refine (yields_need .set).bind fun set hset =>
          (balanced_exprText object h.tail.left).bind fun o ho =>
            (balanced_exprText index h.tail.right).bind fun i hi => ?_
        subst hset
        split
        case h_1 =>
          refine yields_pure (Balanced.append (balanced_helperCall ?_) fun _ => rfl)
          simp [ho, hi, hvalue]
        case h_2 binary _ =>
          refine (yields_need .get).map fun get hget => ?_
          subst hget
          have hitem : Balanced (commaList [grouped object o, grouped index i]) :=
            balanced_commaList (by simp [ho, hi])
          have hresult : Balanced (parens (Helper.get.name
              ++ parens (commaList [grouped object o, grouped index i])
              ++ " " ++ binaryToken binary ++ " " ++ value)) := by
            refine balanced_parens fun opened => ?_
            simp +decide [hitem, hvalue]
          refine Balanced.append (balanced_helperCall ?_) fun _ => rfl
          simp [ho, hi, hresult]
  | .pattern pattern, h => by
      rw [assignText]
      split
      case isTrue =>
        refine (balanced_patternText pattern h.tail).bind fun t ht => ?_
        cases pattern <;> exact yields_pure fun opened => by simp +decide [parens, ht, hvalue]
      case isFalse => exact yields_throw

theorem balanced_stmtText : ∀ stmt : Stmt, Sound stmt.pieces → Yields Quiet Balanced (stmtText stmt)
  | .decl kind pattern (some init), h => by
      rw [stmtText_decl_some]
      exact (balanced_patternText pattern h.tail.left).bind fun t ht =>
        (balanced_exprText init h.tail.right).map fun v hv opened => by simp +decide [ht, hv]
  | .decl kind pattern none, h => by
      rw [stmtText_decl_none]
      refine (balanced_patternText pattern h.tail.left).bind fun t ht => ?_
      split
      · exact yields_throw
      · exact yields_pure fun opened => by simp +decide [ht]
  | .assign target op value, h =>
      (balanced_exprText value h.tail.right).bind fun v hv =>
        balanced_assignText op (balanced_grouped hv) target h.tail.left
  | .expr e, h =>
      (balanced_exprText e h.tail).map fun _ ht => balanced_statementText (balanced_grouped ht)
  | .ifElse branches otherwise, h =>
      (balanced_branchTexts branches h.tail.left).bind fun ts hts =>
        (balanced_bodyText? (by decide) otherwise h.tail.right).map fun _ =>
          (balanced_intercalate (by decide) hts).append
  | .whileLoop test body, h =>
      (balanced_exprText test h.tail.left).bind fun t ht =>
        (balanced_bodyText body h.tail.right).map fun b hb opened => by simp +decide [ht, hb]
  | .loop body, h => (balanced_bodyText body h.tail).map fun _ hb => balanced_while_true.append hb
  | .forIn pattern iterable body, h =>
      (balanced_patternText pattern h.tail.left.left).bind fun p hp =>
        (balanced_exprText iterable h.tail.left.right).bind fun i hi =>
          (balanced_bodyText body h.tail.right).map fun b hb =>
            (balanced_forHead hp (balanced_grouped hi)).append hb
  | .forRange binding start stop step body, h => by
      have hbinding : Quiet binding := quiet_of_isVariable h.head.2
      refine yields_freshNumber.bind fun id _ =>
        (balanced_exprText start h.tail.left.left.left).bind fun a ha =>
          (balanced_exprText stop h.tail.left.left.right).bind fun b hb =>
            (balanced_exprText? step h.tail.left.right).bind fun c hc =>
              (balanced_bodyText body h.tail.right).map fun text htext => ?_
      refine Balanced.append (balanced_countingHead hbinding (balanced_grouped ha)
        (balanced_grouped hb) ?_) htext
      cases c with
      | none => exact fun _ => rfl
      | some c => exact hc c rfl
  | .ret value, h => by
      refine (balanced_exprText? value h.tail).bind fun text htext => ?_
      cases text with
      | none => exact yields_pure fun _ => rfl
      | some text => exact yields_pure fun opened => by simp +decide [htext]
  | .breakLoop, _ => yields_pure fun _ => rfl
  | .continueLoop, _ => yields_pure fun _ => rfl
  | .throw e, h => (balanced_exprText e h.tail).map fun t ht opened => by simp +decide [ht]
  | .tryCatch body handler finalizer, h =>
      (balanced_bodyText body h.tail.left.left).bind fun b hb =>
        (balanced_handlerText handler h.tail.left.right).bind fun c hc =>
          (balanced_bodyText? (by decide) finalizer h.tail.right).map fun f hf opened => by
            simp +decide [hb, hc, hf]
  | .guard pattern e error fallback, h => by
      have hguarded : Yields Quiet Balanced (exprText (guarded e)) := by
        cases e with
        | await operand => exact balanced_exprText operand h.tail.left.right.tail
        | _ => exact balanced_exprText _ h.tail.left.right
      rw [stmtText_guard]
      exact yields_guardText (hguarded.map fun _ => balanced_grouped)
        (quiet_of_isVariable h.head.2) (balanced_blockLines .discarded fallback h.tail.right)
        (balanced_patternText? pattern h.tail.left.left)
  | .function f, h => by
      rw [stmtText]
      split
      · exact yields_throw
      · exact balanced_functionText f h.tail
  | .importFrom clause, h => yields_pure (balanced_importText h.head.2 h.head.1.2)
  | .exportDecl decl, h => by
      rw [stmtText]
      split
      · exact (balanced_stmtText decl h.tail).map fun _ => (balanced_of_quiet (by decide)).append
      · exact yields_throw
  | .exportDefault e, h =>
      (balanced_exprText e h.tail).map fun t ht opened => by simp +decide [ht]

end

theorem balanced_stmtTexts (stmts : List Stmt) (h : Sound (stmtsPieces stmts)) :
    Yields Quiet (fun ts => ∀ t ∈ ts, Balanced t) (stmtTexts stmts) := by
  induction stmts with
  | nil => exact yields_pure (by simp)
  | cons stmt stmts ih =>
      exact (balanced_stmtText stmt h.left).bind fun _ ht => (ih h.right).map fun _ hts =>
        List.forall_mem_cons.mpr ⟨ht, hts⟩

/-! ## Whole programs -/

theorem notMem_delimiters_of_isWhiteSpace {c : Char} (hc : isWhiteSpace c = true) :
    c ∉ delimiters := by
  intro hmem
  have hvisible : ∀ c ∈ delimiters, isWhiteSpace c = false := by decide
  rw [hvisible c hmem] at hc
  cases hc

/-- White space does not lead from a string or a template to code. -/
theorem eq_code_of_scanChars_blanks {s : Scanner} {blanks : List Char} {opened : List Opener}
    (hblanks : ∀ c ∈ blanks, isWhiteSpace c = true)
    (h : s.scanChars blanks = some ⟨.code, opened⟩) : s = ⟨.code, opened⟩ := by
  induction blanks generalizing s with
  | nil => exact Option.some.inj h
  | cons c blanks ih =>
      obtain ⟨hc, hblanks⟩ := List.forall_mem_cons.mp hblanks
      have hdelimiter := notMem_delimiters_of_isWhiteSpace hc
      rw [scanChars_cons] at h
      obtain ⟨s', hstep, hrest⟩ := Option.bind_eq_some_iff.mp h
      rw [ih hblanks hrest] at hstep
      exact eq_code_of_step hdelimiter hstep

/-- Trimming a balanced text leaves it balanced. -/
theorem Balanced.trimEnd {text : String} (h : Balanced text) : Balanced (trimEnd text) := by
  obtain ⟨blanks, htext, hblanks⟩ := exists_append_blanks text
  intro opened
  have hscan : (scan ⟨.code, opened⟩ (JavaScript.trimEnd text)).bind (·.scanChars blanks) =
      some ⟨.code, opened⟩ := by
    rw [scan, ← scanChars_append, ← htext]
    exact h opened
  obtain ⟨s, hs, hrest⟩ := Option.bind_eq_some_iff.mp hscan
  rw [hs, eq_code_of_scanChars_blanks hblanks hrest]

theorem balanced_of_mem_statements {program : Program} {g : Generated}
    (hsound : Sound program.pieces) (hgenerate : generate program = .ok g) :
    ∀ text ∈ g.statements, Balanced text := by
  obtain ⟨texts, s, hrun, htrim, -⟩ := exists_of_generate_eq_ok hgenerate
  have hstart : Emitter.Knows Quiet {} := ⟨by simp, by simp⟩
  obtain ⟨-, hbody, hnames⟩ :=
    (balanced_stmtTexts program.body hsound.tail).inScope {} _ s hstart hrun
  intro text htext
  rcases List.mem_append.mp htext with hdeclared | hmem
  · obtain ⟨name, hname, rfl⟩ := List.mem_map.mp hdeclared
    intro opened
    simp +decide [declaration, hnames name hname]
  · rw [htrim] at hmem
    obtain ⟨t, ht, rfl⟩ := List.mem_map.mp hmem
    exact (hbody t ht).trimEnd

/-- Every statement of a program that was parsed and lowered is balanced on its own: a scan of it
never closes what is not open, and ends as it started. -/
theorem scan_statement {settings : Settings} {source : String} {program : Program} {g : Generated}
    (hparse : parse settings source = .ok program) (hgenerate : generate program = .ok g) :
    ∀ text ∈ g.statements, scan {} text = some {} := by
  intro text htext
  exact balanced_of_mem_statements (sound_of_parse hparse) hgenerate text htext []

/-- A string over two lines that has the marks of a template in it. -/
theorem scan_statement_template :
    ∃ program g, parse { memoize := false } "let a = \"\n\x60$\x7b\"" = .ok program ∧
      generate program = .ok g ∧ ∀ text ∈ g.statements, scan {} text = some {} := by
  have hok : ((parse { memoize := false } "let a = \"\n\x60$\x7b\"").toOption.bind fun program =>
      (generate program).toOption).isSome = true := by
    decide +kernel
  cases hparse : parse { memoize := false } "let a = \"\n\x60$\x7b\"" with
  | error diagnosis =>
      rw [hparse] at hok
      cases hok
  | ok program =>
      cases hgenerate : generate program with
      | error d =>
          rw [hparse] at hok
          simp [Except.toOption, hgenerate] at hok
      | ok g => exact ⟨program, g, rfl, hgenerate, scan_statement hparse hgenerate⟩

end JavaScript

end PegScript

import PegScript.Proofs.JavaScript.Trimming
import PegScript.Proofs.Language.Sentences

/-!
# Printed expressions are read back

For a part of the language the generated text is also a source text of the same expression: names,
numbers, constants, arrays, operators except for equality, calls, constructors, member accesses and
`await`.  Lowering such an expression needs no helper and no variable, so it is mere printing
(`Prints`).  Where the expression stands decides about its parentheses, and the grammar reads the
text in each of these places (`IsPrinted`).
-/

namespace PegScript

namespace JavaScript

open PegScript.Language Lower

variable {α β : Type}

/-! ## Lowering without effects -/

/-- Outside of pipeline stages the lowering gives `a` and leaves the state as it is. -/
def Prints (m : Lower α) (a : α) : Prop :=
  ∀ s : Emitter, s.rebind = none → m s = .ok (a, s)

theorem prints_pure (a : α) : Prints (pure a) a :=
  fun _ _ => rfl

theorem Prints.bind {m : Lower α} {f : α → Lower β} {a : α} {b : β} (hm : Prints m a)
    (hf : Prints (f a) b) : Prints (m >>= f) b := by
  intro s hs
  change (m s).bind (fun p => f p.1 p.2) = .ok (b, s)
  rw [hm s hs]
  exact hf s hs

theorem prints_readAs (name : String) : Prints (readAs name) name := by
  rintro ⟨⟩ ⟨⟩
  rfl

/-! ## Texts between other texts -/

/-- A text without assignments and comments that stays so between others of its kind. -/
structure Smooth (u : List Char) : Prop where
  calm : Calm u
  last : ∀ a ∈ u.getLast?, a ≠ '=' ∧ a ≠ '/'
  head : ∀ a ∈ u.head?, a ≠ '='

theorem smooth_iff {u : List Char} :
    Smooth u ↔ Calm u ∧ u.getLast?.all (fun a => a ≠ '=' ∧ a ≠ '/') = true ∧
      u.head?.all (· ≠ '=') = true := by
  simp only [Option.all_eq_true, decide_eq_true_eq]
  exact ⟨fun h => ⟨h.calm, h.last, h.head⟩, fun h => ⟨h.1, h.2.1, h.2.2⟩⟩

instance (u : List Char) : Decidable (Smooth u) :=
  decidable_of_iff' _ smooth_iff

theorem Smooth.append {u w : List Char} (hu : Smooth u) (hw : Smooth w) : Smooth (u ++ w) := by
  refine ⟨?_, ?_, ?_⟩
  · refine List.isChain_append.mpr ⟨hu.calm, hw.calm, ?_⟩
    intro a ha b hb
    refine ⟨?_, fun h => absurd h (hw.head b hb)⟩
    rintro (h | h)
    · exact absurd h (hu.last a ha).1
    · exact absurd h (hu.last a ha).2
  · intro a ha
    rw [List.getLast?_append, Option.mem_def, Option.or_eq_some_iff] at ha
    rcases ha with ha | ⟨-, ha⟩
    · exact hw.last a ha
    · exact hu.last a ha
  · intro a ha
    rw [List.head?_append, Option.mem_def, Option.or_eq_some_iff] at ha
    rcases ha with ha | ⟨-, ha⟩
    · exact hu.head a ha
    · exact hw.head a ha

theorem smooth_of_forall {u : List Char} (h : ∀ a ∈ u, a ≠ '=' ∧ a ≠ '/') : Smooth u := by
  refine ⟨?_, fun a ha => h a (List.mem_of_getLast? ha), fun a ha => (h a (List.mem_of_head? ha)).1⟩
  apply List.Pairwise.isChain
  apply List.Pairwise.imp_of_mem (R := fun _ _ => True) _
    (List.pairwise_of_forall fun _ _ => trivial)
  intro a b ha hb _
  refine ⟨?_, fun heq => absurd heq (h b hb).1⟩
  rintro (heq | heq)
  · exact absurd heq (h a ha).1
  · exact absurd heq (h a ha).2

theorem smooth_name {name : String} (h : isName name = true) : Smooth name.toList := by
  have hparts := List.all_eq_true.mp (all_isNamePart_of_isName h)
  apply smooth_of_forall
  intro a ha
  have hpart := hparts a ha
  constructor
  · rintro rfl
    exact absurd hpart (by decide)
  · rintro rfl
    exact absurd hpart (by decide)

theorem smooth_number {text : String} (h : IsNumber text) : Smooth text.toList := by
  apply smooth_of_forall
  intro a ha
  constructor
  · rintro rfl
    exact h.not_mem (by decide) ha
  · rintro rfl
    exact h.not_mem (by decide) ha

theorem smooth_moreItems {ts : List String} (h : ∀ t ∈ ts, Smooth t.toList) :
    Smooth (moreItems (ts.map String.toList)) := by
  induction ts with
  | nil => decide
  | cons t ts ih =>
      obtain ⟨ht, hts⟩ := List.forall_mem_cons.mp h
      have hcomma : Smooth [',', ' '] := by decide
      exact (hcomma.append ht).append (ih hts)

theorem smooth_bracketed {o c : Char} {ts : List String} (ho : Smooth [o]) (hc : Smooth [c])
    (h : ∀ t ∈ ts, Smooth t.toList) : Smooth (bracketed o c (ts.map String.toList)) := by
  cases ts with
  | nil => exact ho.append hc
  | cons t ts =>
      obtain ⟨ht, hts⟩ := List.forall_mem_cons.mp h
      rw [bracketed, List.map_cons, intercalate_cons_eq]
      exact ho.append ((ht.append (smooth_moreItems hts)).append hc)

section Parentheses

variable {t : String}

theorem toList_parens (t : String) : (parens t).toList = '(' :: t.toList ++ [')'] := by
  simp [parens]

theorem toList_arguments (ts : List String) :
    (parens (commaList ts)).toList = bracketed '(' ')' (ts.map String.toList) := by
  simp [parens, commaList, bracketed]

theorem Smooth.parens (h : Smooth t.toList) : Smooth (parens t).toList := by
  have hopen : Smooth ['('] := by decide
  have hclose : Smooth [')'] := by decide
  rw [toList_parens]
  exact (hopen.append h).append hclose

theorem Smooth.grouped (h : Smooth t.toList) (e : Expr) : Smooth (grouped e t).toList := by
  unfold JavaScript.grouped
  split
  · exact h.parens
  · exact h.parens
  · exact h

theorem Smooth.asOperand (h : Smooth t.toList) (e : Expr) : Smooth (asOperand e t).toList := by
  unfold JavaScript.asOperand
  split
  · exact h.parens
  · exact h.parens
  · exact h.grouped e

theorem Smooth.asUnaryOperand (h : Smooth t.toList) (e : Expr) :
    Smooth (asUnaryOperand e t).toList := by
  unfold JavaScript.asUnaryOperand
  split
  · exact h.parens
  · exact h.parens
  · exact h.parens
  · exact h.parens
  · exact h.grouped e

theorem Smooth.asTarget (h : Smooth t.toList) (e : Expr) : Smooth (asTarget e t).toList := by
  unfold JavaScript.asTarget
  split
  · exact h.parens
  · exact h.parens
  · exact h.parens
  · exact h.parens
  · exact h.parens
  · exact h.grouped e

theorem Smooth.asConstructor (h : Smooth t.toList) (e : Expr) :
    Smooth (asConstructor e t).toList := by
  unfold JavaScript.asConstructor
  split
  · exact h
  · exact (h.grouped e).parens

end Parentheses

/-! ## Printed texts in their places -/

/-- What an expression starts with if an operator stands in front. -/
def prefixMarks : List String :=
  ["!", "-", "+", "typeof ", "await "]

theorem refuses_suffixed_of_mark {mark : String} (hmark : mark ∈ prefixMarks) (k : List Char) :
    Refuses grammar (.rule .suffixed) (mark.toList ++ k) := by
  have hall : ∀ mark ∈ prefixMarks,
      (grammar.probe false 150 (.rule .suffixed) mark.toList).isFails = true := by
    decide +kernel
  exact refuses_on mark.toList (hall mark hmark)

/-- The text `t` is read as the expression `e` in every place that an expression can have, with the
parentheses that belong there. -/
structure IsPrinted (t : String) (e : Expr) : Prop where
  smooth : Smooth t.toList
  inner : IsInner t.toList e
  plain : IsUnary (grouped e t).toList e
  operand : IsUnary (asOperand e t).toList e
  unaryOperand : IsSuffixed (asUnaryOperand e t).toList e
  target : StartsChain .suffix (asTarget e t).toList e
  construct : StartsChain .member (asConstructor e t).toList e
  start : IsSuffixed (grouped e t).toList e ∨
    ∃ mark ∈ prefixMarks, mark.toList <+: (grouped e t).toList

section Places

variable {t : String} {e : Expr}

theorem isPrimary_of_isInner (h : IsInner t.toList e) : IsPrimary (parens t).toList e := by
  rw [toList_parens]
  exact isPrimary_parens h.opens h.reads

theorem startsChain_constructor (hpath : isPath e = false) (h : IsInner (grouped e t).toList e) :
    StartsChain .member (asConstructor e t).toList e := by
  rw [asConstructor, hpath]
  exact (isPrimary_of_isInner h).startsChain .member

/-- Operations with two or three operands stand in parentheses wherever they are. -/
theorem isPrinted_operation (hsmooth : Smooth t.toList) (h : IsInner t.toList e)
    (hgrouped : grouped e t = parens t) (hoperand : asOperand e t = parens t)
    (hunary : asUnaryOperand e t = parens t) (htarget : asTarget e t = parens t)
    (hpath : isPath e = false) : IsPrinted t e := by
  have hprimary := isPrimary_of_isInner h
  have hsuffixed := (hprimary.startsChain .suffix).isSuffixed
  refine ⟨hsmooth, h, ?_, ?_, ?_, ?_, startsChain_constructor hpath ?_, Or.inl ?_⟩
  · rw [hgrouped]
    exact hsuffixed.isUnary
  · rw [hoperand]
    exact hsuffixed.isUnary
  · rw [hunary]
    exact hsuffixed
  · rw [htarget]
    exact hprimary.startsChain .suffix
  · rw [hgrouped]
    exact hsuffixed.isUnary.isExpr.isInner
  · rw [hgrouped]
    exact hsuffixed

/-- Operators in front of an operand. -/
theorem isPrinted_unary (hsmooth : Smooth t.toList) (h : IsUnary t.toList e)
    (hmark : ∃ mark ∈ prefixMarks, mark.toList <+: t.toList)
    (hgrouped : grouped e t = t) (hoperand : asOperand e t = t)
    (hunary : asUnaryOperand e t = parens t) (htarget : asTarget e t = parens t)
    (hpath : isPath e = false) : IsPrinted t e := by
  have hinner := h.isExpr.isInner
  have hchain := (isPrimary_of_isInner hinner).startsChain .suffix
  refine ⟨hsmooth, hinner, ?_, ?_, ?_, ?_, startsChain_constructor hpath ?_, Or.inr ?_⟩
  · rw [hgrouped]
    exact h
  · rw [hoperand]
    exact h
  · rw [hunary]
    exact hchain.isSuffixed
  · rw [htarget]
    exact hchain
  · rw [hgrouped]
    exact hinner
  · rw [hgrouped]
    exact hmark

theorem isPrinted_number {text : String} (h : IsNumber text) : IsPrinted text (.number text) := by
  have hsuffixed := isSuffixed_number h
  have hinner := hsuffixed.isUnary.isExpr.isInner
  exact ⟨smooth_number h, hinner, hsuffixed.isUnary, hsuffixed.isUnary, hsuffixed,
    (isPrimary_of_isInner hinner).startsChain .suffix, startsChain_constructor rfl hinner,
    Or.inl hsuffixed⟩

/-- Operands that may have suffixes as they are. -/
theorem isPrinted_chain (hsmooth : Smooth t.toList) (h : StartsChain .suffix t.toList e)
    (hmember : isPath e = true → StartsChain .member t.toList e)
    (hgrouped : grouped e t = t) (hoperand : asOperand e t = t)
    (hunary : asUnaryOperand e t = t) (htarget : asTarget e t = t) : IsPrinted t e := by
  have hsuffixed := h.isSuffixed
  have hinner := hsuffixed.isUnary.isExpr.isInner
  refine ⟨hsmooth, hinner, ?_, ?_, ?_, ?_, ?_, Or.inl ?_⟩
  · rw [hgrouped]
    exact hsuffixed.isUnary
  · rw [hoperand]
    exact hsuffixed.isUnary
  · rw [hunary]
    exact hsuffixed
  · rw [htarget]
    exact h
  · cases hpath : isPath e with
    | true =>
        rw [asConstructor, hpath]
        exact hmember hpath
    | false =>
        apply startsChain_constructor hpath
        rw [hgrouped]
        exact hinner
  · rw [hgrouped]
    exact hsuffixed

theorem isPrinted_primary (hsmooth : Smooth t.toList) (h : IsPrimary t.toList e)
    (hgrouped : grouped e t = t) (hoperand : asOperand e t = t)
    (hunary : asUnaryOperand e t = t) (htarget : asTarget e t = t) : IsPrinted t e :=
  isPrinted_chain hsmooth (h.startsChain .suffix) (fun _ => h.startsChain .member) hgrouped hoperand
    hunary htarget

/-- A path takes members without parentheses. -/
theorem IsPrinted.path (h : IsPrinted t e) (hpath : isPath e = true) :
    asTarget e t = t ∧ StartsChain .member t.toList e := by
  have hconstruct := h.construct
  rw [asConstructor, hpath] at hconstruct
  refine ⟨?_, hconstruct⟩
  unfold isPath at hpath
  split at hpath
  · rfl
  · rfl
  · rfl
  · cases hpath

end Places

/-! ## Lowering prints -/

/-- What expressions that are read back consist of. -/
def Piece.Printable : Piece → Prop
  | .expr (.number text) => IsNumber text ∧ '_' ∉ text.toList
  | .expr (.ident name) => isName name = true ∧ isKeyword name = false
  | .expr (.member _ property _) => isName property = true
  | .expr (.binary op _ _) => op ≠ .eq ∧ op ≠ .notEq
  | .expr (.bool _) | .expr .null | .expr .undefined | .expr .this | .expr (.array _)
  | .expr (.unary ..) | .expr (.conditional ..) | .expr (.call ..) | .expr (.new ..)
  | .expr (.await _) | .element _ => True
  | _ => False

theorem number_eq_self {text : String} (h : '_' ∉ text.toList) : number text = text := by
  have hfilter : text.toList.filter (· != '_') = text.toList := by
    apply List.filter_eq_self.mpr
    intro a ha
    simp only [bne_iff_ne]
    rintro rfl
    exact h ha
  rw [number, hfilter, String.ofList_toList]

theorem isPrinted_constant {w : String} (hw : w ∈ constantWords) :
    IsPrinted w (Expression.constantOf w) := by
  have hall : ∀ w ∈ constantWords, isName w = true := by decide +kernel
  have hsmooth := smooth_name (hall w hw)
  have hprimary := isPrimary_constant hw
  simp only [constantWords, List.mem_cons, List.not_mem_nil, or_false] at hw
  rcases hw with rfl | rfl | rfl | rfl | rfl
  all_goals exact isPrinted_primary hsmooth hprimary rfl rfl rfl rfl

theorem isPrinted_ident {name : String} (hname : isName name = true)
    (hword : isKeyword name = false) : IsPrinted name (.ident name) :=
  isPrinted_primary (smooth_name hname) (isPrimary_ident hname hword) rfl rfl rfl rfl

/-- Texts of items of a list. -/
structure ArePrinted (ts : List String) (items : List Element) : Prop where
  smooth : ∀ t ∈ ts, Smooth t.toList
  items : List.Forall₂ IsItem (ts.map String.toList) items

theorem arePrinted_nil : ArePrinted [] [] :=
  ⟨by simp, .nil⟩

theorem ArePrinted.cons {t : String} {ts : List String} {item : Element} {items : List Element}
    (hsmooth : Smooth t.toList) (hitem : IsItem t.toList item) (h : ArePrinted ts items) :
    ArePrinted (t :: ts) (item :: items) :=
  ⟨List.forall_mem_cons.mpr ⟨hsmooth, h.smooth⟩, .cons hitem h.items⟩

section Forms

variable {t : String} {ts : List String} {e : Expr} {items : List Element}

theorem ArePrinted.smooth_arguments (h : ArePrinted ts items) :
    Smooth (parens (commaList ts)).toList := by
  rw [toList_arguments]
  exact smooth_bracketed (by decide) (by decide) h.smooth

theorem ArePrinted.array (h : ArePrinted ts items) :
    IsPrinted ("[" ++ commaList ts ++ "]") (.array items) := by
  have htext : ("[" ++ commaList ts ++ "]").toList = bracketed '[' ']' (ts.map String.toList) := by
    simp [commaList, bracketed]
  refine isPrinted_primary ?_ ?_ rfl rfl rfl rfl
  · rw [htext]
    exact smooth_bracketed (by decide) (by decide) h.smooth
  · rw [htext]
    exact isPrimary_array h.items

theorem IsPrinted.unary (h : IsPrinted t e) (op : UnaryOp) :
    IsPrinted (unaryToken op ++ asUnaryOperand e t) (.unary op e) := by
  have hmark : ∀ op, unaryToken op ∈ prefixMarks ∧ Smooth (unaryToken op).toList := by
    rintro ⟨⟩ <;> decide
  refine isPrinted_unary ?_ ?_ ⟨_, (hmark op).1, ?_⟩ rfl rfl rfl rfl rfl
  · rw [String.toList_append]
    exact (hmark op).2.append (h.smooth.asUnaryOperand e)
  · rw [String.toList_append]
    exact h.unaryOperand.unary op
  · rw [String.toList_append]
    exact List.prefix_append _ _

theorem IsPrinted.await (h : IsPrinted t e) :
    IsPrinted ("await " ++ asUnaryOperand e t) (.await e) := by
  have hword : Smooth "await ".toList := by decide
  refine isPrinted_unary ?_ ?_ ⟨"await ", by decide, ?_⟩ rfl rfl rfl rfl rfl
  · rw [String.toList_append]
    exact hword.append (h.smooth.asUnaryOperand e)
  · rw [String.toList_append]
    exact h.unaryOperand.await
  · rw [String.toList_append]
    exact List.prefix_append _ _

theorem IsPrinted.binary {l r : String} {left right : Expr} {op : BinaryOp} (hl : IsPrinted l left)
    (hr : IsPrinted r right) (heq : op ≠ .eq) (hne : op ≠ .notEq) :
    IsPrinted ((if op = .pow then asUnaryOperand left l else asOperand left l) ++ " "
      ++ binaryToken op ++ " " ++ asOperand right r) (.binary op left right) := by
  have hop : op ∈ plainOps := by
    cases op with
    | eq => exact absurd rfl heq
    | notEq => exact absurd rfl hne
    | _ => decide
  have hsmooth : ∀ op ∈ plainOps, Smooth (operatorText op).toList := by decide +kernel
  have htext (l r : String) : (l ++ " " ++ binaryToken op ++ " " ++ r).toList =
      l.toList ++ ((operatorText op).toList ++ r.toList) := by
    simp [operatorText]
  have hright := hr.smooth.asOperand right
  refine isPrinted_operation ?_ ?_ rfl rfl rfl rfl rfl
  · rw [htext]
    split
    · exact (hl.smooth.asUnaryOperand left).append ((hsmooth op hop).append hright)
    · exact (hl.smooth.asOperand left).append ((hsmooth op hop).append hright)
  · rw [htext]
    split
    case isTrue hpow =>
      subst hpow
      exact isInner_pow hl.unaryOperand.isUnary hr.operand
    case isFalse hpow => exact isInner_binary hop hpow hl.operand hr.operand

theorem IsPrinted.conditional {c a : String} {test consequent alternate : Expr}
    (ht : IsPrinted t test) (hc : IsPrinted c consequent) (ha : IsPrinted a alternate) :
    IsPrinted
      (asOperand test t ++ " ? " ++ asOperand consequent c ++ " : " ++ asOperand alternate a)
      (.conditional test consequent alternate) := by
  have hmark : Smooth " ? ".toList := by decide
  have hcolon : Smooth " : ".toList := by decide
  refine isPrinted_operation ?_ ?_ rfl rfl rfl rfl rfl
  · simp only [String.toList_append]
    have hleft := (ht.smooth.asOperand test).append hmark
    have hright := hcolon.append (ha.smooth.asOperand alternate)
    simpa only [List.append_assoc] using
      (hleft.append (hc.smooth.asOperand consequent)).append hright
  · simp only [String.toList_append, List.append_assoc]
    exact isInner_conditional ht.operand hc.operand ha.operand

theorem IsPrinted.call (h : IsPrinted t e) (hargs : ArePrinted ts items) (optional : Bool) :
    IsPrinted (asTarget e t ++ (if optional then "?." else "") ++ parens (commaList ts))
      (.call e items optional) := by
  have hmark : Smooth (if optional then "?." else "").toList := by
    cases optional <;> decide
  refine isPrinted_chain ?_ ?_ (fun hpath => by cases hpath) rfl rfl rfl rfl
  · simp only [String.toList_append]
    exact ((h.smooth.asTarget e).append hmark).append hargs.smooth_arguments
  · simp only [String.toList_append, toList_arguments, List.append_assoc]
    cases optional with
    | false => exact h.target.append (isSuffix_call hargs.items)
    | true => exact h.target.append (isSuffix_optionalCall hargs.items)

theorem IsPrinted.new (h : IsPrinted t e) (hargs : ArePrinted ts items) :
    IsPrinted ("new " ++ asConstructor e t ++ parens (commaList ts)) (.new e items) := by
  have hword : Smooth "new ".toList := by decide
  refine isPrinted_primary ?_ ?_ rfl rfl rfl rfl
  · simp only [String.toList_append]
    exact (hword.append (h.smooth.asConstructor e)).append hargs.smooth_arguments
  · simp only [String.toList_append, toList_arguments, List.append_assoc]
    exact isPrimary_new h.construct hargs.items

theorem IsPrinted.member (h : IsPrinted t e) {property : String} (hname : isName property = true)
    (optional : Bool) :
    IsPrinted (asTarget e t ++ (if optional then "?." else ".") ++ property)
      (.member e property optional) := by
  have hmark : Smooth (if optional then "?." else ".").toList := by
    cases optional <;> decide
  refine isPrinted_chain ?_ ?_ ?_ rfl rfl rfl rfl
  · simp only [String.toList_append]
    exact ((h.smooth.asTarget e).append hmark).append (smooth_name hname)
  · simp only [String.toList_append, List.append_assoc]
    cases optional with
    | false => exact h.target.append (isSuffix_plainMember hname)
    | true => exact h.target.append (isSuffix_optionalMember hname)
  · intro hpath
    simp only [String.toList_append, List.append_assoc]
    cases optional with
    | true => cases hpath
    | false =>
        obtain ⟨htarget, hchain⟩ := h.path hpath
        rw [htarget]
        exact hchain.append (isSuffix_member hname)

end Forms

mutual

/-- Lowering such an expression prints a text of it. -/
theorem exists_printed :
    ∀ e : Expr, Everywhere Piece.Printable e.pieces → ∃ t, Prints (exprText e) t ∧ IsPrinted t e
  | .number text, h => by
      simp only [Expr.pieces, Everywhere.cons, Piece.Printable] at h
      refine ⟨text, ?_, isPrinted_number h.1.1⟩
      rw [exprText, number_eq_self h.1.2]
      exact prints_pure text
  | .bool true, _ => ⟨"true", prints_pure _, isPrinted_constant (w := "true") (by decide)⟩
  | .bool false, _ => ⟨"false", prints_pure _, isPrinted_constant (w := "false") (by decide)⟩
  | .null, _ => ⟨"null", prints_pure _, isPrinted_constant (w := "null") (by decide)⟩
  | .undefined, _ =>
      ⟨"undefined", prints_pure _, isPrinted_constant (w := "undefined") (by decide)⟩
  | .this, _ => ⟨"this", prints_pure _, isPrinted_constant (w := "this") (by decide)⟩
  | .ident name, h => by
      simp only [Expr.pieces, Everywhere.cons, Piece.Printable] at h
      exact ⟨name, prints_readAs name, isPrinted_ident h.1.1 h.1.2⟩
  | .array items, h => by
      simp only [Expr.pieces, Everywhere.cons] at h
      obtain ⟨ts, hprints, hitems⟩ := exists_printed_elements items h.2
      exact ⟨_, hprints.bind (prints_pure _), hitems.array⟩
  | .unary op operand, h => by
      simp only [Expr.pieces, Everywhere.cons] at h
      obtain ⟨t, hprints, ht⟩ := exists_printed operand h.2
      exact ⟨_, hprints.bind (prints_pure _), ht.unary op⟩
  | .binary op left right, h => by
      simp only [Expr.pieces, Everywhere.cons, Everywhere.append, Piece.Printable] at h
      obtain ⟨⟨heq, hne⟩, hleft, hright⟩ := h
      obtain ⟨l, hl, hl'⟩ := exists_printed left hleft
      obtain ⟨r, hr, hr'⟩ := exists_printed right hright
      exact ⟨_, hl.bind (hr.bind (prints_pure _)), hl'.binary hr' heq hne⟩
  | .conditional test consequent alternate, h => by
      simp only [Expr.pieces, Everywhere.cons, Everywhere.append] at h
      obtain ⟨-, ⟨htest, hconsequent⟩, halternate⟩ := h
      obtain ⟨t, ht, ht'⟩ := exists_printed test htest
      obtain ⟨c, hc, hc'⟩ := exists_printed consequent hconsequent
      obtain ⟨a, ha, ha'⟩ := exists_printed alternate halternate
      exact ⟨_, ht.bind (hc.bind (ha.bind (prints_pure _))), ht'.conditional hc' ha'⟩
  | .call callee args optional, h => by
      simp only [Expr.pieces, Everywhere.cons, Everywhere.append] at h
      obtain ⟨t, ht, ht'⟩ := exists_printed callee h.2.1
      obtain ⟨ts, hts, hts'⟩ := exists_printed_elements args h.2.2
      exact ⟨_, ht.bind (hts.bind (prints_pure _)), ht'.call hts' optional⟩
  | .new callee args, h => by
      simp only [Expr.pieces, Everywhere.cons, Everywhere.append] at h
      obtain ⟨t, ht, ht'⟩ := exists_printed callee h.2.1
      obtain ⟨ts, hts, hts'⟩ := exists_printed_elements args h.2.2
      exact ⟨_, ht.bind (hts.bind (prints_pure _)), ht'.new hts'⟩
  | .member object property optional, h => by
      simp only [Expr.pieces, Everywhere.cons, Piece.Printable] at h
      obtain ⟨t, ht, ht'⟩ := exists_printed object h.2
      exact ⟨_, ht.bind (prints_pure _), ht'.member h.1 optional⟩
  | .await operand, h => by
      simp only [Expr.pieces, Everywhere.cons] at h
      obtain ⟨t, ht, ht'⟩ := exists_printed operand h.2
      exact ⟨_, ht.bind (prints_pure _), ht'.await⟩
  | .str _, h | .rawStr _, h | .object _, h | .function _, h | .doBlock _, h | .index .., h
  | .pipeline .., h | .range .., h | .yield .., h => by
      simp only [Expr.pieces, Everywhere.cons, Piece.Printable, false_and] at h

theorem exists_printed_element :
    ∀ item : Element, Everywhere Piece.Printable item.pieces →
      ∃ t, Prints (elementText item) t ∧ Smooth t.toList ∧ IsItem t.toList item
  | .expr e, h => by
      simp only [Element.pieces, Everywhere.cons] at h
      obtain ⟨t, ht, ht'⟩ := exists_printed e h.2
      exact ⟨_, ht.bind (prints_pure _), ht'.smooth.grouped e, ht'.plain.isExpr.item⟩
  | .spread e, h => by
      simp only [Element.pieces, Everywhere.cons] at h
      obtain ⟨t, ht, ht'⟩ := exists_printed e h.2
      have hdots : Smooth "...".toList := by decide
      refine ⟨_, ht.bind (prints_pure _), ?_, ?_⟩
      · rw [String.toList_append]
        exact hdots.append (ht'.smooth.grouped e)
      · rw [String.toList_append]
        exact ht'.plain.isExpr.spread

theorem exists_printed_elements :
    ∀ items : List Element, Everywhere Piece.Printable (elementsPieces items) →
      ∃ ts, Prints (elementTexts items) ts ∧ ArePrinted ts items
  | [], _ => ⟨[], prints_pure [], arePrinted_nil⟩
  | item :: items, h => by
      rw [elementsPieces, Everywhere.append] at h
      obtain ⟨t, ht, hsmooth, hitem⟩ := exists_printed_element item h.1
      obtain ⟨ts, hts, hts'⟩ := exists_printed_elements items h.2
      exact ⟨_, ht.bind (hts.bind (prints_pure _)), hts'.cons hsmooth hitem⟩

end

/-! ## Whole programs -/

/-- The text of an expression in front of the semicolon of its statement. -/
theorem IsPrinted.exists_statement {t : String} {e : Expr} (h : IsPrinted t e) :
    ∃ u : String, statementText (grouped e t) = u ++ ";" ∧ Smooth u.toList ∧ IsUnary u.toList e ∧
      (IsSuffixed u.toList e ∨ ∃ mark ∈ prefixMarks, mark.toList <+: u.toList) := by
  unfold statementText
  split
  · have hchain := (isPrimary_of_isInner h.plain.isExpr.isInner).startsChain .suffix
    exact ⟨parens (grouped e t), rfl, (h.smooth.grouped e).parens, hchain.isSuffixed.isUnary,
      Or.inl hchain.isSuffixed⟩
  · exact ⟨grouped e t, rfl, h.smooth.grouped e, h.plain, h.start⟩

theorem IsPrinted.reads_program {t : String} {e : Expr} (h : IsPrinted t e) :
    Reads grammar (.rule .program) (statementText (grouped e t)).toList []
      (.ofNode (Program.mk [.expr e])) [] := by
  obtain ⟨u, htext, hsmooth, hunary, hstart⟩ := h.exists_statement
  have hcalm : Calm (u.toList ++ [';']) := (hsmooth.append (w := [';']) (by decide)).calm
  have hcloses : Closes [';'] := ⟨';', by decide, rfl⟩
  rw [htext, String.toList_append]
  refine Language.reads_program hunary.opens hcalm (hunary.isExpr.reads _ hcloses hcalm) ?_
  rcases hstart with hsuffixed | ⟨mark, hmark, rest, hrest⟩
  · exact Or.inl ⟨_, hsuffixed.reads _ (hcloses.follows.mono (Nat.zero_le 11)) hcalm⟩
  · rw [← hrest, List.append_assoc]
    exact Or.inr (refuses_suffixed_of_mark hmark _)

theorem generate_of_prints {t : String} {e : Expr} (h : Prints (exprText e) t) :
    generate ⟨[.expr e]⟩ = .ok ⟨[], [statementText (grouped e t)], {}⟩ := by
  have hstmt : Prints (stmtText (.expr e)) (statementText (grouped e t)) :=
    h.bind (prints_pure _)
  have hstmts : Prints (stmtTexts [.expr e]) [statementText (grouped e t)] :=
    hstmt.bind ((prints_pure []).bind (prints_pure _))
  have hscope : inScope (stmtTexts [.expr e]) {} =
      .ok (([statementText (grouped e t)], []), {}) := by
    change (stmtTexts [.expr e] _).bind _ = _
    rw [hstmts _ rfl]
    rfl
  have htrimmed : Trimmed (statementText (grouped e t)) := Trimmed.append (t := ";") (by decide)
  refine generate_of_trimmed ?_ (by simpa using htrimmed)
  rw [hscope]
  rfl

/-- Reading back: the one statement that is generated for an expression of this part of the language
is, as a source text, that expression, unless too many rules become active. -/
theorem parse_generate (e : Expr) (he : Everywhere Piece.Printable e.pieces) :
    ∃ g text, generate ⟨[.expr e]⟩ = .ok g ∧ g.statements = [text] ∧
      ∀ settings, parse settings text = .ok ⟨[.expr e]⟩ ∨
        ∃ offset, (grammar.parse settings text).session.overflow = some offset ∧
          parse settings text =
            .error ((({} : FurthestFailure).add offset .lessNesting).diagnose text) := by
  obtain ⟨t, hprints, ht⟩ := exists_printed e he
  refine ⟨_, _, generate_of_prints hprints, rfl, ?_⟩
  exact fun settings => parse_of_reads ht.reads_program settings

/-- The difference of a name and a negated one, whose operators stay apart. -/
theorem parse_generate_difference :
    Everywhere Piece.Printable
        (Expr.binary .sub (.ident "a") (.unary .neg (.unary .neg (.ident "b")))).pieces ∧
      ∃ g text, generate ⟨[.expr (.binary .sub (.ident "a")
          (.unary .neg (.unary .neg (.ident "b"))))]⟩ = .ok g ∧ g.statements = [text] ∧
        ∀ settings, parse settings text =
            .ok ⟨[.expr (.binary .sub (.ident "a") (.unary .neg (.unary .neg (.ident "b"))))]⟩ ∨
          ∃ offset, (grammar.parse settings text).session.overflow = some offset ∧
            parse settings text =
              .error ((({} : FurthestFailure).add offset .lessNesting).diagnose text) := by
  have he : Everywhere Piece.Printable
      (Expr.binary .sub (.ident "a") (.unary .neg (.unary .neg (.ident "b")))).pieces := by
    simp only [Expr.pieces, List.cons_append, List.nil_append, Everywhere.cons, Everywhere.nil,
      Piece.Printable]
    decide +kernel
  exact ⟨he, parse_generate _ he⟩

end JavaScript

end PegScript

import PegScript.Proofs.JavaScript.Landmarks

/-!
# Declarations in a text

A text declares the variable of a pipeline wherever `let` stands before it and the name ends there.
Texts are put together from smaller ones, and a declaration could start in one of them and end in
the next.  A text starts afresh (`startsAfresh`) if no declaration from before can go on in it, and
ends for good (`EndsForGood`) if no declaration from it can go on behind it.  Where one of this
holds, the declarations of the two texts are those of the text they make up.
-/

namespace PegScript

namespace JavaScript

open Lower

variable {n : Nat}

/-- Whether a word goes on with the character. -/
def isWordPart (c : Char) : Bool :=
  c.isAlphanum || c == '_'

/-- What a declaration of the variable starts with. -/
def declarationWords (n : Nat) : List Char :=
  ("let " ++ reference n).toList

/-- Whether the characters start with a declaration of the variable. -/
def startsWithDeclaration (n : Nat) (cs : List Char) : Bool :=
  (declarationWords n).isPrefixOf cs &&
    (cs.drop (declarationWords n).length).head?.all fun c => !isWordPart c

/-- How often the characters have a declaration of the variable. -/
def declarationsAmong (n : Nat) : List Char → Nat
  | [] => 0
  | c :: cs => (startsWithDeclaration n (c :: cs)).toNat + declarationsAmong n cs

/-- How often the text declares the variable of the pipeline that has the number. -/
def declarationCount (n : Nat) (text : String) : Nat :=
  declarationsAmong n text.toList

/-! ## The words of a declaration -/

theorem declarationWords_eq (n : Nat) :
    declarationWords n = 'l' :: 'e' :: 't' :: ' ' :: '_' :: 'r' :: 'e' :: 'f' ::
      Nat.toDigits 10 n := by
  have hlet : "let ".toList = ['l', 'e', 't', ' '] := rfl
  have href : "_ref".toList = ['_', 'r', 'e', 'f'] := rfl
  rw [declarationWords, reference, String.toList_append, hlet, toString_string,
    Nat.toString_eq_ofList_toDigits]
  simp [href]

theorem isDigit_of_mem_toDigits {c : Char} (hc : c ∈ Nat.toDigits 10 n) : c.isDigit = true :=
  Nat.isDigit_of_mem_toDigits (by decide) (by decide) hc

theorem isWordPart_of_isDigit {c : Char} (hc : c.isDigit = true) : isWordPart c = true := by
  simp [isWordPart, Char.isAlphanum, hc]

/-- A character that a declaration of some pipeline's variable can have. -/
def isDeclarationPart (c : Char) : Bool :=
  c ∈ ['l', 'e', 't', ' ', '_', 'r', 'f'] || c.isDigit

theorem isDeclarationPart_of_mem {c : Char} (hc : c ∈ declarationWords n) :
    isDeclarationPart c = true := by
  rw [declarationWords_eq] at hc
  simp only [List.mem_cons] at hc
  rcases hc with rfl | rfl | rfl | rfl | rfl | rfl | rfl | rfl | hdigit
  case inr.inr.inr.inr.inr.inr.inr.inr =>
    simp [isDeclarationPart, isDigit_of_mem_toDigits hdigit]
  all_goals rfl

/-- Behind its first character a declaration goes on with a part of a word, or with a blank and the
name. -/
theorem tail_of_declarationWords {u v : List Char} (h : declarationWords n = u ++ v)
    (hu : u ≠ []) (hv : v ≠ []) :
    (∃ c rest, v = c :: rest ∧ isWordPart c = true) ∨ ∃ rest, v = ' ' :: '_' :: rest := by
  have hword : ∀ c ∈ '_' :: 'r' :: 'e' :: 'f' :: Nat.toDigits 10 n, isWordPart c = true := by
    intro c hc
    simp only [List.mem_cons] at hc
    rcases hc with rfl | rfl | rfl | rfl | hdigit
    case inr.inr.inr.inr => exact isWordPart_of_isDigit (isDigit_of_mem_toDigits hdigit)
    all_goals rfl
  rw [declarationWords_eq] at h
  obtain ⟨c, u, rfl⟩ := List.exists_cons_of_ne_nil hu
  obtain ⟨d, v, rfl⟩ := List.exists_cons_of_ne_nil hv
  have hsuffix : d :: v <:+ 'e' :: 't' :: ' ' :: '_' :: 'r' :: 'e' :: 'f' :: Nat.toDigits 10 n :=
    ⟨u, (List.cons.inj h).2.symm⟩
  rcases List.suffix_cons_iff.mp hsuffix with heq | hsuffix
  · exact .inl ⟨d, v, rfl, by rw [(List.cons.inj heq).1]; rfl⟩
  rcases List.suffix_cons_iff.mp hsuffix with heq | hsuffix
  · exact .inl ⟨d, v, rfl, by rw [(List.cons.inj heq).1]; rfl⟩
  rcases List.suffix_cons_iff.mp hsuffix with heq | hsuffix
  · exact .inr ⟨_, heq⟩
  · exact .inl ⟨d, v, rfl, hword d (hsuffix.subset List.mem_cons_self)⟩

theorem startsWithDeclaration_iff {cs : List Char} :
    startsWithDeclaration n cs = true ↔
      ∃ rest, cs = declarationWords n ++ rest ∧ ∀ c ∈ rest.head?, isWordPart c = false := by
  rw [startsWithDeclaration, Bool.and_eq_true, List.isPrefixOf_iff_prefix]
  constructor
  · rintro ⟨⟨rest, rfl⟩, hend⟩
    refine ⟨rest, rfl, fun c hc => ?_⟩
    rw [List.drop_left] at hend
    simpa [Option.mem_def.mp hc] using hend
  · rintro ⟨rest, rfl, hend⟩
    refine ⟨List.prefix_append _ _, ?_⟩
    rw [List.drop_left]
    cases hhead : rest.head? with
    | none => rfl
    | some c => simp [hend c hhead]

theorem startsWithDeclaration_cons_of_ne {c : Char} (hc : c ≠ 'l') (cs : List Char) :
    startsWithDeclaration n (c :: cs) = false := by
  rw [Bool.eq_false_iff]
  intro h
  obtain ⟨rest, heq, -⟩ := startsWithDeclaration_iff.mp h
  rw [declarationWords_eq] at heq
  exact hc (List.cons.inj heq).1

/-! ## Texts without a declaration -/

theorem declarationsAmong_cons_of_ne {c : Char} (hc : c ≠ 'l') (cs : List Char) :
    declarationsAmong n (c :: cs) = declarationsAmong n cs := by
  rw [declarationsAmong, startsWithDeclaration_cons_of_ne hc, Bool.toNat_false, Nat.zero_add]

theorem declarationsAmong_append_of_notMem {cs : List Char} (hcs : 'l' ∉ cs) (cs' : List Char) :
    declarationsAmong n (cs ++ cs') = declarationsAmong n cs' := by
  induction cs with
  | nil => rfl
  | cons c cs ih =>
      rw [List.mem_cons, not_or] at hcs
      rw [List.cons_append, declarationsAmong_cons_of_ne (Ne.symm hcs.1), ih hcs.2]

/-- A text has no declaration if it lacks a character that all declarations have. -/
theorem declarationsAmong_of_notMem {c : Char} (hc : c ∈ "let _ref".toList) {cs : List Char}
    (hcs : c ∉ cs) : declarationsAmong n cs = 0 := by
  have hwords : c ∈ declarationWords n := by
    rw [declarationWords_eq]
    exact List.mem_append_left (Nat.toDigits 10 n) hc
  induction cs with
  | nil => rfl
  | cons d cs ih =>
      have hstart : startsWithDeclaration n (d :: cs) = false := by
        rw [Bool.eq_false_iff]
        intro h
        obtain ⟨rest, heq, -⟩ := startsWithDeclaration_iff.mp h
        exact hcs (heq ▸ List.mem_append_left rest hwords)
      rw [declarationsAmong, hstart, Bool.toNat_false, Nat.zero_add]
      exact ih fun hmem => hcs (List.mem_cons_of_mem d hmem)

theorem declarationCount_of_notMem {c : Char} (hc : c ∈ "let _ref".toList) {text : String}
    (htext : c ∉ text.toList) : declarationCount n text = 0 :=
  declarationsAmong_of_notMem hc htext

/-! ## Where two texts meet -/

/-- No declaration goes from the first text into the second. -/
theorem declarationsAmong_append {cs cs' : List Char}
    (h : ∀ u, u ≠ [] → u <:+ cs →
      startsWithDeclaration n (u ++ cs') = startsWithDeclaration n u) :
    declarationsAmong n (cs ++ cs') = declarationsAmong n cs + declarationsAmong n cs' := by
  induction cs with
  | nil => exact (Nat.zero_add _).symm
  | cons c cs ih =>
      have hfirst := h (c :: cs) (List.cons_ne_nil c cs) (List.suffix_refl _)
      have hrest := ih fun u hu hsuffix => h u hu (hsuffix.trans (List.suffix_cons c cs))
      rw [List.cons_append] at hfirst ⊢
      rw [declarationsAmong, declarationsAmong, hfirst, hrest, Nat.add_assoc]

/-- Whether no declaration that starts before the text can go on in it. -/
def startsAfresh (text : String) : Bool :=
  match text.toList with
  | [] => true
  | ' ' :: '_' :: _ => false
  | c :: _ => !isWordPart c

theorem startsAfresh_append {t : String} (h : startsAfresh t = true) (ht : t ≠ "" ∧ t ≠ " ")
    (t' : String) : startsAfresh (t ++ t') = true := by
  unfold startsAfresh at h ⊢
  rw [String.toList_append]
  rcases hchars : t.toList with _ | ⟨c, _ | ⟨d, cs⟩⟩
  · exact (ht.1 (String.toList_inj.mp hchars)).elim
  · have hc : c ≠ ' ' := by
      rintro rfl
      exact ht.2 (String.toList_inj.mp hchars)
    simp_all
  · rw [hchars] at h
    split at h
    · contradiction
    · cases h
    · grind

/-- No declaration that starts in the text can go on behind it. -/
def EndsForGood (n : Nat) (text : String) : Prop :=
  ∀ u, u ≠ [] → u <:+ text.toList → ¬ u <+: declarationWords n

/-- Where a text can start afresh, no declaration is cut in two. -/
theorem startsWithDeclaration_append {u cs : List Char} (hu : u ≠ [])
    (hcs : startsAfresh (String.ofList cs) = true) :
    startsWithDeclaration n (u ++ cs) = startsWithDeclaration n u := by
  have hhead : ∀ c ∈ cs.head?, isWordPart c = false := by
    intro c hc
    obtain ⟨rest, rfl⟩ := List.head?_eq_some_iff.mp hc
    unfold startsAfresh at hcs
    split at hcs <;> simp_all
  have hsecond : ∀ rest, cs ≠ ' ' :: '_' :: rest := by
    rintro rest rfl
    simp [startsAfresh] at hcs
  rw [Bool.eq_iff_iff, startsWithDeclaration_iff, startsWithDeclaration_iff]
  constructor
  · rintro ⟨rest, heq, hrest⟩
    rcases List.append_eq_append_iff.mp heq with ⟨v, hwords, rfl⟩ | ⟨v, rfl, rfl⟩
    · -- The words would go on in the second text.
      by_cases hv : v = []
      · subst hv
        exact ⟨[], by simpa using hwords.symm, by simp⟩
      · rcases tail_of_declarationWords hwords hu hv with ⟨c, tail, rfl, hword⟩ | ⟨tail, rfl⟩
        · rw [hhead c rfl] at hword
          cases hword
        · exact (hsecond (tail ++ rest) rfl).elim
    · refine ⟨v, rfl, fun c hc => ?_⟩
      obtain ⟨tail, rfl⟩ := List.head?_eq_some_iff.mp hc
      exact hrest c rfl
  · rintro ⟨rest, rfl, hrest⟩
    refine ⟨rest ++ cs, List.append_assoc .., fun c hc => ?_⟩
    cases rest with
    | nil => exact hhead c hc
    | cons d rest => exact hrest c hc

/-- The declarations of a text that ends with one that starts afresh. -/
@[simp]
theorem declarationCount_append_of_startsAfresh {t t' : String} (h : startsAfresh t' = true) :
    declarationCount n (t ++ t') = declarationCount n t + declarationCount n t' := by
  rw [declarationCount, String.toList_append]
  refine declarationsAmong_append fun u hu _ => startsWithDeclaration_append hu ?_
  rwa [String.ofList_toList]

/-- The declarations of a text that starts with one that ends for good. -/
@[simp]
theorem declarationCount_append_of_endsForGood {t t' : String} (h : EndsForGood n t) :
    declarationCount n (t ++ t') = declarationCount n t + declarationCount n t' := by
  rw [declarationCount, String.toList_append]
  refine declarationsAmong_append fun u hu hsuffix => ?_
  have hwords := h u hu hsuffix
  rw [Bool.eq_iff_iff, startsWithDeclaration_iff, startsWithDeclaration_iff]
  constructor
  · rintro ⟨rest, heq, hrest⟩
    rcases List.append_eq_append_iff.mp heq with ⟨v, hv, -⟩ | ⟨v, rfl, rfl⟩
    · exact (hwords ⟨v, hv.symm⟩).elim
    · refine ⟨v, rfl, fun c hc => ?_⟩
      obtain ⟨tail, rfl⟩ := List.head?_eq_some_iff.mp hc
      exact hrest c rfl
  · rintro ⟨rest, rfl, hrest⟩
    cases rest with
    | nil => exact (hwords ⟨[], by simp⟩).elim
    | cons d rest => exact ⟨d :: rest ++ t'.toList, by simp, fun c hc => hrest c hc⟩

/-! ## Texts that end for good -/

/-- Whether the text has a character that no declaration has, and behind the last of these none that
a declaration starts with. -/
def closesOff (text : String) : Bool :=
  (text.toList.reverse.dropWhile fun c => isDeclarationPart c && c != 'l').head?.any
    fun c => !isDeclarationPart c

@[simp]
theorem endsForGood_of_notMem {t : String} (ht : 'l' ∉ t.toList) : EndsForGood n t := by
  intro u hu hsuffix hwords
  obtain ⟨c, u, rfl⟩ := List.exists_cons_of_ne_nil hu
  rw [declarationWords_eq, List.cons_prefix_cons] at hwords
  exact ht (hwords.1 ▸ hsuffix.subset List.mem_cons_self)

/-- What stands at the end of two texts stands at the end of the second, or has it at its end. -/
theorem suffix_append_cases {α : Type} {u a b : List α} (h : u <:+ a ++ b) :
    u <:+ b ∨ ∃ v, v <:+ a ∧ u = v ++ b := by
  obtain ⟨w, hw⟩ := h
  rcases List.append_eq_append_iff.mp hw with ⟨v, ha, hu⟩ | ⟨v, -, hb⟩
  · exact .inr ⟨v, ⟨w, ha.symm⟩, hu⟩
  · exact .inl ⟨v, hb.symm⟩

theorem EndsForGood.append {t t' : String} (h : EndsForGood n t) (h' : EndsForGood n t') :
    EndsForGood n (t ++ t') := by
  intro u hu hsuffix hwords
  rw [String.toList_append] at hsuffix
  rcases suffix_append_cases hsuffix with hsuffix | ⟨v, hv, rfl⟩
  · exact h' u hu hsuffix hwords
  · by_cases hnil : v = []
    · subst hnil
      exact h' t'.toList hu (List.suffix_refl _) hwords
    · exact h v hnil hv ((List.prefix_append v _).trans hwords)

theorem exists_of_closesOff {t : String} (h : closesOff t = true) :
    ∃ before c after, t.toList = before ++ c :: after ∧ isDeclarationPart c = false ∧
      'l' ∉ after := by
  have hsplit := List.takeWhile_append_dropWhile
    (p := fun c => isDeclarationPart c && c != 'l') (l := t.toList.reverse)
  have hafter : 'l' ∉ t.toList.reverse.takeWhile fun c => isDeclarationPart c && c != 'l' := by
    intro hmem
    have hl := List.all_eq_true.mp List.all_takeWhile 'l' hmem
    simp at hl
  unfold closesOff at h
  cases hrest : t.toList.reverse.dropWhile fun c => isDeclarationPart c && c != 'l' with
  | nil =>
      rw [hrest] at h
      cases h
  | cons c before =>
      rw [hrest] at h hsplit
      refine ⟨before.reverse, c, _, ?_, by simpa using h, fun hl => hafter (List.mem_reverse.mp hl)⟩
      simpa using (congrArg List.reverse hsplit).symm

/-- Nothing that starts before a text that closes off goes on behind it. -/
@[simp]
theorem endsForGood_append_of_closesOff {t' : String} (h : closesOff t' = true) (t : String) :
    EndsForGood n (t ++ t') := by
  obtain ⟨before, c, after, htext, hc, hafter⟩ := exists_of_closesOff h
  intro u hu hsuffix hwords
  have hforeign : c ∉ u := by
    intro hmem
    rw [isDeclarationPart_of_mem (hwords.subset hmem)] at hc
    cases hc
  rw [String.toList_append, htext, ← List.append_assoc] at hsuffix
  rcases suffix_append_cases hsuffix with hsuffix | ⟨v, -, rfl⟩
  · rcases List.suffix_cons_iff.mp hsuffix with rfl | hsuffix
    · exact hforeign List.mem_cons_self
    · exact endsForGood_of_notMem (t := String.ofList after) (by simpa using hafter) u hu
        (by simpa using hsuffix) hwords
  · exact hforeign (by simp)

@[simp]
theorem endsForGood_append_append {t'' : String} (h : closesOff t'' = true) (t t' : String) :
    EndsForGood n (t ++ (t' ++ t'')) := by
  rw [← String.append_assoc]
  exact endsForGood_append_of_closesOff h (t ++ t')

@[simp]
theorem endsForGood_of_closesOff {t : String} (h : closesOff t = true) : EndsForGood n t := by
  rw [← String.empty_append (s := t)]
  exact endsForGood_append_of_closesOff h ""

/-! ## Fixed texts -/

@[simp low]
theorem declarationCount_of_plain {t : String} (h : '_' ∉ t.toList) : declarationCount n t = 0 :=
  declarationCount_of_notMem (c := '_') (by decide) h

@[simp]
theorem notMem_toDigits {c : Char} (hc : c.isDigit = false) (m : Nat) :
    c ∉ Nat.toDigits 10 m := by
  intro hmem
  rw [isDigit_of_mem_toDigits hmem] at hc
  cases hc

/-- The names that lowering makes up for numbers declare nothing by themselves. -/
theorem declarationCount_numbered {stem : String} (hstem : 'l' ∉ stem.toList) (m : Nat) :
    declarationCount n (stem ++ toString m) = 0 := by
  refine declarationCount_of_notMem (c := 'l') (by decide) ?_
  simp +decide [hstem]

@[simp]
theorem declarationCount_reference (m : Nat) : declarationCount n (reference m) = 0 :=
  declarationCount_numbered (by decide) m

@[simp]
theorem declarationCount_helperName (h : Helper) : declarationCount n h.name = 0 := by
  refine declarationCount_of_notMem (c := 'l') (by decide) ?_
  cases h <;> decide

@[simp]
theorem closesOff_unaryToken (op : UnaryOp) : closesOff (unaryToken op) = true := by
  cases op <;> decide

@[simp]
theorem declarationCount_unaryToken (op : UnaryOp) : declarationCount n (unaryToken op) = 0 := by
  cases op <;> simp +decide [unaryToken]

@[simp]
theorem declarationCount_number (text : String) : declarationCount n (number text) = 0 := by
  refine declarationCount_of_plain ?_
  simp [number]

/-! ## Shapes -/

section Shapes

variable {t t' : String} {ts : List String} {e : Expr}

@[simp]
theorem startsAfresh_parens : startsAfresh (parens t) = true := by
  rw [parens, String.append_assoc]
  exact startsAfresh_append (by decide) (by decide) _

theorem startsAfresh_objectText : startsAfresh (objectText ts) = true := by
  unfold objectText
  split
  case isTrue => rfl
  case isFalse =>
    rw [String.append_assoc]
    exact startsAfresh_append (by decide) (by decide) _

@[simp]
theorem declarationCount_parens : declarationCount n (parens t) = declarationCount n t := by
  simp +decide [parens]

theorem declarationCount_intercalate {sep : String} (hstart : startsAfresh sep = true)
    (hend : closesOff sep = true) (hsep : declarationCount n sep = 0) :
    declarationCount n (sep.intercalate ts) = (ts.map (declarationCount n)).sum := by
  induction ts with
  | nil => rfl
  | cons t ts ih =>
      cases ts with
      | nil => simp
      | cons t' ts =>
          rw [String.intercalate_cons_cons, declarationCount_append_of_endsForGood (by simp [hend]),
            declarationCount_append_of_startsAfresh hstart, ih, hsep, List.map_cons, List.sum_cons]
          rfl

@[simp]
theorem declarationCount_commaList :
    declarationCount n (commaList ts) = (ts.map (declarationCount n)).sum :=
  declarationCount_intercalate (by decide) (by decide) (by simp +decide)

@[simp]
theorem declarationCount_objectText :
    declarationCount n (objectText ts) = (ts.map (declarationCount n)).sum := by
  unfold objectText
  split
  case isTrue hempty => simp +decide [List.isEmpty_iff.mp hempty]
  case isFalse => simp +decide

@[simp]
theorem declarationCount_grouped : declarationCount n (grouped e t) = declarationCount n t := by
  unfold grouped
  split <;> simp

@[simp]
theorem declarationCount_asOperand : declarationCount n (asOperand e t) = declarationCount n t := by
  unfold asOperand
  split <;> simp

@[simp]
theorem declarationCount_asUnaryOperand :
    declarationCount n (asUnaryOperand e t) = declarationCount n t := by
  unfold asUnaryOperand
  split <;> simp

@[simp]
theorem declarationCount_asTarget : declarationCount n (asTarget e t) = declarationCount n t := by
  unfold asTarget
  split <;> simp

@[simp]
theorem declarationCount_asConstructor :
    declarationCount n (asConstructor e t) = declarationCount n t := by
  unfold asConstructor
  split <;> simp

@[simp]
theorem declarationCount_arrowResult :
    declarationCount n (arrowResult t) = declarationCount n t := by
  unfold arrowResult
  split <;> simp

@[simp]
theorem declarationCount_statementText :
    declarationCount n (statementText t) = declarationCount n t := by
  unfold statementText
  split <;> simp +decide

@[simp]
theorem declarationCount_tailText {use : TailUse} :
    declarationCount n (tailText use t) = declarationCount n t := by
  cases use with
  | returned => simp +decide [tailText]
  | discarded => exact declarationCount_statementText

@[simp]
theorem declarationCount_withDefault {default : Option String} :
    declarationCount n (withDefault t default) =
      declarationCount n t + (default.toList.map (declarationCount n)).sum := by
  cases default <;> simp +decide [withDefault]

@[simp]
theorem declarationCount_calledBlock {isAsync : Bool} :
    declarationCount n (calledBlock isAsync t) = declarationCount n t := by
  unfold calledBlock
  split <;> simp +decide

/-- An operator between blanks. -/
theorem declarationCount_operation {token : String}
    (hstart : startsAfresh (" " ++ token ++ " ") = true)
    (hend : closesOff (" " ++ token ++ " ") = true) (htoken : '_' ∉ (" " ++ token ++ " ").toList) :
    declarationCount n (t ++ " " ++ token ++ " " ++ t') =
      declarationCount n t + declarationCount n t' := by
  have hsplit : t ++ " " ++ token ++ " " ++ t' = t ++ (" " ++ token ++ " ") ++ t' := by
    simp only [String.append_assoc]
  rw [hsplit, declarationCount_append_of_endsForGood (endsForGood_append_of_closesOff hend t),
    declarationCount_append_of_startsAfresh hstart, declarationCount_of_plain htoken, Nat.add_zero]

@[simp]
theorem declarationCount_binary {op : BinaryOp} :
    declarationCount n (t ++ " " ++ binaryToken op ++ " " ++ t') =
      declarationCount n t + declarationCount n t' := by
  apply declarationCount_operation <;> cases op <;> decide

@[simp]
theorem declarationCount_assignment {op : AssignOp} :
    declarationCount n (t ++ " " ++ op.token ++ " " ++ t') =
      declarationCount n t + declarationCount n t' := by
  apply declarationCount_operation <;> cases op <;> decide

theorem declarationCount_functionHead {f : FunctionDef}
    (hname : ∀ name ∈ f.name, declarationCount n name = 0) :
    declarationCount n (functionHead f ts) = (ts.map (declarationCount n)).sum := by
  unfold functionHead
  cases f.isAsync <;> cases f.isArrow <;> cases f.isGenerator <;> cases hf : f.name <;>
    simp_all +decide

theorem endsForGood_functionHead {f : FunctionDef} : EndsForGood n (functionHead f ts) := by
  unfold functionHead
  cases f.isArrow <;> simp +decide [parens]

/-- The steps of a pipeline. -/
theorem declarationCount_steps (m : Nat) :
    declarationCount n (parens (commaList (ts.map (fun value => reference m ++ " = " ++ value)
      ++ [reference m]))) = (ts.map (declarationCount n)).sum := by
  have hstep (value : String) :
      declarationCount n (reference m ++ " = " ++ value) = declarationCount n value := by
    simp +decide
  simp [Function.comp_def, hstep]

/-- A declaration of a name that is not that of a pipeline. -/
theorem declarationCount_let {stem : String} (hstem : 'f' ∉ stem.toList) (m : Nat) :
    declarationCount n ("let " ++ (stem ++ toString m)) = 0 :=
  declarationCount_of_notMem (c := 'f') (by decide) (by simp +decide [hstem])

/-- The head of a counting loop. -/
theorem declarationCount_countingHead {id : Nat} {binding start stop step : String}
    (hbinding : declarationCount n binding = 0) :
    declarationCount n (countingHead id binding start stop step) =
      declarationCount n start + declarationCount n stop + declarationCount n step := by
  have hfirst : declarationCount n ("for (let " ++ ("_start" ++ toString id)) = 0 := by
    have hsplit : "for (let " ++ ("_start" ++ toString id) =
        "for (" ++ ("let " ++ ("_start" ++ toString id)) := by
      have hliteral : "for (let " = "for (" ++ "let " := rfl
      rw [hliteral, String.append_assoc]
    rw [hsplit, declarationCount_append_of_endsForGood (by simp +decide),
      declarationCount_let (by decide)]
    simp +decide
  have hstart : declarationCount n ("_start" ++ toString id) = 0 :=
    declarationCount_numbered (by decide) id
  have hstop : declarationCount n ("_end" ++ toString id) = 0 :=
    declarationCount_numbered (by decide) id
  have hstep : declarationCount n ("_step" ++ toString id) = 0 :=
    declarationCount_numbered (by decide) id
  dsimp only [countingHead, toString_string]
  generalize "_start" ++ toString id = startVar at hfirst hstart ⊢
  generalize "_end" ++ toString id = stopVar at hstop ⊢
  generalize "_step" ++ toString id = stepVar at hstep ⊢
  simp +decide [hfirst, hstart, hstop, hstep, hbinding]

@[simp]
theorem declarationCount_guardCall {isAsync : Bool} :
    declarationCount n (guardCall isAsync t) = declarationCount n t := by
  unfold guardCall
  split <;> simp +decide

/-- The first line of a guarded evaluation. -/
theorem declarationCount_guardLine {isAsync : Bool} (id : Nat) :
    declarationCount n ("let " ++ ("_res" ++ toString id) ++ " = " ++ guardCall isAsync t
      ++ ";\n") =
      declarationCount n t := by
  have hlet : declarationCount n ("let " ++ ("_res" ++ toString id)) = 0 :=
    declarationCount_let (by decide) id
  generalize "_res" ++ toString id = result at hlet ⊢
  simp +decide [hlet]

/-! ## Lines -/

@[simp]
theorem declarationCount_indented (level : Nat) :
    declarationCount n (blanksAt level ++ t) = declarationCount n t := by
  have hblanks : 'l' ∉ (blanksAt level).toList := by
    simp +decide [blanksAt]
  rw [declarationCount, String.toList_append]
  exact declarationsAmong_append_of_notMem hblanks t.toList

/-- Texts on lines of their own, with another text behind them. -/
theorem declarationCount_lines (f : String → String) (t : String) :
    declarationCount n (String.join (ts.map fun u => f u ++ "\n") ++ t) =
      (ts.map fun u => declarationCount n (f u)).sum + declarationCount n t := by
  induction ts with
  | nil => simp
  | cons u ts ih =>
      rw [List.map_cons, String.join_cons, String.append_assoc,
        declarationCount_append_of_endsForGood (by simp +decide), ih, List.map_cons, List.sum_cons]
      simp +decide [Nat.add_assoc]

theorem startsAfresh_blanksAt (level : Nat) : startsAfresh (blanksAt level) = true := by
  unfold startsAfresh blanksAt
  rw [String.toList_ofList]
  cases level with
  | zero => rfl
  | succ level => rfl

/-- Only the declaration of the variable itself starts with its words. -/
theorem startsWithDeclaration_iff_eq {m : Nat} :
    startsWithDeclaration n (declarationWords m ++ [';']) = true ↔ reference m = reference n := by
  constructor
  · intro h
    obtain ⟨rest, heq, hrest⟩ := startsWithDeclaration_iff.mp h
    simp only [declarationWords_eq, List.cons_append, List.cons.injEq, true_and] at heq
    have hdigits : Nat.toDigits 10 m = Nat.toDigits 10 n := by
      rcases List.append_eq_append_iff.mp heq with ⟨v, hn, hv⟩ | ⟨v, hm, rfl⟩
      · cases v with
        | nil => simpa using hn.symm
        | cons c v =>
            obtain ⟨rfl, -⟩ := List.cons.inj hv
            have hmem : ';' ∈ Nat.toDigits 10 n := hn ▸ by simp
            exact absurd hmem (notMem_toDigits (by decide) n)
      · cases v with
        | nil => simpa using hm
        | cons c v =>
            have hdigit : c.isDigit = true := isDigit_of_mem_toDigits (n := m) (hm ▸ by simp)
            cases (isWordPart_of_isDigit hdigit).symm.trans (hrest c rfl)
    rw [reference, reference, Nat.toString_eq_ofList_toDigits, hdigits,
      ← Nat.toString_eq_ofList_toDigits]
  · intro h
    refine startsWithDeclaration_iff.mpr ⟨[';'], ?_, ?_⟩
    · rw [declarationWords, h, declarationWords]
    · rintro c ⟨⟩
      rfl

theorem declarationCount_declaration (m : Nat) :
    declarationCount n (declaration (reference m)) =
      if reference m = reference n then 1 else 0 := by
  have htext : (declaration (reference m)).toList = declarationWords m ++ [';'] :=
    String.toList_append ..
  obtain ⟨cs, hcs, hrest⟩ : ∃ cs, declarationWords m ++ [';'] = 'l' :: cs ∧ 'l' ∉ cs := by
    rw [declarationWords_eq]
    exact ⟨_, rfl, by simp +decide⟩
  rw [declarationCount, htext, hcs, declarationsAmong,
    declarationsAmong_of_notMem (c := 'l') (by decide) hrest, ← hcs, Nat.add_zero]
  split
  case isTrue heq => rw [startsWithDeclaration_iff_eq.mpr heq, Bool.toNat_true]
  case isFalse hne =>
    rw [Bool.eq_false_iff.mpr (startsWithDeclaration_iff_eq.not.mpr hne), Bool.toNat_false]

@[simp]
theorem declarationCount_braces (level : Nat) :
    declarationCount n (" \x7b\n" ++ t ++ blanksAt level ++ "\x7d") = declarationCount n t := by
  have hblanks : declarationCount n (blanksAt level) = 0 := by
    simpa using declarationCount_indented (n := n) (t := "") level
  simp +decide [startsAfresh_blanksAt, hblanks]

theorem startsAfresh_braces {t' : String} :
    startsAfresh (" \x7b\n" ++ t ++ t' ++ "\x7d") = true := by
  rw [String.append_assoc, String.append_assoc]
  exact startsAfresh_append (by decide) (by decide) _

theorem sum_declarationCount_declaration {names : List String}
    (hnames : ∀ name ∈ names, ∃ m, name = reference m) :
    (names.map fun name => declarationCount n (declaration name)).sum =
      names.count (reference n) := by
  induction names with
  | nil => rfl
  | cons name names ih =>
      obtain ⟨⟨m, rfl⟩, hrest⟩ := List.forall_mem_cons.mp hnames
      rw [List.map_cons, List.sum_cons, ih hrest, List.count_cons, declarationCount_declaration,
        Nat.add_comm]
      simp

theorem declarationCount_scopeBody {level : Nat} {names : List String}
    (hnames : ∀ name ∈ names, ∃ m, name = reference m) :
    declarationCount n (scopeBody level names t) =
      names.count (reference n) + declarationCount n t := by
  rw [scopeBody, declarationCount_braces, declarationCount_lines,
    ← sum_declarationCount_declaration hnames]
  simp only [declarationCount_indented]

end Shapes

end JavaScript

end PegScript

import PegScript.Proofs.JavaScript.Effects
import PegScript.Proofs.JavaScript.Trimming
import PegScript.Proofs.Tree.Scopes

/-!
# Marks in texts

A construct that takes a number uses it for its names, and gives values to these names in its text:
`Construct.marks` is what stands there.  What stands in a text also stands in the longer texts that
are put together from it (`Occurs`).
-/

namespace PegScript

open JavaScript

/-! ## Numbered constructs -/

/-- Where a construct gives a value to one of its names: the text before the name, what the name
starts with and the text behind it. -/
structure Slot where
  before : String
  stem : String
  after : String
deriving DecidableEq, Repr

/-- The name that has the number. -/
def Slot.name (n : Nat) (slot : Slot) : String :=
  slot.stem ++ toString n

/-- What stands in the text where the name gets its value. -/
def Slot.mark (n : Nat) (slot : Slot) : String :=
  slot.before ++ slot.name n ++ slot.after

/-- A construct that takes a number for its names. -/
inductive Construct where
  | pipeline
  | counting
  | guarded
deriving DecidableEq, Repr

namespace Construct

/-- Where the names of the construct get their values. -/
def slots : Construct → List Slot
  | pipeline => [⟨"(", "_ref", " = "⟩]
  | counting =>
    [⟨"for (let ", "_start", " = "⟩, ⟨", ", "_end", " = "⟩, ⟨", ", "_step", " = Math.abs("⟩]
  | guarded => [⟨"let ", "_res", " = "⟩]

/-- The names of the construct that has the number. -/
def names (n : Nat) (c : Construct) : List String :=
  c.slots.map (·.name n)

/-- What stands in the text where the names get their values. -/
def marks (n : Nat) (c : Construct) : List String :=
  c.slots.map (·.mark n)

end Construct

/-- The kind of numbered construct that a piece itself is, if it is one. -/
def Piece.constructs : Piece → Multiset Construct
  | .expr (.pipeline ..) => {.pipeline}
  | .stmt (.forRange ..) => {.counting}
  | .stmt (.guard ..) => {.guarded}
  | _ => 0

/-- The numbered constructs among the pieces. -/
def constructsOf (pieces : List Piece) : Multiset Construct :=
  (pieces.map Piece.constructs).sum

@[simp]
theorem constructsOf_cons (piece : Piece) (pieces : List Piece) :
    constructsOf (piece :: pieces) = piece.constructs + constructsOf pieces := by
  simp [constructsOf]

/-- The kind of construct that a piece is, if it takes a number. -/
def Piece.kind : Piece → Construct
  | .expr _ => .pipeline
  | .stmt (.forRange ..) => .counting
  | _ => .guarded

theorem Piece.constructs_eq (p : Piece) :
    p.constructs = if p.isNumbered then {p.kind} else 0 := by
  cases p with
  | expr e => cases e <;> rfl
  | stmt st => cases st <;> rfl
  | _ => rfl

theorem constructsOf_eq (ps : List Piece) :
    constructsOf ps = (ps.filter Piece.isNumbered).map Piece.kind := by
  induction ps with
  | nil => rfl
  | cons p ps ih =>
      rw [constructsOf_cons, ih, p.constructs_eq, List.filter_cons]
      split
      · rfl
      · exact zero_add _

namespace JavaScript

/-! ## Texts in texts -/

/-- The mark stands somewhere in the text. -/
def Occurs (mark text : String) : Prop :=
  mark.toList <:+: text.toList

/-- The mark stands in one of the texts. -/
def OccursAmong (mark : String) (texts : List String) : Prop :=
  ∃ text ∈ texts, Occurs mark text

section OccursAmong

variable {mark t : String} {ts ts' : List String}

@[simp, grind =]
theorem occursAmong_nil : OccursAmong mark [] ↔ False := by
  simp [OccursAmong]

@[simp, grind =]
theorem occursAmong_cons : OccursAmong mark (t :: ts) ↔ Occurs mark t ∨ OccursAmong mark ts := by
  simp [OccursAmong]

@[simp, grind =]
theorem occursAmong_append :
    OccursAmong mark (ts ++ ts') ↔ OccursAmong mark ts ∨ OccursAmong mark ts' := by
  simp [OccursAmong, or_and_right, exists_or]

/-- Texts that are put into longer texts. -/
@[grind ←]
theorem OccursAmong.map {f : String → String} (hts : OccursAmong mark ts)
    (hf : ∀ t, Occurs mark t → Occurs mark (f t)) : OccursAmong mark (ts.map f) := by
  obtain ⟨t, hmem, ht⟩ := hts
  exact ⟨f t, List.mem_map_of_mem hmem, hf t ht⟩

end OccursAmong

namespace Occurs

variable {mark t t' : String} {ts : List String} {e : Expr}

theorem refl (t : String) : Occurs t t :=
  List.infix_refl _

theorem trans (ht : Occurs mark t) (ht' : Occurs t t') : Occurs mark t' :=
  List.IsInfix.trans ht ht'

@[grind ←]
theorem append_left (ht : Occurs mark t) : Occurs mark (t ++ t') := by
  have htext : t.toList <:+: (t ++ t').toList := by
    rw [String.toList_append]
    exact (List.prefix_append t.toList t'.toList).isInfix
  exact ht.trans htext

@[grind ←]
theorem append_right (ht : Occurs mark t') : Occurs mark (t ++ t') := by
  have htext : t'.toList <:+: (t ++ t').toList := by
    rw [String.toList_append]
    exact (List.suffix_append t.toList t'.toList).isInfix
  exact ht.trans htext

theorem infix_intercalate {sep u : List Char} {texts : List (List Char)} (hu : u ∈ texts) :
    u <:+: sep.intercalate texts := by
  induction texts with
  | nil => cases hu
  | cons u' texts ih =>
      cases texts with
      | nil =>
          rw [List.mem_singleton] at hu
          simp [List.intercalate_singleton, hu]
      | cons u'' texts =>
          rw [List.intercalate_cons_cons]
          rcases List.mem_cons.mp hu with rfl | hrest
          · rw [List.append_assoc]
            exact (List.prefix_append u _).isInfix
          · exact (ih hrest).trans (List.suffix_append (u' ++ sep) _).isInfix

@[grind ←]
theorem intercalate {sep : String} (hts : OccursAmong mark ts) :
    Occurs mark (sep.intercalate ts) := by
  obtain ⟨t, hmem, ht⟩ := hts
  have htext : t.toList <:+: (sep.intercalate ts).toList := by
    rw [String.toList_intercalate]
    exact infix_intercalate (List.mem_map_of_mem hmem)
  exact ht.trans htext

@[grind ←]
theorem join (hts : OccursAmong mark ts) : Occurs mark (String.join ts) := by
  obtain ⟨t, hmem, ht⟩ := hts
  obtain ⟨before, after, rfl⟩ := List.append_of_mem hmem
  have htext : t.toList <:+: (String.join (before ++ t :: after)).toList := by
    rw [String.toList_join, List.flatMap_append, List.flatMap_cons]
    exact List.infix_append' _ _ _
  exact ht.trans htext

@[grind ←]
theorem commaList (hts : OccursAmong mark ts) : Occurs mark (commaList ts) :=
  intercalate hts

@[grind ←]
theorem parens (ht : Occurs mark t) : Occurs mark (parens t) :=
  ht.append_right.append_left

@[grind ←]
theorem objectText (hts : OccursAmong mark ts) : Occurs mark (objectText ts) := by
  unfold JavaScript.objectText
  split
  case isTrue hempty =>
    obtain ⟨t, hmem, -⟩ := hts
    rw [List.isEmpty_iff.mp hempty] at hmem
    cases hmem
  case isFalse => exact (commaList hts).append_right.append_left

@[grind ←]
theorem grouped (ht : Occurs mark t) : Occurs mark (grouped e t) := by
  unfold JavaScript.grouped
  split <;> grind

@[grind ←]
theorem asOperand (ht : Occurs mark t) : Occurs mark (asOperand e t) := by
  unfold JavaScript.asOperand
  split <;> grind

@[grind ←]
theorem asUnaryOperand (ht : Occurs mark t) : Occurs mark (asUnaryOperand e t) := by
  unfold JavaScript.asUnaryOperand
  split <;> grind

@[grind ←]
theorem asTarget (ht : Occurs mark t) : Occurs mark (asTarget e t) := by
  unfold JavaScript.asTarget
  split <;> grind

@[grind ←]
theorem asConstructor (ht : Occurs mark t) : Occurs mark (asConstructor e t) := by
  unfold JavaScript.asConstructor
  split <;> grind

@[grind ←]
theorem arrowResult (ht : Occurs mark t) : Occurs mark (arrowResult t) := by
  unfold JavaScript.arrowResult
  split <;> grind

@[grind ←]
theorem statementText (ht : Occurs mark t) : Occurs mark (statementText t) := by
  unfold JavaScript.statementText
  split <;> grind

@[grind ←]
theorem tailText {use : TailUse} (ht : Occurs mark t) : Occurs mark (tailText use t) := by
  unfold JavaScript.tailText
  split
  · exact ht.append_right.append_left
  · exact ht.statementText

@[grind ←]
theorem withDefault {default : Option String}
    (ht : Occurs mark t ∨ OccursAmong mark default.toList) :
    Occurs mark (withDefault t default) := by
  unfold JavaScript.withDefault
  split <;> grind

@[grind ←]
theorem calledBlock {isAsync : Bool} (ht : Occurs mark t) :
    Occurs mark (calledBlock isAsync t) := by
  unfold JavaScript.calledBlock
  split <;> grind

@[grind ←]
theorem functionHead {f : FunctionDef} (hts : OccursAmong mark ts) :
    Occurs mark (functionHead f ts) :=
  (commaList hts).parens.append_right.append_left

/-- Trimming leaves what does not end in white space. -/
theorem trimEnd (ht : Occurs mark t) : Occurs (trimEnd mark) (trimEnd t) := by
  have hself : Occurs (JavaScript.trimEnd mark) mark := by
    obtain ⟨blanks, hblanks, -⟩ := exists_append_blanks mark
    exact ⟨[], blanks, hblanks.symm⟩
  obtain ⟨before, after, htext⟩ := ht
  have heq : t = String.ofList before ++ mark ++ String.ofList after := by
    rw [← String.toList_inj]
    simp [← htext]
  rw [heq, trimEnd_append]
  split
  case isTrue =>
    rw [trimEnd_append]
    split
    case isTrue hblank =>
      rw [hblank]
      exact List.nil_infix
    case isFalse => exact (refl _).append_right
  case isFalse => exact hself.append_right.append_left

/-- The head of a counting loop has its bounds and its step, and gives values to its names. -/
@[grind ←]
theorem countingHead {id : Nat} {binding start stop step : String}
    (ht : OccursAmong mark (Construct.counting.marks id) ∨ Occurs mark start ∨ Occurs mark stop ∨
      Occurs mark step) :
    Occurs mark (countingHead id binding start stop step) := by
  have hbehind (before t t' t'' : String) (ht : Occurs mark (t ++ t' ++ t'')) :
      Occurs mark (before ++ t ++ t' ++ t'') := by
    have := ht.append_right (t := before)
    rwa [← String.append_assoc, ← String.append_assoc] at this
  unfold JavaScript.countingHead
  -- All of this stands in the first of the four lines.
  refine append_left (append_left (append_left ?_))
  simp only [Construct.marks, Construct.slots, List.map_cons, List.map_nil, occursAmong_cons,
    occursAmong_nil, or_false] at ht
  rcases ht with (ht | ht | ht) | ht | ht | ht
  · iterate 10 apply append_left
    exact ht
  · iterate 6 apply append_left
    exact hbehind _ _ _ _ ht
  · iterate 2 apply append_left
    exact hbehind _ _ _ _ ht
  · iterate 9 apply append_left
    exact append_right ht
  · iterate 5 apply append_left
    exact append_right ht
  · exact append_left (append_right ht)

/-- The call of a helper. -/
@[grind ←]
theorem helperCall {h : Helper} (hts : Occurs mark (h.name ++ "(") ∨ OccursAmong mark ts) :
    Occurs mark (h.name ++ JavaScript.parens (JavaScript.commaList ts)) := by
  rcases hts with ht | hts
  · refine ht.trans ⟨[], (JavaScript.commaList ts ++ ")").toList, ?_⟩
    simp [JavaScript.parens]
  · exact (commaList hts).parens.append_right

/-- The call in a guarded evaluation. -/
@[grind ←]
theorem guardCall {isAsync : Bool}
    (ht : Occurs mark ((if isAsync then Helper.safeAsync else Helper.safe).name ++ "(") ∨
      Occurs mark t) :
    Occurs mark (guardCall isAsync t) := by
  unfold JavaScript.guardCall
  rcases ht with ht | ht
  · cases isAsync with
    | true => exact ht.trans ⟨"await ".toList, ("async () => " ++ t ++ ")").toList, by simp⟩
    | false => exact ht.trans ⟨[], ("() => " ++ t ++ ")").toList, by simp⟩
  · split <;> grind

/-- The first line of a guarded evaluation, which gives a value to its name. -/
@[grind ←]
theorem guardLine {id : Nat} {isAsync : Bool}
    (ht : OccursAmong mark (Construct.guarded.marks id) ∨
      Occurs mark ((if isAsync then Helper.safeAsync else Helper.safe).name ++ "(") ∨
      Occurs mark t) :
    Occurs mark ("let " ++ s!"_res{id}" ++ " = " ++ JavaScript.guardCall isAsync t ++ ";\n") := by
  rcases ht with ht | ht
  · rw [Construct.marks, Construct.slots, List.map_singleton, occursAmong_cons, occursAmong_nil,
      or_false] at ht
    exact ht.append_left.append_left
  · exact (guardCall ht).append_right.append_left

/-- The steps of a pipeline, the first of which gives a value to its name. -/
@[grind ←]
theorem pipelineSteps {id : Nat} {first : String}
    (ht : OccursAmong mark (Construct.pipeline.marks id) ∨ Occurs mark first ∨
      OccursAmong mark ts) :
    Occurs mark (JavaScript.parens (JavaScript.commaList
      ((first :: ts).map (fun value => s!"_ref{id}" ++ " = " ++ value) ++ [s!"_ref{id}"]))) := by
  rcases ht with ht | ht
  · rw [Construct.marks, Construct.slots, List.map_singleton, occursAmong_cons, occursAmong_nil,
      or_false] at ht
    rw [List.map_cons, List.cons_append, JavaScript.commaList, String.intercalate_cons_append,
      JavaScript.parens, ← String.append_assoc, ← String.append_assoc]
    exact ht.append_left.append_left
  · refine parens (commaList (occursAmong_append.mpr (Or.inl ?_)))
    refine OccursAmong.map (occursAmong_cons.mpr ht) ?_
    intro value hvalue
    exact hvalue.append_right

end Occurs

/-- What stands in the text of a statement stands in the text of the program. -/
theorem OccursAmong.occurs_text {g : Generated} {mark : String} (hbody : OccursAmong mark g.body) :
    Occurs mark g.text := by
  unfold Generated.text Generated.joinLines Generated.statements
  refine Occurs.join (OccursAmong.map ?_ fun t ht => ht.append_left)
  exact occursAmong_append.mpr (Or.inr hbody)

end JavaScript

end PegScript

import Mathlib.Data.List.Chain
import PegScript.Language.Lexical
import PegScript.Proofs.Tree.Pieces

/-!
# Well-formed pieces

The types of the tree allow more than the grammar produces.  What holds of each piece that a parse
produces is stated here for one piece at a time, without looking into the pieces below it.  A tree
is well-formed if all of its pieces are.
-/

namespace PegScript

/-- The text of a string as written between its quotes: a backslash stands with the character after
it, and no other character is a quote or starts an interpolation. -/
inductive IsStringText : List Char → Prop where
  | nil : IsStringText []
  | escape (c : Char) {rest : List Char} (h : IsStringText rest) :
      IsStringText ('\\' :: c :: rest)
  | plain {c : Char} {rest : List Char} (hquote : c ≠ '"') (hslash : c ≠ '\\')
      (hopen : ¬ (c = '#' ∧ rest.head? = some '\x7b')) (h : IsStringText rest) :
      IsStringText (c :: rest)

/-- Whether the part is text. -/
def StrPart.isText : StrPart → Bool
  | .text _ => true
  | .expr _ => false

/-- The texts of a string are not empty, they are texts that a string can have, and no two of them
are neighbours. -/
structure StringParts (parts : List StrPart) : Prop where
  texts : ∀ s, StrPart.text s ∈ parts → s ≠ "" ∧ IsStringText s.toList
  apart : parts.IsChain fun p q => ¬ (p.isText = true ∧ q.isText = true)

theorem StringParts.nil : StringParts [] :=
  ⟨by simp, .nil⟩

theorem StringParts.cons {part : StrPart} {parts : List StrPart} (hparts : StringParts parts)
    (htext : ∀ s, part = .text s → s ≠ "" ∧ IsStringText s.toList)
    (hapart : part.isText = true → ∀ p ∈ parts.head?, p.isText = false) :
    StringParts (part :: parts) := by
  constructor
  · intro s hs
    rcases List.mem_cons.mp hs with heq | hs
    · exact htext s heq.symm
    · exact hparts.texts s hs
  · refine List.isChain_cons.mpr ⟨?_, hparts.apart⟩
    rintro p hp ⟨hhere, hnext⟩
    rw [hapart hhere p hp] at hnext
    cases hnext

theorem StringParts.tail {part : StrPart} {parts : List StrPart}
    (h : StringParts (part :: parts)) : StringParts parts :=
  ⟨fun s hs => h.texts s (List.mem_cons_of_mem _ hs), (List.isChain_cons.mp h.apart).2⟩

/-- Behind a text stands no text. -/
theorem StringParts.isText_eq_false {text : String} {part : StrPart} {parts : List StrPart}
    (h : StringParts (.text text :: parts)) (hpart : part ∈ parts.head?) : part.isText = false := by
  have hapart := (List.isChain_cons.mp h.apart).1 part hpart
  simpa [StrPart.isText] using hapart

@[simp]
def Expr.WellFormed : Expr → Prop
  | .str parts => StringParts parts
  | .pipeline _ stages => stages ≠ []
  | _ => True

/-- Only the last parameter may be a rest parameter, and that has no default. -/
def RestLast (params : List Param) : Prop :=
  ∀ front p back, params = front ++ p :: back → p.rest = true →
    back = [] ∧ p.default.isNone

structure FunctionDef.WellFormed (f : FunctionDef) : Prop where
  arrow : f.isArrow = true → f.name = none ∧ f.isGenerator = false
  restLast : RestLast f.params

@[simp]
theorem FunctionDef.wellFormed_iff {f : FunctionDef} :
    f.WellFormed ↔
      (f.isArrow = true → f.name = none ∧ f.isGenerator = false) ∧ RestLast f.params :=
  ⟨fun h => ⟨h.arrow, h.restLast⟩, fun h => ⟨h.1, h.2⟩⟩

theorem RestLast.singleton {p : Param} (h : p.rest = false) : RestLast [p] := by
  rintro (_ | ⟨q, front⟩) p' back heq hrest
  · cases heq
    rw [h] at hrest
    cases hrest
  · simp at heq

/-- The pattern takes a value apart. -/
def Pattern.Destructures : Pattern → Prop
  | .ident _ => False
  | .object .. | .array .. => True

/-- A target that is a pattern takes the value apart. -/
def AssignTarget.Assignable : AssignTarget → Prop
  | .pattern p => p.Destructures
  | _ => True

/-- A declaration of names or of a function. -/
def Stmt.Declares : Stmt → Prop
  | .decl .. | .function .. => True
  | _ => False

@[simp]
def Stmt.WellFormed : Stmt → Prop
  | .assign target op _ => ∀ p, target = .pattern p → op = .assign ∧ p.Destructures
  | .ifElse branches _ => branches ≠ []
  | .forIn pattern iterable _ =>
      ∀ name start stop step, pattern = .ident name → iterable ≠ .range start stop step
  | .tryCatch _ handler finalizer => handler.isSome ∨ finalizer.isSome
  | .function f => f.name.isSome ∧ f.isArrow = false
  | .importFrom clause =>
      (clause.namespaceName = none ∨ clause.named = []) ∧
        IsStringText clause.source.toList
  | .exportDecl s => s.Declares
  | _ => True

/-- A block that ends in an expression has it as its tail. -/
def Block.WellFormed (block : Block) : Prop :=
  block.tail.isNone → ∀ expr, block.body.getLast? ≠ some (.expr expr)

/-- What the piece itself has to satisfy, the pieces below it apart. -/
@[simp]
def Piece.WellFormed : Piece → Prop
  | .expr e => e.WellFormed
  | .stmt s => s.WellFormed
  | .block b => b.WellFormed
  | .function f => f.WellFormed
  | .propertyKey (.str text) => IsStringText text.toList
  | .patternElement (.prop p) => p.value.isNone → Language.isKeyword p.key = false
  | _ => True

end PegScript

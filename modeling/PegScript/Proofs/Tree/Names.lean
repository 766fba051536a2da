import PegScript.Language.Lexical
import PegScript.Proofs.Tree.Pieces

/-!
# Names in a tree

The types of the tree allow any text as a name or a number.  Here stands which texts are names, and
which names and numbers a piece of a parsed tree can have.
-/

namespace PegScript

/-- What is said of some characters is decided by looking at these, not at all characters. -/
instance (priority := 1100) decidableForallChar (p : Char → Prop) [DecidablePred p]
    (cs : List Char) : Decidable (∀ c ∈ cs, p c) :=
  List.decidableBAll p cs

namespace Language

/-- Whether a name can start with the character. -/
def isNameStart (c : Char) : Bool :=
  c.isAlpha || c == '_' || c == '$'

/-- Whether a name can have the character behind its first. -/
def isNamePart (c : Char) : Bool :=
  c.isAlphanum || c == '_' || c == '$'

/-- Whether the text is a name, which may be a keyword. -/
def isName (text : String) : Bool :=
  match text.toList with
  | [] => false
  | a :: as => isNameStart a && as.all isNamePart

theorem isNamePart_of_isNameStart {c : Char} (h : isNameStart c = true) :
    isNamePart c = true := by
  simp only [isNameStart, isNamePart, Char.isAlphanum, Bool.or_eq_true] at h ⊢
  rcases h with (h | h) | h
  · exact Or.inl (Or.inl (Or.inl h))
  · exact Or.inl (Or.inr h)
  · exact Or.inr h

theorem exists_of_isName {name : String} (h : isName name = true) :
    ∃ a as, name.toList = a :: as ∧ isNameStart a = true ∧ as.all isNamePart = true := by
  unfold isName at h
  split at h
  case h_1 => cases h
  case h_2 a as htext =>
    rw [Bool.and_eq_true] at h
    exact ⟨a, as, htext, h⟩

theorem all_isNamePart_of_isName {name : String} (h : isName name = true) :
    name.toList.all isNamePart = true := by
  obtain ⟨a, as, htext, ha, has⟩ := exists_of_isName h
  rw [htext, List.all_cons, isNamePart_of_isNameStart ha, has, Bool.and_self]

/-- Whether the text is a name that variables can have. -/
def isVariable (text : String) : Bool :=
  isName text && !isKeyword text

end Language

open PegScript.Language

/-- The characters that open or close something in JavaScript. -/
def delimiters : List Char :=
  ['(', ')', '[', ']', '\x7b', '\x7d', '"', '\x60']

/-- The text opens and closes nothing. -/
def Quiet (text : String) : Prop :=
  ∀ c ∈ text.toList, c ∉ delimiters

/-- A property access has a name. -/
def Suffix.Named : Suffix → Prop
  | .member property _ => isName property = true
  | _ => True

/-- Imported names may be keywords, unless they get another name. -/
structure ImportSpec.Named (spec : ImportSpec) : Prop where
  name : isName spec.name = true
  localName : ∀ name ∈ spec.localName, isVariable name = true

def ImportClause.Named : ImportClause → Prop
  | .namespaceName name => isVariable name = true
  | .named specs => ∀ spec ∈ specs, spec.Named

structure Import.Named (clause : Import) : Prop where
  default : ∀ name ∈ clause.default, isVariable name = true
  namespaceName : ∀ name ∈ clause.namespaceName, isVariable name = true
  named : ∀ spec ∈ clause.named, spec.Named

/-- The names that the piece itself has are names, and its numbers have no delimiters. -/
@[simp]
def Piece.Named : Piece → Prop
  | .expr (.ident name) | .property (.shorthand name) | .pipeStage (.bind name _)
  | .pattern (.ident name) | .assignTarget (.ident name) | .stmt (.forRange name _ _ _ _)
  | .stmt (.guard _ _ name _) => isVariable name = true
  | .expr (.member _ name _) | .propertyKey (.ident name) | .assignTarget (.member _ name) =>
      isName name = true
  | .expr (.number text) | .propertyKey (.number text) => Quiet text
  | .function f => ∀ name ∈ f.name, isVariable name = true
  | .pattern (.object _ rest) => ∀ name ∈ rest, isVariable name = true
  | .patternElement (.prop p) => isName p.key = true
  | .stmt (.importFrom clause) => clause.Named
  | _ => True

/-! ## Identifiers -/

/-- The names that an import gives to what it imports. -/
def Import.bindings (clause : Import) : List String :=
  clause.default.toList ++ clause.namespaceName.toList
    ++ clause.named.map fun spec => spec.localName.getD spec.name

/-- The names that the piece itself binds. -/
def Piece.bindings : Piece → List String
  | .pattern (.ident name) | .pipeStage (.bind name _) | .stmt (.forRange name _ _ _ _)
  | .stmt (.guard _ _ name _) => [name]
  | .pattern (.object _ rest) => rest.toList
  | .patternElement (.prop ⟨key, none, _⟩) => [key]
  | .function f => f.name.toList
  | .stmt (.importFrom clause) => clause.bindings
  | _ => []

/-- The variables that the piece itself reads or assigns by name. -/
def Piece.variables : Piece → List String
  | .expr (.ident name) | .property (.shorthand name) | .assignTarget (.ident name) => [name]
  | _ => []

/-- The names that occur in the program as variables or where something is bound. -/
def Program.identifiers (program : Program) : List String :=
  program.pieces.flatMap fun piece => piece.bindings ++ piece.variables

end PegScript

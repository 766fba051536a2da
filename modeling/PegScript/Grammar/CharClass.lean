/-!
# Classes of characters

A class is given by ranges of characters and may be negated.  The ASCII members are put one by one
into a set of small numbers, so the common test is one look at that set; only the parts of the
ranges beyond ASCII stay ranges.  How such a set is represented does not matter to a class: it takes
the operations of the set as they are.  The classes of a grammar keep it in 128 bits.
-/

namespace PegScript

/-- The operations on a set of numbers that a class needs for its ASCII members. -/
class AsciiSet (σ : Type) where
  empty : σ
  insert : σ → UInt8 → σ
  contains : σ → UInt8 → Bool

/-- One bit for each number below 128. -/
instance : AsciiSet (BitVec 128) where
  empty := 0#128
  insert bits i := bits ||| BitVec.twoPow 128 i.toNat
  contains bits i := bits.getLsbD i.toNat

/-- The two bounds of a range, smaller one first. -/
def orderedRange (r : Char × Char) : Char × Char :=
  if r.1 ≤ r.2 then r else (r.2, r.1)

/-- The last character of ASCII. -/
def lastAscii : Char :=
  Char.ofNat 0x7f

/-- The first character beyond ASCII. -/
def firstWide : Char :=
  Char.ofNat 0x80

/-- The codes of the ASCII characters from `lo` to `hi`. -/
def asciiCodes (lo hi : Char) : List UInt8 :=
  let last := if hi ≤ lastAscii then hi else lastAscii
  (List.range' lo.toNat (last.toNat + 1 - lo.toNat)).map UInt8.ofNat

/-- A set of characters, with its ASCII members in a set of type `σ`. -/
structure CharSet (σ : Type) where
  ascii : σ
  /-- The parts of the ranges beyond ASCII. -/
  wide : List (Char × Char) := []
  negated : Bool
  /-- How diagnostics name the class. -/
  description : String

/-- The classes of grammars. -/
abbrev CharClass := CharSet (BitVec 128)

namespace CharSet

/-- One bound of a range as it is written in a description. -/
def describeChar (c : Char) : String :=
  match c with
  | '\\' | ']' | '^' | '-' => String.ofList ['\\', c]
  | '\n' => "\\n"
  | '\r' => "\\r"
  | '\t' => "\\t"
  | _ => c.toString

/-- A range as it is written in a description, with its bounds in the given order. -/
def describeRange (r : Char × Char) : String :=
  if r.1 = r.2 then describeChar r.1 else describeChar r.1 ++ "-" ++ describeChar r.2

/-- Written with brackets, as in `[a-z_]` or `[^"\\]`. -/
def describe (ranges : List (Char × Char)) (negated : Bool) : String :=
  (if negated then "[^" else "[") ++ String.join (ranges.map describeRange) ++ "]"

variable {σ : Type} [AsciiSet σ]

/-- Adds the characters from `lo` to `hi`. -/
def addBetween (k : CharSet σ) (lo hi : Char) : CharSet σ :=
  { k with
    ascii := (asciiCodes lo hi).foldl AsciiSet.insert k.ascii
    wide :=
      if lastAscii < hi then k.wide ++ [(if lo ≤ firstWide then firstWide else lo, hi)]
      else k.wide }

/-- Adds the characters of a range, whose bounds may come in either order. -/
def addRange (k : CharSet σ) (r : Char × Char) : CharSet σ :=
  k.addBetween (orderedRange r).1 (orderedRange r).2

/-- The class of the characters in one of the ranges, or, negated, in none.  The bounds of a range
belong to it. -/
def ofRanges (ranges : List (Char × Char)) (negated : Bool) : CharSet σ :=
  ranges.foldl addRange { ascii := AsciiSet.empty, negated, description := describe ranges negated }

/-- Whether a range of the class covers the character, leaving negation aside. -/
def covers (k : CharSet σ) (c : Char) : Bool :=
  if c.toNat < 128 then AsciiSet.contains k.ascii (UInt8.ofNat c.toNat)
  else k.wide.any fun r => decide (r.1 ≤ c) && decide (c ≤ r.2)

/-- Membership. -/
def contains (k : CharSet σ) (c : Char) : Bool :=
  k.covers c != k.negated

end CharSet

/-- The class of the characters in one of the ranges, or, negated, in none. -/
def CharClass.ofRanges (ranges : List (Char × Char)) (negated : Bool) : CharClass :=
  CharSet.ofRanges ranges negated

end PegScript

import Mathlib.Data.Char
import Mathlib.Order.Lattice
import PegScript.Grammar.CharClass

/-!
# The members of a character class

A class looks up an ASCII character in its set of ASCII members and any other character in the parts
of its ranges beyond ASCII.  Both ways agree with the ranges as they were given: a character is
covered if it lies between the bounds of one of them, whichever of the two bounds comes first
(`CharSet.covers_ofRanges_iff`).

Of the set this needs what its insertions do to it (`LawfulAsciiSet`), and that only for numbers
below 128: a range is cut off at the end of ASCII before its codes are inserted, so no other number
ever gets to the set.
-/

namespace PegScript

/-- An empty set has no members, and inserting a number adds this one and no other. -/
class LawfulAsciiSet (σ : Type) [AsciiSet σ] : Prop where
  contains_empty (j : UInt8) (hj : j < 128) : AsciiSet.contains (AsciiSet.empty : σ) j = false
  contains_insert (set : σ) (i j : UInt8) (hi : i < 128) (hj : j < 128) :
    AsciiSet.contains (AsciiSet.insert set i) j = (AsciiSet.contains set j || i == j)

instance : LawfulAsciiSet (BitVec 128) where
  contains_empty j _ := BitVec.getLsbD_zero
  contains_insert set i j hi _ := by
    have hcode : decide (i.toNat = j.toNat) = (i == j) := by
      rw [Bool.eq_iff_iff, decide_eq_true_iff, beq_iff_eq, UInt8.toNat_inj]
    have hbound : i.toNat < 128 := UInt8.lt_iff_toNat_lt.mp hi
    change (set ||| BitVec.twoPow 128 i.toNat).getLsbD j.toNat = _
    rw [BitVec.getLsbD_or, BitVec.getLsbD_twoPow, decide_eq_true hbound, Bool.true_and, hcode]
    rfl

variable {ranges : List (Char × Char)} {c : Char}

theorem orderedRange_eq (r : Char × Char) : orderedRange r = (min r.1 r.2, max r.1 r.2) := by
  unfold orderedRange
  split
  case isTrue hle => rw [min_eq_left hle, max_eq_right hle]
  case isFalse hgt =>
    have hle : r.2 ≤ r.1 := le_of_not_ge hgt
    rw [min_eq_right hle, max_eq_left hle]

theorem char_le_iff_toNat_le {a b : Char} : a ≤ b ↔ a.toNat ≤ b.toNat :=
  UInt32.le_iff_toNat_le

theorem firstWide_le_iff : firstWide ≤ c ↔ ¬ c.toNat < 128 := by
  have hfirst : firstWide.toNat = 128 := rfl
  rw [char_le_iff_toNat_le, hfirst, Nat.not_lt]

theorem lastAscii_lt_iff : lastAscii < c ↔ firstWide ≤ c := by
  have hlast : lastAscii.toNat = 127 := rfl
  rw [firstWide_le_iff, ← not_le, char_le_iff_toNat_le, hlast, Nat.lt_succ_iff]

/-! ## ASCII characters -/

theorem toNat_ofNat_ascii {n : Nat} (hn : n < 128) : (UInt8.ofNat n).toNat = n :=
  UInt8.toNat_ofNat_of_lt' (Nat.lt_trans hn (by decide))

theorem ofNat_ascii_lt {n : Nat} (hn : n < 128) : UInt8.ofNat n < 128 := by
  rw [UInt8.lt_iff_toNat_lt, toNat_ofNat_ascii hn]
  exact hn

section AsciiSet

variable {σ : Type} [AsciiSet σ] [LawfulAsciiSet σ]

/-- Inserting numbers below 128 adds these numbers.  The induction is on the numbers that are left
to insert. -/
theorem contains_foldl_insert {codes : List UInt8} {j : UInt8} (hcodes : ∀ i ∈ codes, i < 128)
    (hj : j < 128) (set : σ) :
    AsciiSet.contains (codes.foldl AsciiSet.insert set) j =
      (AsciiSet.contains set j || codes.contains j) := by
  induction codes generalizing set with
  | nil => simp
  | cons i codes ih =>
      obtain ⟨hi, hrest⟩ := List.forall_mem_cons.mp hcodes
      rw [List.foldl_cons, ih hrest, LawfulAsciiSet.contains_insert set i j hi hj,
        List.contains_cons, Bool.or_assoc, BEq.comm]

end AsciiSet

/-- The codes to insert for a range are those from its lower bound to its upper bound or the end of
ASCII, whichever comes first. -/
theorem mem_asciiCodes_iff {lo hi : Char} {i : UInt8} :
    i ∈ asciiCodes lo hi ↔ i < 128 ∧ lo.toNat ≤ i.toNat ∧ i.toNat ≤ hi.toNat := by
  have hlast : lastAscii.toNat = 127 := rfl
  have hclamp : (if hi ≤ lastAscii then hi else lastAscii).toNat = min hi.toNat 127 := by
    split
    case isTrue hle =>
      rw [char_le_iff_toNat_le, hlast] at hle
      omega
    case isFalse hgt =>
      rw [char_le_iff_toNat_le, hlast] at hgt
      omega
  have hsmall : i < 128 ↔ i.toNat < 128 := UInt8.lt_iff_toNat_lt
  simp only [asciiCodes, hclamp, List.mem_map, List.mem_range'_1, hsmall]
  constructor
  · rintro ⟨n, hn, rfl⟩
    rw [toNat_ofNat_ascii (by omega)]
    omega
  · rintro ⟨hascii, hlo, hhi⟩
    exact ⟨i.toNat, by omega, UInt8.ofNat_toNat⟩

/-! ## Members -/

namespace CharSet

variable {σ : Type} [AsciiSet σ]

theorem negated_ofRanges (ranges : List (Char × Char)) (negated : Bool) :
    (ofRanges ranges negated : CharSet σ).negated = negated := by
  have hfold (k : CharSet σ) : (ranges.foldl addRange k).negated = k.negated := by
    induction ranges generalizing k with
    | nil => rfl
    | cons r ranges ih => exact ih _
  exact hfold _

variable [LawfulAsciiSet σ]

/-- Adding a range adds the characters between its bounds. -/
theorem covers_addRange_iff (k : CharSet σ) (r : Char × Char) (c : Char) :
    (k.addRange r).covers c = true ↔
      k.covers c = true ∨ min r.1 r.2 ≤ c ∧ c ≤ max r.1 r.2 := by
  rw [addRange, orderedRange_eq]
  generalize min r.1 r.2 = lo
  generalize max r.1 r.2 = hi
  rw [covers, covers]
  split
  case isTrue hascii =>
    have hsmall := ofNat_ascii_lt hascii
    have hcodes : ∀ i ∈ asciiCodes lo hi, i < 128 := fun i hi => (mem_asciiCodes_iff.mp hi).1
    change AsciiSet.contains ((asciiCodes lo hi).foldl AsciiSet.insert k.ascii) _ = true ↔ _
    rw [contains_foldl_insert hcodes hsmall, Bool.or_eq_true, List.contains_iff_mem,
      mem_asciiCodes_iff, toNat_ofNat_ascii hascii, char_le_iff_toNat_le, char_le_iff_toNat_le,
      and_iff_right hsmall]
  case isFalse hwide =>
    have hc : firstWide ≤ c := firstWide_le_iff.mpr hwide
    have hlow : (if lo ≤ firstWide then firstWide else lo) ≤ c ↔ lo ≤ c := by
      split
      case isTrue hbelow => exact iff_of_true hc (le_trans hbelow hc)
      case isFalse => exact Iff.rfl
    -- A range that does not go beyond ASCII has no character to add here.
    have hhigh : c ≤ hi → lastAscii < hi := fun hto => lastAscii_lt_iff.mpr (le_trans hc hto)
    simp only [addBetween]
    split
    case isTrue =>
      rw [List.any_append, Bool.or_eq_true, List.any_cons, List.any_nil, Bool.or_false,
        Bool.and_eq_true, decide_eq_true_iff, decide_eq_true_iff, hlow]
    case isFalse hnone =>
      exact (or_iff_left fun hbetween => hnone (hhigh hbetween.2)).symm

/-- Adding ranges one after the other adds what lies between the bounds of each. -/
theorem covers_foldl_addRange_iff (ranges : List (Char × Char)) (k : CharSet σ) (c : Char) :
    (ranges.foldl addRange k).covers c = true ↔
      k.covers c = true ∨ ∃ r ∈ ranges, min r.1 r.2 ≤ c ∧ c ≤ max r.1 r.2 := by
  induction ranges generalizing k with
  | nil => simp
  | cons r ranges ih =>
      rw [List.foldl_cons, ih, covers_addRange_iff, or_assoc]
      simp only [List.mem_cons, exists_eq_or_imp]

/-- A class covers what lies between the bounds of one of its ranges. -/
theorem covers_ofRanges_iff (ranges : List (Char × Char)) (negated : Bool) (c : Char) :
    (ofRanges ranges negated : CharSet σ).covers c = true ↔
      ∃ r ∈ ranges, min r.1 r.2 ≤ c ∧ c ≤ max r.1 r.2 := by
  rw [ofRanges, covers_foldl_addRange_iff]
  refine or_iff_right ?_
  rw [covers]
  split
  case isTrue hascii =>
    rw [LawfulAsciiSet.contains_empty _ (ofNat_ascii_lt hascii)]
    exact Bool.false_ne_true
  case isFalse => exact Bool.false_ne_true

/-- A character belongs to a class if a range covers it, and to a negated class if none does. -/
theorem contains_ofRanges_iff (ranges : List (Char × Char)) (negated : Bool) (c : Char) :
    (ofRanges ranges negated : CharSet σ).contains c = true ↔
      ¬ ((∃ r ∈ ranges, min r.1 r.2 ≤ c ∧ c ≤ max r.1 r.2) ↔ negated = true) := by
  rw [contains, bne_iff_ne, negated_ofRanges, Ne, Bool.eq_iff_iff, covers_ofRanges_iff]

/-- The bounds are the wrong way round and stand on both sides of the end of ASCII. -/
theorem contains_straddling : LawfulAsciiSet (BitVec 128) ∧
    (ofRanges [('ÿ', 'x')] false : CharSet (BitVec 128)).contains lastAscii = true ∧
    (ofRanges [('ÿ', 'x')] false : CharSet (BitVec 128)).contains firstWide = true :=
  ⟨inferInstance, (contains_ofRanges_iff [('ÿ', 'x')] false lastAscii).mpr (by decide),
    (contains_ofRanges_iff [('ÿ', 'x')] false firstWide).mpr (by decide)⟩

end CharSet

/-! ## Classes of ASCII characters -/

/-- Whether one of the ranges covers the code. -/
def coversCode (ranges : List (Char × Char)) (i : Nat) : Bool :=
  ranges.any fun r =>
    decide ((orderedRange r).1.toNat ≤ i) && decide (i ≤ (orderedRange r).2.toNat)

theorem coversCode_toNat_iff :
    coversCode ranges c.toNat = true ↔ ∃ r ∈ ranges, min r.1 r.2 ≤ c ∧ c ≤ max r.1 r.2 := by
  simp only [coversCode, List.any_eq_true, Bool.and_eq_true, decide_eq_true_eq, orderedRange_eq,
    char_le_iff_toNat_le]

namespace CharClass

theorem covers_ofRanges (ranges : List (Char × Char)) (negated : Bool) (c : Char) :
    (ofRanges ranges negated).covers c = coversCode ranges c.toNat := by
  rw [Bool.eq_iff_iff, coversCode_toNat_iff]
  exact CharSet.covers_ofRanges_iff ranges negated c

/-- A class of ASCII characters, by its members. -/
theorem contains_eq_of_ascii {ranges : List (Char × Char)} {p : Char → Bool}
    (hranges : ranges.all (fun r => decide ((orderedRange r).2.toNat < 128)) = true)
    (hascii : ∀ i : Fin 128, coversCode ranges i = p (Char.ofNat i))
    (hp : ∀ c, p c = true → c.toNat < 128) (c : Char) :
    (ofRanges ranges false).contains c = p c := by
  have hnegated : (ofRanges ranges false).negated = false := CharSet.negated_ofRanges ranges false
  rw [CharSet.contains, hnegated, Bool.bne_false, covers_ofRanges]
  by_cases hsmall : c.toNat < 128
  · have hc := hascii ⟨c.toNat, hsmall⟩
    rw [Char.ofNat_toNat] at hc
    exact hc
  · have hnone : coversCode ranges c.toNat = false := by
      rw [coversCode, List.any_eq_false]
      intro r hr
      have hbound := of_decide_eq_true (List.all_eq_true.mp hranges r hr)
      simp only [Bool.and_eq_true, decide_eq_true_eq]
      omega
    have hc : p c ≠ true := fun h => hsmall (hp c h)
    rw [hnone]
    simpa using hc.symm

end CharClass

end PegScript

/-!
# Binary fractions with the fewest digits

Numbers that are not integers are kept as binary fractions of 53 bits.  Such a fraction is written
with the fewest decimal digits that lead back to it, and of several equally short decimals with the
nearest one.
-/

namespace PegScript

namespace Shortest

/-- The integer nearest to `num / den`, the even one if two are. -/
def roundDiv (num den : Nat) : Nat :=
  let q := num / den
  let r := num % den
  if 2 * r < den then q
  else if den < 2 * r then q + 1
  else q + q % 2

/-- `num / den` divided by a power of `base`, as numerator and denominator. -/
def scale (base num den : Nat) (exponent : Int) : Nat × Nat :=
  if 0 ≤ exponent then (num, den * base.pow exponent.toNat)
  else (num * base.pow (-exponent).toNat, den)

/-- The number `mantissa * 2 ^ exponent`. -/
structure Binary where
  mantissa : Nat
  exponent : Int
deriving DecidableEq, Repr

/-- The number as numerator and denominator. -/
def Binary.toRatio (b : Binary) : Nat × Nat :=
  if 0 ≤ b.exponent then (b.mantissa * Nat.pow 2 b.exponent.toNat, 1)
  else (b.mantissa, Nat.pow 2 (-b.exponent).toNat)

/-- The exponent with which the mantissa of `num / den` has 53 bits, or the least exponent. -/
def binaryExponent (num den : Nat) : Int :=
  let low := max ((num.log2 : Int) - den.log2 - 53) (-1074)
  let (n, d) := scale 2 num den low
  if n / d < Nat.pow 2 53 then low else low + 1

/-- The binary fraction nearest to `num / den`. -/
def nearest (num den : Nat) : Binary :=
  let exponent := binaryExponent num den
  let (n, d) := scale 2 num den exponent
  let mantissa := roundDiv n d
  if mantissa < Nat.pow 2 53 then ⟨mantissa, exponent⟩ else ⟨mantissa / 2, exponent + 1⟩

/-- The number of decimal digits. -/
def digitCount (n : Nat) : Nat :=
  (Nat.toDigits 10 n).length

/-- The exponent of the first digit of `num / den`. -/
def decimalExponent (num den : Nat) : Int :=
  if den ≤ num then (digitCount (num / den) : Int) - 1
  else
    let count := digitCount (den / num)
    if den ≤ num * Nat.pow 10 (count - 1) then 1 - (count : Int) else -(count : Int)

/-- The nearest decimal with `count` digits that leads back to `b`, as `digits * 10 ^ exponent`. -/
def decimal? (b : Binary) (count : Nat) : Option (Nat × Int) :=
  let (num, den) := b.toRatio
  let exponent := decimalExponent num den + 1 - count
  let (n, d) := scale 10 num den exponent
  let leadsBack (digits : Nat) : Bool :=
    let (m, e) := scale 10 digits 1 (-exponent)
    nearest m e == b
  let low := n / d
  let ordered := if roundDiv n d = low then [low, low + 1] else [low + 1, low]
  (ordered.find? leadsBack).map fun digits => (digits, exponent)

/-- The digits of a decimal without zeros at the end, with the exponent of the last one. -/
def stripZeros (digits : List Char) (exponent : Int) : List Char × Int :=
  let rest := (digits.reverse.dropWhile (· == '0')).reverse
  (rest, exponent + (digits.length - rest.length : Nat))

/-- Digits with a point, or with an exponent where the point would be far off. -/
def layout (digits : List Char) (exponent : Int) : String :=
  let point := digits.length + exponent
  let zeros (n : Int) : List Char := List.replicate n.toNat '0'
  if 0 ≤ exponent ∧ point ≤ 16 then
    String.ofList (digits ++ zeros exponent) ++ ".0"
  else if 0 < point ∧ point ≤ 16 then
    String.ofList (digits.take point.toNat) ++ "." ++ String.ofList (digits.drop point.toNat)
  else if -5 < point ∧ point ≤ 0 then
    "0." ++ String.ofList (zeros (-point) ++ digits)
  else
    String.ofList (digits.take 1)
      ++ (if digits.length = 1 then "" else "." ++ String.ofList (digits.drop 1))
      ++ "e" ++ toString (point - 1)

/-- The written form of the binary fraction nearest to `num / den`. -/
def render (num den : Nat) : String :=
  let b := nearest num den
  if b.mantissa = 0 then "0.0"
  else
    match (List.range 17).findSome? fun i => decimal? b (i + 1) with
    | some (digits, exponent) =>
      let (digits, exponent) := stripZeros (Nat.toDigits 10 digits) exponent
      layout digits exponent
    | none => "0.0"

end Shortest

end PegScript

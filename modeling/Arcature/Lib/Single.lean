import Arcature.Lib.Decimal

/-! Singles, by their sign and the bits below it, as Rust's `f32` has them.

    A single has 23 bits of fraction. Every finite one is a whole number of units of 2⁻¹⁴⁹, so a product is
    exact before it is rounded:

        0.251            read      0x3e808312    0.25099998712539673
        0.251 * 1000     rounded   0x437affff    250.9999847412109375

    A decimal is read as what it says, digits over a power of ten, and then rounded to the nearest single. -/

namespace Arcature.Lib

/-- What a decimal number without a sign says: digits, over a power of ten or times one. -/
def parseDecimal (s : Str) : Option (ℕ × ℕ) :=
  let mantissa := s.takeWhile fun c => c ≠ 'e' ∧ c ≠ 'E'
  let whole := mantissa.takeWhile (· ≠ '.')
  let fraction := (mantissa.dropWhile (· ≠ '.')).tail
  let (negative, digits) := splitSign (s.drop (mantissa.length + 1))
  if (whole = [] ∧ fraction = []) ∨ ¬ (whole ++ fraction).all Char.isDigit ∨
      (mantissa.length < s.length ∧ (digits = [] ∨ ¬ digits.all Char.isDigit)) then none
  else
    let exponent := signedValue negative digits - fraction.length
    some (digitsValue (whole ++ fraction) * 10 ^ exponent.toNat, 10 ^ (-exponent).toNat)

/-- A double is read by the same grammar. -/
theorem parseMagnitude_eq (s : Str) : parseMagnitude s = (parseDecimal s).map fun (p, q) => nearestDouble p q := by
  rw [parseMagnitude, parseDecimal]
  dsimp only
  split_ifs <;> rfl

/-- The bits of the infinite single. -/
def singleInfinity : ℕ := 0x7f800000

/-- The bits of the single nearest to `p / q`, the even one of two. -/
def nearestSingle (p q : ℕ) : ℕ :=
  if p = 0 then 0
  else
    -- the largest power of two that is not above the quotient, or that of the least normal number
    let guess : ℤ := Nat.log2 p - Nat.log2 q
    let exponent := max (-126) (if p * 2 ^ (-guess).toNat < q * 2 ^ guess.toNat then guess - 1 else guess)
    let num := p * 2 ^ (23 - exponent).toNat
    let den := q * 2 ^ (exponent - 23).toNat
    let down := num / den
    let rounded := if den < 2 * (num % den) ∨ (2 * (num % den) = den ∧ down % 2 = 1) then down + 1 else down
    min singleInfinity ((exponent + 126).toNat * 2 ^ 23 + rounded)

/-- The value of the bits below the sign, in units of 2⁻¹⁴⁹. -/
def singleUnits (n : ℕ) : ℕ := (n - (n / 2 ^ 23 - 1) * 2 ^ 23) * 2 ^ (n / 2 ^ 23 - 1)

/-- A single. -/
structure F32 where
  negative : Bool
  magnitude : ℕ
  deriving DecidableEq

namespace F32

/-- A whole number as a literal. -/
def ofNat (n : ℕ) : F32 := ⟨false, nearestSingle n 1⟩

/-- `f32::NAN`. -/
def nan : F32 := ⟨false, singleInfinity + 2 ^ 22⟩

def isNaN (x : F32) : Bool := singleInfinity < x.magnitude

def isFinite (x : F32) : Bool := x.magnitude < singleInfinity

/-- The place in the order of the numbers: one for both zeros. -/
def rank (x : F32) : ℤ := if x.negative then -x.magnitude else x.magnitude

/-- `<=`. -/
def le (x y : F32) : Bool := !x.isNaN && !y.isNaN && x.rank ≤ y.rank

/-- `*`: the exact product, rounded. -/
def mul (x y : F32) : F32 :=
  let negative := x.negative != y.negative
  if x.isNaN || y.isNaN then nan
  else if x.isFinite && y.isFinite then
    ⟨negative, nearestSingle (singleUnits x.magnitude * singleUnits y.magnitude) (2 ^ 298)⟩
  else if x.magnitude = 0 || y.magnitude = 0 then nan
  else ⟨negative, singleInfinity⟩

/-- `as u16`: without the fraction, and what is out of range becomes the nearest end of it. -/
def toU16 (x : F32) : ℕ :=
  if x.isNaN || x.negative then 0 else min (2 ^ 16 - 1) (singleUnits x.magnitude / 2 ^ 149)

/-- `f32::from_str`. -/
def parse (s : Str) : Option F32 :=
  let (negative, magnitude) := splitSign s
  let named := magnitude.map Char.toLower
  if named = "inf".toList ∨ named = "infinity".toList then some ⟨negative, singleInfinity⟩
  else if named = "nan".toList then some ⟨negative, singleInfinity + 2 ^ 22⟩
  else (parseDecimal magnitude).map fun (p, q) => ⟨negative, nearestSingle p q⟩

end F32

end Arcature.Lib

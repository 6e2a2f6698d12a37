import Arcature.Lib.Text

/-! Numbers read from decimal text, as the standard library of Rust reads them.

    An integer is read exactly or not at all. A floating-point number is the double nearest to what
    the text says, and of two that are equally near the even one:

        0.1      0x3fb999999999999a
        1e400    infinity -/

namespace Arcature.Lib

/-- The value of decimal digits. -/
def digitsValue (s : Str) : ℕ := s.foldl (fun n c => 10 * n + (c.toNat - '0'.toNat)) 0

/-- A sign, if there is one: whether it is a minus, and what follows. -/
def splitSign : Str → Bool × Str
  | '-' :: s => (true, s)
  | '+' :: s => (false, s)
  | s => (false, s)

/-- The value of digits after a sign. -/
def signedValue (negative : Bool) (digits : Str) : ℤ :=
  if negative then -(digitsValue digits) else digitsValue digits

/-- `i64::from_str`. -/
def parseI64 (s : Str) : Option ℤ :=
  let (negative, digits) := splitSign s
  let value := signedValue negative digits
  if digits ≠ [] ∧ digits.all Char.isDigit ∧ -2 ^ 63 ≤ value ∧ value < 2 ^ 63 then some value else none

/-- `from_str` of an unsigned integer below a bound. A plus is allowed, and no minus. -/
def parseUnsigned (bound : ℕ) (s : Str) : Option ℕ :=
  let digits := match s with
    | '+' :: rest => rest
    | _ => s
  if digits ≠ [] ∧ digits.all Char.isDigit ∧ digitsValue digits < bound then some (digitsValue digits) else none

/-- The bits of infinity. -/
def infinityBits : ℕ := 0x7ff0000000000000

/-- The bits of the double nearest to `p / q`. -/
def nearestDouble (p q : ℕ) : ℕ :=
  if p = 0 then 0
  else
    -- the largest power of two that is not above the quotient, or that of the least normal number
    let guess : ℤ := Nat.log2 p - Nat.log2 q
    let exponent := max (-1022) (if p * 2 ^ (-guess).toNat < q * 2 ^ guess.toNat then guess - 1 else guess)
    let num := p * 2 ^ (52 - exponent).toNat
    let den := q * 2 ^ (exponent - 52).toNat
    let down := num / den
    let rounded := if den < 2 * (num % den) ∨ (2 * (num % den) = den ∧ down % 2 = 1) then down + 1 else down
    min infinityBits ((exponent + 1022).toNat * 2 ^ 52 + rounded)

/-- The bits of a decimal number without a sign: digits, a point and an exponent. -/
def parseMagnitude (s : Str) : Option ℕ :=
  let mantissa := s.takeWhile fun c => c ≠ 'e' ∧ c ≠ 'E'
  let whole := mantissa.takeWhile (· ≠ '.')
  let fraction := (mantissa.dropWhile (· ≠ '.')).tail
  let (negative, digits) := splitSign (s.drop (mantissa.length + 1))
  if (whole = [] ∧ fraction = []) ∨ ¬ (whole ++ fraction).all Char.isDigit ∨
      (mantissa.length < s.length ∧ (digits = [] ∨ ¬ digits.all Char.isDigit)) then none
  else
    let exponent := signedValue negative digits - fraction.length
    some (nearestDouble (digitsValue (whole ++ fraction) * 10 ^ exponent.toNat) (10 ^ (-exponent).toNat))

/-- `f64::from_str`: the bits of the number. -/
def parseF64 (s : Str) : Option UInt64 :=
  let (negative, magnitude) := splitSign s
  let named := magnitude.map Char.toLower
  let bits :=
    if named = "inf".toList ∨ named = "infinity".toList then some infinityBits
    else if named = "nan".toList then some (infinityBits + 2 ^ 51)
    else parseMagnitude magnitude
  bits.map fun n => UInt64.ofNat (if negative then n + 2 ^ 63 else n)

end Arcature.Lib

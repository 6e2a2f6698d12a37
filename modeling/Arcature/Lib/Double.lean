import Arcature.Lib.Decimal
import Mathlib.Data.List.TakeWhile
import Mathlib.Tactic

/-! Doubles, as their bits, with the arithmetic and the decimal text of Rust's `f64`.

    The bits below the sign grow with the number. Every finite one is a multiple of the least, so its
    value is a whole number of units of 2⁻¹⁰⁷⁴:

        sign | exponent (11) | fraction (52)
                      0            m           m units
                      e         m - 2⁵²        m · 2ᵉ⁻¹ units

    A double is displayed by the shortest decimal that is read as it, and there always is one: the
    exact value has 1074 places at most (`F64.parse_display`). -/

namespace Arcature.Lib

/-- A double, by its bits. -/
structure F64 where
  bits : UInt64
  deriving DecidableEq

/-- The value of the bits below the sign, in units of 2⁻¹⁰⁷⁴. -/
def doubleUnits (n : ℕ) : ℕ := (n - (n / 2 ^ 52 - 1) * 2 ^ 52) * 2 ^ (n / 2 ^ 52 - 1)

namespace F64

/-- The sign bit. -/
def negative (x : F64) : Bool := 2 ^ 63 ≤ x.bits.toNat

/-- The bits below the sign. -/
def magnitude (x : F64) : ℕ := x.bits.toNat % 2 ^ 63

/-- The double of a sign and a magnitude. -/
def ofParts (negative : Bool) (magnitude : ℕ) : F64 :=
  ⟨UInt64.ofNat (if negative then magnitude + 2 ^ 63 else magnitude)⟩

/-- `f64::NAN`. -/
def nan : F64 := ofParts false (infinityBits + 2 ^ 51)

/-- `0.0`. -/
def zero : F64 := ofParts false 0

/-- A whole number as a literal. -/
def ofNat (n : ℕ) : F64 := ofParts false (nearestDouble n 1)

def isNaN (x : F64) : Bool := infinityBits < x.magnitude

def isFinite (x : F64) : Bool := x.magnitude < infinityBits

/-- The place in the order of the numbers: one for both zeros. -/
def rank (x : F64) : ℤ := if x.negative then -x.magnitude else x.magnitude

/-- `==`. -/
def eq (x y : F64) : Bool := !x.isNaN && !y.isNaN && x.rank = y.rank

/-- `<=`. -/
def le (x y : F64) : Bool := !x.isNaN && !y.isNaN && x.rank ≤ y.rank

/-- `<`. -/
def lt (x y : F64) : Bool := !x.isNaN && !y.isNaN && x.rank < y.rank

/-- `partial_cmp`. -/
def partialCmp (x y : F64) : Option Ordering :=
  if x.isNaN || y.isNaN then none else some (compare x.rank y.rank)

def abs (x : F64) : F64 := ofParts false x.magnitude

/-- The value of a finite double, in units of 2⁻¹⁰⁷⁴. -/
def units (x : F64) : ℤ := if x.negative then -doubleUnits x.magnitude else doubleUnits x.magnitude

/-- `+`: the exact sum, rounded. -/
def add (x y : F64) : F64 :=
  if x.isNaN || y.isNaN then nan
  else if x.isFinite && y.isFinite then
    let sum := x.units + y.units
    -- a sum of zero is negative only if both are
    ofParts (if sum = 0 then x.negative && y.negative else sum < 0) (nearestDouble sum.natAbs (2 ^ 1074))
  else if x.isFinite then y
  else if y.isFinite || x.negative = y.negative then x
  else nan

/-- The whole part, without its sign. -/
def whole (x : F64) : ℕ := doubleUnits x.magnitude / 2 ^ 1074

def trunc (x : F64) : F64 := if x.isFinite then ofParts x.negative (nearestDouble x.whole 1) else x

/-- `as i64`: what is out of range becomes the nearest end of it. -/
def toI64 (x : F64) : ℤ :=
  if x.isNaN then 0 else max (-2 ^ 63) (min (2 ^ 63 - 1) (if x.negative then -x.whole else x.whole))

end F64

/-- The text of an integer. -/
def intText (k : ℤ) : Str := if k < 0 then '-' :: Nat.toDigits 10 k.natAbs else Nat.toDigits 10 k.natAbs

/-- The text of `d` with a point before its last `places` digits, or with that many zeros less than none. -/
def decimalText (d : ℕ) (places : ℤ) : Str :=
  if places ≤ 0 then Nat.toDigits 10 (d * 10 ^ (-places).toNat)
  else
    let unit := 10 ^ places.toNat
    Nat.toDigits 10 (d / unit) ++ '.' :: (Nat.toDigits 10 (d % unit)).leftpad places.toNat '0'

/-- The two decimals with so many places around a magnitude, the nearer one first. -/
def decimalsAround (n : ℕ) (places : ℤ) : List Str :=
  let num := doubleUnits n * 10 ^ places.toNat
  let den := 2 ^ 1074 * 10 ^ (-places).toNat
  let down := num / den
  (if 2 * (num % den) < den then [down, down + 1] else [down + 1, down]).map (decimalText · places)

/-- The decimals a magnitude can be displayed by, the shortest first. -/
def displayCandidates (n : ℕ) : List Str := (List.range 1383).flatMap fun i : ℕ => decimalsAround n ((i : ℤ) - 308)

/-- The shortest decimal that is read as a magnitude. -/
def displayMagnitude (n : ℕ) : Str := ((displayCandidates n).find? (parseMagnitude · = some n)).getD []

/-- `Display`. -/
def F64.display (x : F64) : Str :=
  if x.isNaN then "NaN".toList
  else
    let text := if x.isFinite then displayMagnitude x.magnitude else "inf".toList
    if x.negative then '-' :: text else text

/-! ### What is exact is kept -/

theorem two_zpow_eq (g : ℤ) : (2 : ℚ) ^ g = 2 ^ g.toNat / 2 ^ (-g).toNat := by
  rcases le_total 0 g with hg | hg
  · obtain ⟨k, rfl⟩ := Int.eq_ofNat_of_zero_le hg
    simp
  · obtain ⟨k, hk⟩ := Int.exists_eq_neg_ofNat hg
    subst hk
    simp

/-- The power of two below a quotient. -/
theorem two_zpow_le_quotient {p q : ℕ} (hp : 0 < p) (hq : 0 < q) :
    let guess : ℤ := Nat.log2 p - Nat.log2 q
    let exponent := if p * 2 ^ (-guess).toNat < q * 2 ^ guess.toNat then guess - 1 else guess
    (2 : ℚ) ^ exponent ≤ p / q ∧ (p / q : ℚ) < 2 ^ (exponent + 1) := by
  intro guess exponent
  have hq' : (0 : ℚ) < q := by exact_mod_cast hq
  have hplow : (2 : ℚ) ^ p.log2 ≤ p := by exact_mod_cast Nat.log2_self_le hp.ne'
  have hphigh : (p : ℚ) < 2 ^ (p.log2 + 1) := by exact_mod_cast Nat.lt_log2_self
  have hqlow : (2 : ℚ) ^ q.log2 ≤ q := by exact_mod_cast Nat.log2_self_le hq.ne'
  have hqhigh : (q : ℚ) < 2 ^ (q.log2 + 1) := by exact_mod_cast Nat.lt_log2_self
  have hbelow : (2 : ℚ) ^ (guess - 1) ≤ p / q := by
    have hsplit : (2 : ℚ) ^ (guess - 1) = 2 ^ p.log2 / 2 ^ (q.log2 + 1) := by
      rw [← zpow_natCast, ← zpow_natCast, ← zpow_sub₀ two_ne_zero]
      congr 1
      push_cast
      ring
    rw [hsplit, div_le_div_iff₀ (by positivity) hq']
    exact mul_le_mul hplow hqhigh.le hq'.le (by positivity)
  have habove : (p / q : ℚ) < 2 ^ (guess + 1) := by
    have hsplit : (2 : ℚ) ^ (guess + 1) = 2 ^ (p.log2 + 1) / 2 ^ q.log2 := by
      rw [← zpow_natCast, ← zpow_natCast, ← zpow_sub₀ two_ne_zero]
      congr 1
      push_cast
      ring
    rw [hsplit, div_lt_div_iff₀ hq' (by positivity)]
    exact mul_lt_mul hphigh hqlow (by positivity) (by positivity)
  have hcompare : p * 2 ^ (-guess).toNat < q * 2 ^ guess.toNat ↔ (p / q : ℚ) < 2 ^ guess := by
    rw [two_zpow_eq, div_lt_div_iff₀ hq' (by positivity), mul_comm _ (q : ℚ)]
    exact_mod_cast Iff.rfl
  by_cases hless : p * 2 ^ (-guess).toNat < q * 2 ^ guess.toNat
  · have hexp : exponent = guess - 1 := if_pos hless
    rw [hexp, sub_add_cancel]
    exact ⟨hbelow, hcompare.mp hless⟩
  · have hexp : exponent = guess := if_neg hless
    rw [hexp]
    exact ⟨not_lt.mp (mt hcompare.mpr hless), habove⟩

/-- What rounds to `e` and `m` is what has that significand after the scaling. -/
theorem nearestDouble_of_scaled {p q m : ℕ} {e : ℕ} (hp : p ≠ 0) (hq : 0 < q)
    (hvalue : (p / q : ℚ) = m * 2 ^ ((e : ℤ) - 1074)) (hm : m < 2 ^ 53) (hnormal : e = 0 ∨ 2 ^ 52 ≤ m)
    (hfinite : e * 2 ^ 52 + m ≤ infinityBits) : nearestDouble p q = e * 2 ^ 52 + m := by
  obtain ⟨hlow, hhigh⟩ := two_zpow_le_quotient (Nat.pos_of_ne_zero hp) hq
  rw [nearestDouble, if_neg hp]
  dsimp only at hlow hhigh ⊢
  generalize (if p * 2 ^ (-((Nat.log2 p : ℤ) - Nat.log2 q)).toNat < q * 2 ^ ((Nat.log2 p : ℤ) - Nat.log2 q).toNat
    then (Nat.log2 p : ℤ) - Nat.log2 q - 1 else (Nat.log2 p : ℤ) - Nat.log2 q) = L at hlow hhigh ⊢
  rw [hvalue] at hlow hhigh
  have hpow : (0 : ℚ) < 2 ^ ((e : ℤ) - 1074) := by positivity
  have hupper : (m : ℚ) * 2 ^ ((e : ℤ) - 1074) < 2 ^ ((e : ℤ) - 1021) := by
    have hm' : (m : ℚ) < 2 ^ (53 : ℤ) := by exact_mod_cast hm
    calc (m : ℚ) * 2 ^ ((e : ℤ) - 1074) < 2 ^ (53 : ℤ) * 2 ^ ((e : ℤ) - 1074) := mul_lt_mul_of_pos_right hm' hpow
      _ = 2 ^ ((e : ℤ) - 1021) := by
        rw [← zpow_add₀ two_ne_zero]
        congr 1
        ring
  have hL : L < (e : ℤ) - 1021 := (zpow_lt_zpow_iff_right₀ one_lt_two).mp (hlow.trans_lt hupper)
  have hexp : max (-1022) L = (e : ℤ) - 1022 := by
    rcases hnormal with rfl | hnormal
    · simp only [Nat.cast_zero, zero_sub] at hL ⊢
      omega
    · have hlower : (2 : ℚ) ^ ((e : ℤ) - 1022) ≤ m * 2 ^ ((e : ℤ) - 1074) := by
        have hm' : (2 : ℚ) ^ (52 : ℤ) ≤ m := by exact_mod_cast hnormal
        calc (2 : ℚ) ^ ((e : ℤ) - 1022) = 2 ^ (52 : ℤ) * 2 ^ ((e : ℤ) - 1074) := by
              rw [← zpow_add₀ two_ne_zero]
              congr 1
              ring
          _ ≤ m * 2 ^ ((e : ℤ) - 1074) := mul_le_mul_of_nonneg_right hm' hpow.le
      have := (zpow_lt_zpow_iff_right₀ one_lt_two).mp (hlower.trans_lt hhigh)
      omega
  rw [hexp]
  have hscaled : p * 2 ^ (52 - ((e : ℤ) - 1022)).toNat = m * (q * 2 ^ ((e : ℤ) - 1022 - 52).toNat) := by
    have hzpow := two_zpow_eq ((e : ℤ) - 1074)
    have hq' : (q : ℚ) ≠ 0 := by exact_mod_cast hq.ne'
    rw [hzpow, div_eq_iff hq'] at hvalue
    have hleft : 52 - ((e : ℤ) - 1022) = -((e : ℤ) - 1074) := by ring
    have hright : (e : ℤ) - 1022 - 52 = (e : ℤ) - 1074 := by ring
    rw [hleft, hright]
    have hcast : (p : ℚ) * 2 ^ (-((e : ℤ) - 1074)).toNat = m * (q * 2 ^ ((e : ℤ) - 1074).toNat) := by
      rw [hvalue]
      field_simp
    exact_mod_cast hcast
  have hden : 0 < q * 2 ^ ((e : ℤ) - 1022 - 52).toNat := by positivity
  rw [hscaled, Nat.mul_mod_left, Nat.mul_div_cancel _ hden, mul_zero, if_neg (by omega)]
  have htoNat : ((e : ℤ) - 1022 + 1022).toNat = e := by omega
  rw [htoNat, min_eq_right hfinite]

/-- The bits of a finite magnitude, taken apart. -/
theorem exists_significand (n : ℕ) :
    ∃ e m, n = e * 2 ^ 52 + m ∧ m < 2 ^ 53 ∧ (e = 0 ∨ 2 ^ 52 ≤ m) ∧ doubleUnits n = m * 2 ^ e := by
  refine ⟨n / 2 ^ 52 - 1, n - (n / 2 ^ 52 - 1) * 2 ^ 52, ?_, ?_, ?_, rfl⟩
  · omega
  · omega
  · omega

theorem quotient_eq_mul_two_zpow {p q m e k : ℕ} (hq : 0 < q) (h : p * 2 ^ k = m * 2 ^ e * q) :
    (p / q : ℚ) = m * 2 ^ ((e : ℤ) - k) := by
  have hq' : (q : ℚ) ≠ 0 := by exact_mod_cast hq.ne'
  have hcast : (p : ℚ) * 2 ^ k = m * 2 ^ e * q := by exact_mod_cast h
  rw [zpow_sub₀ two_ne_zero, zpow_natCast, zpow_natCast, ← mul_div_assoc, div_eq_div_iff hq' (by positivity), hcast]

/-- What is the value of a double is rounded to it. -/
theorem nearestDouble_exact {n p q : ℕ} (hn : n < infinityBits) (hq : 0 < q)
    (h : p * 2 ^ 1074 = doubleUnits n * q) : nearestDouble p q = n := by
  obtain ⟨e, m, rfl, hm, hnormal, hunits⟩ := exists_significand n
  rw [hunits] at h
  have hvalue := quotient_eq_mul_two_zpow hq h
  rcases Nat.eq_zero_or_pos p with rfl | hp
  · have hm0 : m = 0 := by
      generalize 2 ^ 1074 = scale at h
      rw [zero_mul] at h
      rcases Nat.mul_eq_zero.mp h.symm with h | h
      · exact (Nat.mul_eq_zero.mp h).resolve_right (by positivity)
      · exact absurd h hq.ne'
    have he : e = 0 := hnormal.resolve_right (by omega)
    rw [hm0, he, nearestDouble, if_pos rfl, zero_mul]
  · exact nearestDouble_of_scaled hp.ne' hq hvalue hm hnormal hn.le

/-! ### What is written is read -/

theorem digitsValue_toDigits (n : ℕ) : digitsValue (Nat.toDigits 10 n) = n := Nat.ofDigitChars_ten_toDigits

theorem all_isDigit_toDigits (n : ℕ) : (Nat.toDigits 10 n).all Char.isDigit :=
  List.all_eq_true.mpr fun _ hc => Nat.isDigit_of_mem_toDigits (by decide) le_rfl hc

theorem digitsValue_append (s t : Str) : digitsValue (s ++ t) = 10 ^ t.length * digitsValue s + digitsValue t := by
  have happend : digitsValue (s ++ t) = Nat.ofDigitChars 10 t (digitsValue s) := Nat.ofDigitChars_append 0
  rw [happend, Nat.ofDigitChars_eq_ofDigitChars_zero]
  rfl

theorem not_isDigit_of_mem {c : Char} (h : c ∈ ['e', 'E', '.', '-', '+']) : c.isDigit = false := by
  fin_cases h <;> rfl

theorem ne_of_all_isDigit {s : Str} (hs : s.all Char.isDigit) {d : Char} (hd : d ∈ ['e', 'E', '.', '-', '+']) :
    ∀ c ∈ s, c ≠ d := by
  rintro c hc rfl
  have hdigit := List.all_eq_true.mp hs c hc
  rw [not_isDigit_of_mem hd] at hdigit
  cases hdigit

/-- Digits and a point, without an exponent. -/
theorem parseMagnitude_point {whole fraction : Str} (hwhole : whole.all Char.isDigit) (hne : whole ≠ [])
    (hfraction : fraction.all Char.isDigit) :
    parseMagnitude (whole ++ '.' :: fraction) =
      some (nearestDouble (digitsValue (whole ++ fraction)) (10 ^ fraction.length)) := by
  have hmantissa : (whole ++ '.' :: fraction).takeWhile (fun c => c ≠ 'e' ∧ c ≠ 'E') = whole ++ '.' :: fraction := by
    refine List.takeWhile_eq_self_iff.mpr fun c hc => decide_eq_true ?_
    rw [List.mem_append, List.mem_cons] at hc
    rcases hc with hc | rfl | hc
    · exact ⟨ne_of_all_isDigit hwhole (by decide) c hc, ne_of_all_isDigit hwhole (by decide) c hc⟩
    · decide
    · exact ⟨ne_of_all_isDigit hfraction (by decide) c hc, ne_of_all_isDigit hfraction (by decide) c hc⟩
  have hpoint : ∀ c ∈ whole, decide (c ≠ '.') = true := fun c hc =>
    decide_eq_true (ne_of_all_isDigit hwhole (by decide) c hc)
  have htake : (whole ++ '.' :: fraction).takeWhile (· ≠ '.') = whole := by
    rw [List.takeWhile_append_of_pos hpoint, List.takeWhile_cons_of_neg (by decide), List.append_nil]
  have hdrop : (whole ++ '.' :: fraction).dropWhile (· ≠ '.') = '.' :: fraction := by
    rw [List.dropWhile_append_of_pos hpoint, List.dropWhile_cons_of_neg (by decide)]
  rw [parseMagnitude, hmantissa, htake, hdrop, List.drop_eq_nil_of_le (by omega)]
  simp [hne, hwhole, hfraction, splitSign, signedValue, digitsValue]

/-- Digits alone. -/
theorem parseMagnitude_digits {s : Str} (hs : s.all Char.isDigit) (hne : s ≠ []) :
    parseMagnitude s = some (nearestDouble (digitsValue s) 1) := by
  have hmantissa : s.takeWhile (fun c => c ≠ 'e' ∧ c ≠ 'E') = s := by
    refine List.takeWhile_eq_self_iff.mpr fun c hc => decide_eq_true ?_
    exact ⟨ne_of_all_isDigit hs (by decide) c hc, ne_of_all_isDigit hs (by decide) c hc⟩
  have hpoint : ∀ c ∈ s, decide (c ≠ '.') = true := fun c hc =>
    decide_eq_true (ne_of_all_isDigit hs (by decide) c hc)
  have htake : s.takeWhile (· ≠ '.') = s := List.takeWhile_eq_self_iff.mpr hpoint
  have hdrop : s.dropWhile (· ≠ '.') = [] := List.dropWhile_eq_nil_iff.mpr hpoint
  rw [parseMagnitude, hmantissa, htake, hdrop, List.drop_eq_nil_of_le (by omega)]
  simp [hne, hs, splitSign, signedValue, digitsValue]

theorem digitsValue_replicate_zero (k : ℕ) : digitsValue (List.replicate k '0') = 0 := by
  have hzero : digitsValue (List.replicate k '0') = 10 ^ k * 0 := Nat.ofDigitChars_replicate_zero
  rw [hzero, mul_zero]

theorem digitsValue_leftpad (k n : ℕ) : digitsValue ((Nat.toDigits 10 n).leftpad k '0') = n := by
  rw [List.leftpad, digitsValue_append, digitsValue_replicate_zero, mul_zero, zero_add, digitsValue_toDigits]

theorem length_leftpad_toDigits {k n : ℕ} (hk : 0 < k) (hn : n < 10 ^ k) :
    ((Nat.toDigits 10 n).leftpad k '0').length = k := by
  have hlength := (Nat.length_toDigits_le_iff (by decide) hk).mpr hn
  rw [List.length_leftpad, max_eq_left hlength]

theorem all_isDigit_leftpad (k n : ℕ) : ((Nat.toDigits 10 n).leftpad k '0').all Char.isDigit := by
  rw [List.leftpad, List.all_append, all_isDigit_toDigits, Bool.and_true]
  simp

/-- A decimal with places is the quotient it stands for. -/
theorem parseMagnitude_decimalText (d : ℕ) {places : ℕ} (hplaces : 0 < places) :
    parseMagnitude (decimalText d places) = some (nearestDouble d (10 ^ places)) := by
  have hlength := length_leftpad_toDigits hplaces (Nat.mod_lt d (by positivity : 0 < 10 ^ places))
  rw [decimalText, if_neg (by omega)]
  dsimp only
  rw [Int.toNat_natCast, parseMagnitude_point (all_isDigit_toDigits _) Nat.toDigits_ne_nil (all_isDigit_leftpad _ _),
    digitsValue_append, digitsValue_leftpad, digitsValue_toDigits, hlength, Nat.div_add_mod]

theorem decimalText_mem_decimalsAround (n : ℕ) (places : ℤ) :
    decimalText (doubleUnits n * 10 ^ places.toNat / (2 ^ 1074 * 10 ^ (-places).toNat)) places ∈ decimalsAround n places := by
  rw [decimalsAround]
  split
  · exact List.mem_cons_self
  · exact List.mem_cons_of_mem _ List.mem_cons_self

theorem mul_ten_pow_div (u k : ℕ) : u * 10 ^ k / (2 ^ k * 10 ^ 0) = u * 5 ^ k := by
  have hten : 10 ^ k = 2 ^ k * 5 ^ k := by rw [← mul_pow]; rfl
  rw [pow_zero, mul_one, hten, Nat.mul_left_comm, Nat.mul_div_cancel_left _ (by positivity)]

theorem mem_displayCandidates {n i : ℕ} (hi : i < 1383) {t : Str} (ht : t ∈ decimalsAround n (i - 308)) :
    t ∈ displayCandidates n := List.mem_flatMap.mpr ⟨i, List.mem_range.mpr hi, ht⟩

/-- The exact value of a double is among the decimals it can be displayed by. -/
theorem exact_mem_displayCandidates (n : ℕ) :
    decimalText (doubleUnits n * 5 ^ 1074) (1074 : ℕ) ∈ displayCandidates n := by
  have hmem := decimalText_mem_decimalsAround n (1074 : ℕ)
  rw [Int.toNat_natCast, Int.toNat_neg_natCast, mul_ten_pow_div] at hmem
  have hplaces : ((1382 : ℕ) : ℤ) - 308 = (1074 : ℕ) := by norm_num
  rw [← hplaces] at hmem ⊢
  exact mem_displayCandidates (by norm_num) hmem

theorem find?_getD {α : Type*} {l : List α} {p : α → Bool} (h : ∃ a ∈ l, p a) (d : α) :
    (l.find? p).getD d ∈ l ∧ p ((l.find? p).getD d) := by
  obtain ⟨a, ha⟩ := Option.isSome_iff_exists.mp (List.find?_isSome.mpr h)
  rw [ha, Option.getD_some]
  exact ⟨List.mem_of_find?_eq_some ha, List.find?_some ha⟩

/-- A double is displayed by a decimal that is read as it. -/
theorem parseMagnitude_displayMagnitude {n : ℕ} (hn : n < infinityBits) :
    displayMagnitude n ∈ displayCandidates n ∧ parseMagnitude (displayMagnitude n) = some n := by
  have hexact : parseMagnitude (decimalText (doubleUnits n * 5 ^ 1074) (1074 : ℕ)) = some n := by
    rw [parseMagnitude_decimalText _ (by norm_num), nearestDouble_exact hn (by positivity)]
    rw [mul_assoc, ← mul_pow]
    norm_num only
  have hfound : ∃ t ∈ displayCandidates n, decide (parseMagnitude t = some n) :=
    ⟨_, exact_mem_displayCandidates n, decide_eq_true hexact⟩
  have hread := find?_getD hfound []
  exact ⟨hread.1, of_decide_eq_true hread.2⟩

/-! ### Doubles by sign and magnitude -/

theorem nearestDouble_le (p q : ℕ) : nearestDouble p q ≤ infinityBits := by
  unfold nearestDouble
  split
  · exact Nat.zero_le _
  · exact min_le_left _ _

namespace F64

theorem magnitude_lt (x : F64) : x.magnitude < 2 ^ 63 := Nat.mod_lt _ (by norm_num)

theorem toNat_bits_ofParts {negative : Bool} {magnitude : ℕ} (h : magnitude < 2 ^ 63) :
    (ofParts negative magnitude).bits.toNat = if negative then magnitude + 2 ^ 63 else magnitude := by
  rw [ofParts, UInt64.toNat_ofNat']
  split
  · exact Nat.mod_eq_of_lt (by omega)
  · exact Nat.mod_eq_of_lt (by omega)

theorem negative_ofParts {negative : Bool} {magnitude : ℕ} (h : magnitude < 2 ^ 63) :
    (ofParts negative magnitude).negative = negative := by
  rw [F64.negative, toNat_bits_ofParts h]
  cases negative
  · simpa using h
  · simp

theorem magnitude_ofParts {negative : Bool} {magnitude : ℕ} (h : magnitude < 2 ^ 63) :
    (ofParts negative magnitude).magnitude = magnitude := by
  rw [F64.magnitude, toNat_bits_ofParts h]
  cases negative
  · simpa using Nat.mod_eq_of_lt h
  · simpa using Nat.mod_eq_of_lt h

theorem ofParts_eta (x : F64) : ofParts x.negative x.magnitude = x := by
  have hlt := x.bits.toNat_lt
  have hbits : (if x.negative then x.magnitude + 2 ^ 63 else x.magnitude) = x.bits.toNat := by
    rw [F64.negative, F64.magnitude]
    split
    · rename_i h
      rw [decide_eq_true_eq] at h
      omega
    · rename_i h
      rw [decide_eq_true_eq] at h
      omega
  rw [ofParts, hbits, UInt64.ofNat_toNat]

/-- `f64::from_str`. -/
def parse (s : Str) : Option F64 := (parseF64 s).map F64.mk

/-- Whether two doubles are one number, or none. -/
def Same (x y : F64) : Prop := x.eq y ∨ x.isNaN ∧ y.isNaN

theorem Same.refl (x : F64) : x.Same x := by
  rcases hnan : x.isNaN with _ | _
  · exact .inl (by simp [eq, hnan])
  · exact .inr ⟨hnan, hnan⟩

theorem toLower_ne_of_isDigit {c d : Char} (hc : c.isDigit) (hd : d ∈ ['i', 'n']) : c.toLower ≠ d := by
  have hlower : c.toLower = c := by
    rw [Char.isDigit, Bool.and_eq_true, decide_eq_true_eq, decide_eq_true_eq] at hc
    have hlow := UInt32.le_iff_toNat_le.mp hc.2
    unfold Char.toLower
    rw [dif_neg]
    rintro ⟨h, -⟩
    have hhigh := UInt32.le_iff_toNat_le.mp h
    exact absurd (hhigh.trans hlow) (by decide)
  rw [hlower]
  rintro rfl
  fin_cases hd <;> exact absurd hc (by decide)

/-- A text that begins with a digit is read as its magnitude. -/
theorem parse_of_digit {c : Char} {s : Str} (hc : c.isDigit) {n : ℕ} (h : parseMagnitude (c :: s) = some n) :
    parse (c :: s) = some (ofParts false n) ∧ parse ('-' :: c :: s) = some (ofParts true n) := by
  have hnamed : ∀ word : Str, word.head?.any (· ∈ ['i', 'n']) → (c :: s).map Char.toLower ≠ word := by
    rintro word hword rfl
    rw [List.map_cons, List.head?_cons, Option.any_some, decide_eq_true_eq] at hword
    exact toLower_ne_of_isDigit hc hword rfl
  have hsign : splitSign (c :: s) = (false, c :: s) := by
    have hminus : c ≠ '-' := by
      rintro rfl
      exact absurd hc (by decide)
    have hplus : c ≠ '+' := by
      rintro rfl
      exact absurd hc (by decide)
    rw [splitSign]
    · simp [hminus]
    · simp [hplus]
  have hbits :
      (if (c :: s).map Char.toLower = "inf".toList ∨ (c :: s).map Char.toLower = "infinity".toList then some infinityBits
        else if (c :: s).map Char.toLower = "nan".toList then some (infinityBits + 2 ^ 51)
        else parseMagnitude (c :: s)) = some n := by
    rw [if_neg (not_or.mpr ⟨hnamed _ (by decide), hnamed _ (by decide)⟩), if_neg (hnamed _ (by decide)), h]
  constructor
  · rw [parse, parseF64, hsign]
    dsimp only
    rw [hbits]
    rfl
  · rw [parse, parseF64, splitSign]
    dsimp only
    rw [hbits]
    rfl

end F64

theorem exists_digit_toDigits (n : ℕ) : ∃ c s, Nat.toDigits 10 n = c :: s ∧ c.isDigit := by
  obtain ⟨c, s, hcs⟩ := List.exists_cons_of_ne_nil (@Nat.toDigits_ne_nil n 10)
  have hall := all_isDigit_toDigits n
  rw [hcs, List.all_cons, Bool.and_eq_true] at hall
  exact ⟨c, s, hcs, hall.1⟩

theorem exists_digit_decimalText (d : ℕ) (places : ℤ) : ∃ c s, decimalText d places = c :: s ∧ c.isDigit := by
  rw [decimalText]
  split
  · exact exists_digit_toDigits _
  · obtain ⟨c, s, hcs, hc⟩ := exists_digit_toDigits (d / 10 ^ places.toNat)
    dsimp only
    rw [hcs]
    exact ⟨c, _, List.cons_append, hc⟩

theorem exists_decimalText_of_mem {n : ℕ} {t : Str} (ht : t ∈ displayCandidates n) :
    ∃ d places, t = decimalText d places := by
  obtain ⟨i, -, hi⟩ := List.mem_flatMap.mp ht
  obtain ⟨d, -, rfl⟩ := List.mem_map.mp hi
  exact ⟨d, _, rfl⟩

namespace F64

theorem eq_iff {x y : F64} : x.eq y ↔ x.isNaN = false ∧ y.isNaN = false ∧ x.rank = y.rank := by
  simp [eq, and_assoc]

theorem parse_nan : parse "NaN".toList = some nan := by decide

theorem parse_inf : parse "inf".toList = some (ofParts false infinityBits) ∧
    parse ('-' :: "inf".toList) = some (ofParts true infinityBits) := by decide

theorem parse_signed {x : F64} {text : Str} (h : parse text = some (ofParts false x.magnitude) ∧
    parse ('-' :: text) = some (ofParts true x.magnitude)) :
    parse (if x.negative then '-' :: text else text) = some x := by
  have heta := ofParts_eta x
  rcases hnegative : x.negative with _ | _
  · rw [if_neg (by decide), h.1, ← hnegative, heta]
  · rw [if_pos rfl, h.2, ← hnegative, heta]

theorem Same.eq {x y : F64} (h : x.Same y) (hy : y.isFinite) : x.eq y := by
  rcases h with h | ⟨-, hnan⟩
  · exact h
  · exact absurd (of_decide_eq_true hnan) (of_decide_eq_true hy).not_gt

/-- What is displayed is read as what it was. -/
theorem parse_display (x : F64) : ∃ y, parse x.display = some y ∧ y.Same x := by
  rcases hnan : x.isNaN with _ | _
  · refine ⟨x, ?_, Same.refl x⟩
    rw [display, hnan, if_neg (by decide)]
    refine parse_signed ?_
    rcases hfinite : x.isFinite with _ | _
    · have hinfinite : x.magnitude = infinityBits :=
        le_antisymm (not_lt.mp (of_decide_eq_false hnan)) (not_lt.mp (of_decide_eq_false hfinite))
      rw [if_neg (by decide), hinfinite]
      exact parse_inf
    · rw [if_pos rfl]
      obtain ⟨hmem, hread⟩ := parseMagnitude_displayMagnitude (of_decide_eq_true hfinite)
      obtain ⟨d, places, htext⟩ := exists_decimalText_of_mem hmem
      obtain ⟨c, s, hcs, hc⟩ := exists_digit_decimalText d places
      rw [htext, hcs] at hread ⊢
      exact parse_of_digit hc hread
  · rw [display, hnan, if_pos rfl]
    exact ⟨nan, parse_nan, .inr ⟨by decide, hnan⟩⟩

/-! ### Whole numbers -/

theorem parse_toDigits (n : ℕ) : parse (Nat.toDigits 10 n) = some (ofParts false (nearestDouble n 1)) ∧
    parse ('-' :: Nat.toDigits 10 n) = some (ofParts true (nearestDouble n 1)) := by
  have hread := parseMagnitude_digits (all_isDigit_toDigits n) Nat.toDigits_ne_nil
  rw [digitsValue_toDigits] at hread
  obtain ⟨c, s, hcs, hc⟩ := exists_digit_toDigits n
  rw [hcs] at hread ⊢
  exact parse_of_digit hc hread

theorem lt_two_pow_sixtyThree_of_le {n : ℕ} (h : n ≤ infinityBits) : n < 2 ^ 63 := h.trans_lt (by decide)

theorem doubleUnits_lt {n k : ℕ} (h : n < (k + 1) * 2 ^ 52) (hk : 0 < k) : doubleUnits n < 2 ^ (52 + k) := by
  have hsignificand : n - (n / 2 ^ 52 - 1) * 2 ^ 52 < 2 ^ 53 := by omega
  have hexponent : n / 2 ^ 52 - 1 ≤ k - 1 := by
    have := Nat.div_lt_of_lt_mul (mul_comm (k + 1) _ ▸ h)
    omega
  calc doubleUnits n < 2 ^ 53 * 2 ^ (n / 2 ^ 52 - 1) := Nat.mul_lt_mul_of_pos_right hsignificand (by positivity)
    _ ≤ 2 ^ 53 * 2 ^ (k - 1) := Nat.mul_le_mul_left _ (Nat.pow_le_pow_right two_pos hexponent)
    _ = 2 ^ (52 + k) := by
      rw [← pow_add]
      congr 1
      omega

theorem lt_iff {x y : F64} : x.lt y ↔ x.isNaN = false ∧ y.isNaN = false ∧ x.rank < y.rank := by
  simp [lt, and_assoc]

theorem rank_ofNat (n : ℕ) : (ofNat n).rank = nearestDouble n 1 := by
  have hlt := lt_two_pow_sixtyThree_of_le (nearestDouble_le n 1)
  rw [rank, ofNat, negative_ofParts hlt, magnitude_ofParts hlt]
  rfl

theorem rank_abs (x : F64) : x.abs.rank = x.magnitude := by
  rw [rank, abs, negative_ofParts x.magnitude_lt, magnitude_ofParts x.magnitude_lt]
  rfl

theorem magnitude_lt_of_abs_lt {x : F64} (h : x.abs.lt (ofNat (10 ^ 15))) : x.magnitude < (1072 + 1) * 2 ^ 52 := by
  have hrank := (lt_iff.mp h).2.2
  rw [rank_ofNat, rank_abs, Nat.cast_lt] at hrank
  exact hrank.trans (by decide)

/-- The whole part of a number below 10¹⁵ is an `i64`. -/
theorem whole_lt {x : F64} (h : x.abs.lt (ofNat (10 ^ 15))) : x.whole < 2 ^ 63 := by
  have hunits := doubleUnits_lt (magnitude_lt_of_abs_lt h) (by norm_num)
  have hsplit : 2 ^ (52 + 1072) = 2 ^ 1074 * 2 ^ 50 := by rw [← pow_add]
  rw [hsplit] at hunits
  exact (Nat.div_lt_of_lt_mul hunits).trans (by norm_num)

theorem toI64_eq {x : F64} (hnan : x.isNaN = false) (h : x.whole < 2 ^ 63) :
    x.toI64 = if x.negative then -(x.whole : ℤ) else x.whole := by
  rw [toI64, hnan, if_neg (by decide)]
  split
  · omega
  · omega

/-- The text of a small whole number is read as the number. -/
theorem parse_intText {x : F64} (hwhole : x.eq x.trunc) (hsmall : x.abs.lt (ofNat (10 ^ 15))) :
    ∃ y, parse (intText x.toI64) = some y ∧ y.eq x := by
  obtain ⟨hnan, htruncNan, hrank⟩ := eq_iff.mp hwhole
  have hfinite : x.isFinite := decide_eq_true ((magnitude_lt_of_abs_lt hsmall).trans (by decide))
  have htrunc : x.trunc = ofParts x.negative (nearestDouble x.whole 1) := if_pos hfinite
  have hread := parse_toDigits x.whole
  have hvalue := toI64_eq hnan (whole_lt hsmall)
  rcases hnegative : x.negative with _ | _
  · rw [hnegative, if_neg (by decide)] at hvalue
    rw [hnegative] at htrunc
    rw [hvalue, intText, if_neg (by omega), Int.natAbs_natCast, hread.1]
    exact ⟨_, rfl, htrunc ▸ eq_iff.mpr ⟨htruncNan, hnan, hrank.symm⟩⟩
  · rw [hnegative, if_pos rfl] at hvalue
    rw [hnegative] at htrunc
    rw [hvalue, intText, Int.natAbs_neg, Int.natAbs_natCast]
    rcases Nat.eq_zero_or_pos x.whole with hzero | hpos
    · -- the sign of a zero is lost, but it is the same number
      rw [if_neg (by omega), hread.1]
      rw [hzero] at htrunc ⊢
      refine ⟨_, rfl, eq_iff.mpr ⟨by decide, hnan, ?_⟩⟩
      rw [hrank, htrunc]
      decide
    · rw [if_pos (by omega), hread.2]
      exact ⟨_, rfl, htrunc ▸ eq_iff.mpr ⟨htruncNan, hnan, hrank.symm⟩⟩

end F64

end Arcature.Lib

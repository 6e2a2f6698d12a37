import Arcature.Lib.Text

/-! Unpadded base64url (`crypt/base64url.rs`): three bytes to four symbols, with a decoder that
    refuses every string the encoder could not have written.

        byte  a        byte b        byte c
        aaaaaa aabbbb bbbbcc cccccc        packed, 24 bits
        s₀     s₁     s₂     s₃            one symbol per six bits -/

namespace Arcature.Crypt.Base64Url
open Arcature.Lib

/-- The URL-safe alphabet. -/
def alphabet : List Char :=
  "ABCDEFGHIJKLMNOPQRSTUVWXYZabcdefghijklmnopqrstuvwxyz0123456789-_".toList

/-- The symbol for the six bits of `triple` above `shift`. -/
def digit (triple shift : ℕ) : Char := alphabet.getD (triple / 2 ^ shift % 64) 'A'

/-- The 24-bit word of a chunk, missing bytes read as zero. -/
def pack (a b c : UInt8) : ℕ := a.toNat * 2 ^ 16 + b.toNat * 2 ^ 8 + c.toNat

/-- Encode, three bytes at a time. -/
def encode : Bytes → Str
  | [] => []
  | [a] => [digit (pack a 0 0) 18, digit (pack a 0 0) 12]
  | [a, b] => [digit (pack a b 0) 18, digit (pack a b 0) 12, digit (pack a b 0) 6]
  | a :: b :: c :: rest =>
    digit (pack a b c) 18 :: digit (pack a b c) 12 :: digit (pack a b c) 6 ::
      digit (pack a b c) 0 :: encode rest

/-- The alphabet index of an ASCII byte. -/
def valueOf (byte : UInt8) : Option ℕ :=
  let n := byte.toNat
  if 65 ≤ n ∧ n ≤ 90 then some (n - 65)
  else if 97 ≤ n ∧ n ≤ 122 then some (n - 97 + 26)
  else if 48 ≤ n ∧ n ≤ 57 then some (n - 48 + 52)
  else if n = 45 then some 62
  else if n = 95 then some 63
  else none

/-- The bytes off the top of a group's 24-bit word, whose unused low bits must be zero. -/
def unpack (values : List ℕ) : Option Bytes :=
  let packed := (values.zipIdx.map fun (v, index) => v * 2 ^ (18 - 6 * index)).sum
  let bytes := values.length - 1
  if packed % 2 ^ (24 - 8 * bytes) ≠ 0 then none
  else some ((List.range bytes).map fun index => UInt8.ofNat (packed / 2 ^ (16 - 8 * index) % 256))

/-- Decode one group of up to four symbols. -/
def decodeGroup (group : Bytes) : Option Bytes := (group.mapM valueOf).bind unpack

/-- Decode group by group. -/
def decodeGroups : Bytes → Option Bytes
  | [] => some []
  | a :: b :: c :: d :: rest =>
    (decodeGroup [a, b, c, d]).bind fun out => (decodeGroups rest).map (out ++ ·)
  | group => decodeGroup group

/-- Decode, or `none` if `text` is not something `encode` could have produced. -/
def decode (text : Str) : Option Bytes :=
  if (Str.bytes text).length % 4 = 1 then none else decodeGroups (Str.bytes text)

/-! ### What is encoded decodes -/

/-- The byte a symbol is written as. -/
def symbolByte (triple shift : ℕ) : UInt8 :=
  UInt8.ofNat (digit triple shift).toNat

theorem symbol_facts : ∀ n : Fin 64, String.utf8EncodeChar (alphabet.getD n 'A') =
      [UInt8.ofNat (alphabet.getD n 'A').toNat] ∧
    valueOf (UInt8.ofNat (alphabet.getD n 'A').toNat) = some n.val ∧ alphabet.getD n 'A' ≠ '.' := by
  decide +kernel

theorem utf8_digit (triple shift : ℕ) :
    String.utf8EncodeChar (digit triple shift) = [symbolByte triple shift] :=
  (symbol_facts ⟨triple / 2 ^ shift % 64, Nat.mod_lt _ (by decide)⟩).1

theorem valueOf_symbolByte (triple shift : ℕ) :
    valueOf (symbolByte triple shift) = some (triple / 2 ^ shift % 64) :=
  (symbol_facts ⟨triple / 2 ^ shift % 64, Nat.mod_lt _ (by decide)⟩).2.1

theorem digit_ne_dot (triple shift : ℕ) : digit triple shift ≠ '.' :=
  (symbol_facts ⟨triple / 2 ^ shift % 64, Nat.mod_lt _ (by decide)⟩).2.2

/-- The six-bit values of a chunk's symbols. -/
def sextets (triple : ℕ) (shifts : List ℕ) : List ℕ := shifts.map fun shift => triple / 2 ^ shift % 64

theorem decodeGroup_symbols (triple : ℕ) : ∀ shifts : List ℕ,
    decodeGroup (shifts.map (symbolByte triple)) = unpack (sextets triple shifts) := by
  intro shifts
  have hm : (shifts.map (symbolByte triple)).mapM valueOf = some (sextets triple shifts) := by
    induction shifts with
    | nil => rfl
    | cons s shifts ih => rw [List.map_cons, List.mapM_cons, valueOf_symbolByte, ih]; rfl
  rw [decodeGroup, hm]
  rfl

/-- The word of a chunk holds its bytes. -/
theorem pack_bytes (a b c : UInt8) : pack a b c < 2 ^ 24 ∧ pack a b c / 2 ^ 16 % 256 = a.toNat ∧
    pack a b c / 2 ^ 8 % 256 = b.toNat ∧ pack a b c % 256 = c.toNat := by
  have ha := a.toNat_lt
  have hb := b.toNat_lt
  have hc := c.toNat_lt
  unfold pack
  omega

/-- What two symbols unpack to, their word being `t`. -/
theorem unpack_of_two {v w t : ℕ} (h : v * 2 ^ 18 + w * 2 ^ 12 = t) (hlow : t % 2 ^ 16 = 0) :
    unpack [v, w] = some [UInt8.ofNat (t / 2 ^ 16 % 256)] := by
  subst h
  simpa [unpack, List.zipIdx, List.range_succ] using hlow

theorem unpack_of_three {v w x t : ℕ} (h : v * 2 ^ 18 + (w * 2 ^ 12 + x * 2 ^ 6) = t)
    (hlow : t % 2 ^ 8 = 0) :
    unpack [v, w, x] = some [UInt8.ofNat (t / 2 ^ 16 % 256), UInt8.ofNat (t / 2 ^ 8 % 256)] := by
  subst h
  simpa [unpack, List.zipIdx, List.range_succ] using hlow

theorem unpack_of_four {v w x y t : ℕ} (h : v * 2 ^ 18 + (w * 2 ^ 12 + (x * 2 ^ 6 + y)) = t) :
    unpack [v, w, x, y] = some [UInt8.ofNat (t / 2 ^ 16 % 256), UInt8.ofNat (t / 2 ^ 8 % 256),
      UInt8.ofNat (t % 256)] := by
  subst h
  simp [unpack, List.zipIdx, List.range_succ, Nat.mod_one]

theorem unpack_one (a : UInt8) : unpack (sextets (pack a 0 0) [18, 12]) = some [a] := by
  obtain ⟨hlt, hhigh, hmid, hlow⟩ := pack_bytes a 0 0
  rw [UInt8.toNat_zero] at hmid hlow
  generalize pack a 0 0 = t at hlt hhigh hmid hlow
  have hword : t / 2 ^ 18 % 64 * 2 ^ 18 + t / 2 ^ 12 % 64 * 2 ^ 12 = t := by omega
  refine (unpack_of_two hword (by omega)).trans ?_
  rw [hhigh, UInt8.ofNat_toNat]

theorem unpack_two (a b : UInt8) : unpack (sextets (pack a b 0) [18, 12, 6]) = some [a, b] := by
  obtain ⟨hlt, hhigh, hmid, hlow⟩ := pack_bytes a b 0
  rw [UInt8.toNat_zero] at hlow
  generalize pack a b 0 = t at hlt hhigh hmid hlow
  have hword : t / 2 ^ 18 % 64 * 2 ^ 18 + (t / 2 ^ 12 % 64 * 2 ^ 12 + t / 2 ^ 6 % 64 * 2 ^ 6) = t := by
    omega
  refine (unpack_of_three hword (by omega)).trans ?_
  rw [hhigh, hmid, UInt8.ofNat_toNat, UInt8.ofNat_toNat]

theorem unpack_three (a b c : UInt8) :
    unpack (sextets (pack a b c) [18, 12, 6, 0]) = some [a, b, c] := by
  obtain ⟨hlt, hhigh, hmid, hlow⟩ := pack_bytes a b c
  generalize pack a b c = t at hlt hhigh hmid hlow
  have hword : t / 2 ^ 18 % 64 * 2 ^ 18 + (t / 2 ^ 12 % 64 * 2 ^ 12 +
      (t / 2 ^ 6 % 64 * 2 ^ 6 + t / 2 ^ 0 % 64)) = t := by
    omega
  refine (unpack_of_four hword).trans ?_
  rw [hhigh, hmid, hlow, UInt8.ofNat_toNat, UInt8.ofNat_toNat, UInt8.ofNat_toNat]

theorem decodeGroups_encode : ∀ b : Bytes, decodeGroups (Str.bytes (encode b)) = some b
  | [] => rfl
  | [a] => by
    simp only [encode, Str.bytes_cons, Str.bytes_nil, utf8_digit]
    exact (decodeGroup_symbols _ [18, 12]).trans (unpack_one a)
  | [a, b] => by
    simp only [encode, Str.bytes_cons, Str.bytes_nil, utf8_digit]
    exact (decodeGroup_symbols _ [18, 12, 6]).trans (unpack_two a b)
  | a :: b :: c :: rest => by
    have hg := (decodeGroup_symbols (pack a b c) [18, 12, 6, 0]).trans (unpack_three a b c)
    simp only [List.map_cons, List.map_nil] at hg
    simp only [encode, Str.bytes_cons, utf8_digit, List.cons_append, List.nil_append, decodeGroups,
      hg, decodeGroups_encode rest]
    rfl

theorem length_encode : ∀ b : Bytes, (Str.bytes (encode b)).length % 4 ≠ 1
  | [] => by decide
  | [a] => by simp [encode, utf8_digit]
  | [a, b] => by simp [encode, utf8_digit]
  | a :: b :: c :: rest => by
    have := length_encode rest
    simp only [encode, Str.bytes_cons, utf8_digit, List.length_append, List.length_singleton]
    omega

/-- What is encoded decodes to itself. -/
theorem decode_encode (b : Bytes) : decode (encode b) = some b := by
  rw [decode, if_neg (length_encode b), decodeGroups_encode]

/-- A separator outside the alphabet never occurs in an encoded string. -/
theorem dot_notMem_encode : ∀ b : Bytes, '.' ∉ encode b
  | [] => by simp [encode]
  | [a] => by simp [encode, (digit_ne_dot _ _).symm]
  | [a, b] => by simp [encode, (digit_ne_dot _ _).symm]
  | a :: b :: c :: rest => by
    simp [encode, (digit_ne_dot _ _).symm, dot_notMem_encode rest]

/-! ### What decodes is of the alphabet -/

theorem isSome_valueOf_of_decodeGroup {group out : Bytes} (h : decodeGroup group = some out) :
    ∀ x ∈ group, (valueOf x).isSome := by
  obtain ⟨values, hvalues, -⟩ := Option.bind_eq_some_iff.mp h
  clear h
  induction group generalizing values with
  | nil => simp
  | cons y group ih =>
    rw [List.mapM_cons] at hvalues
    obtain ⟨v, hv, hrest⟩ := Option.bind_eq_some_iff.mp hvalues
    obtain ⟨vs, hvs, -⟩ := Option.bind_eq_some_iff.mp hrest
    intro x hx
    rcases List.mem_cons.mp hx with rfl | hx
    · simp [hv]
    · exact ih vs hvs x hx

theorem isSome_valueOf_of_decodeGroups {text out : Bytes} (h : decodeGroups text = some out) :
    ∀ x ∈ text, (valueOf x).isSome := by
  fun_induction decodeGroups text generalizing out with
  | case1 => simp
  | case2 a b c d rest ih =>
    obtain ⟨first, hfirst, hrest⟩ := Option.bind_eq_some_iff.mp h
    obtain ⟨last, hlast, -⟩ := Option.map_eq_some_iff.mp hrest
    intro x hx
    rcases List.mem_append.mp (show x ∈ [a, b, c, d] ++ rest from hx) with hx | hx
    · exact isSome_valueOf_of_decodeGroup hfirst x hx
    · exact ih hlast x hx
  | case3 group _ _ => exact isSome_valueOf_of_decodeGroup h

/-- Whatever decodes is written in the alphabet. -/
theorem isSome_valueOf_of_decode {text : Str} {out : Bytes} (h : decode text = some out) :
    ∀ x ∈ text.bytes, (valueOf x).isSome := by
  unfold decode at h
  split_ifs at h
  exact isSome_valueOf_of_decodeGroups h

end Arcature.Crypt.Base64Url

import Arcature.Cli.KeyGenerate
import Arcature.Lib.Framing
import Arcature.Tokens.Plaintext

/-! The application's key (`crypt/key.rs`), from the file that `key:generate` writes to the keys that are
    derived from it.

    A key is 64 bytes, in hexadecimal digits of either case; white space around them does not count, and a
    sign is no digit. A key for a purpose is the code of the purpose's label, framed by its length:

        .env ──read──▶ hex ──from_hex──▶ key ──subkey──▶ hmac key ("arcature/kdf/v1" ++ len label ++ label)

    The reading of a key says which check refused it, every key has one spelling but for the case, and what
    `key:generate` draws is what is read back (`keyed`). -/

namespace Arcature.Crypt
open Arcature.Lib Arcature.Tokens

/-- `KEY_BYTES`. -/
def keyBytes : ℕ := 64

/-- `AppKey`. -/
abbrev AppKey := ByteArr keyBytes

/-- `AppKeyError`. -/
inductive AppKeyError where
  | empty
  | notHexadecimal
  | wrongLength
  deriving DecidableEq

namespace AppKey

/-- `from_bytes`. -/
def fromBytes (bytes : Bytes) : Except AppKeyError AppKey :=
  if h : bytes.length = keyBytes then .ok ⟨bytes, h⟩ else .error .wrongLength

/-- `from_hex`. The loop over pairs and `hex_digit` are those of the tokens. -/
def fromHex (hex : Str) : Except AppKeyError AppKey :=
  if hex.trim = [] then .error .empty
  else if hex.trim.bytes.length % 2 ≠ 0 then .error .notHexadecimal
  else
    match hexPairs hex.trim.bytes with
    | none => .error .notHexadecimal
    | some bytes => fromBytes bytes

/-- `DERIVATION_DOMAIN`. -/
def derivationDomain : Bytes := Str.bytes "arcature/kdf/v1".toList

/-- `ENCRYPTER_LABEL`. -/
def encrypterLabel : Bytes := Str.bytes "encrypter".toList

/-- `URL_SIGNER_LABEL`. -/
def urlSignerLabel : Bytes := Str.bytes "url-signer".toList

/-- What is fed to the code of a subkey. -/
def derivationInput (label : Bytes) : Bytes := derivationDomain ++ frame label

/-- `subkey`, under a code of 32 bytes. -/
def subkey (hmac : Bytes → Bytes → ByteArr 32) (key : AppKey) (label : Bytes) : ByteArr 32 :=
  hmac key.val (derivationInput label)

end AppKey

/-! ### The vocabulary of the property -/

/-- What is read as a key, what is refused and why, and what the keys in use come from. -/
structure Keyed : Prop where
  ok : ∀ hex (key : AppKey), AppKey.fromHex hex = .ok key ↔
    (∀ c ∈ hex.trim, c ∈ hexDigits) ∧ hex.trim.map Char.toLower = hexEncode key.val
  empty : ∀ hex, AppKey.fromHex hex = .error .empty ↔ hex.trim = []
  notHexadecimal : ∀ hex, AppKey.fromHex hex = .error .notHexadecimal ↔
    hex.trim ≠ [] ∧ (hex.trim.bytes.length % 2 ≠ 0 ∨ ∃ c ∈ hex.trim, c ∉ hexDigits)
  wrongLength : ∀ hex, AppKey.fromHex hex = .error .wrongLength ↔
    hex.trim ≠ [] ∧ hex.trim.length % 2 = 0 ∧ (∀ c ∈ hex.trim, c ∈ hexDigits) ∧ hex.trim.length ≠ 128
  generated : ∀ t (key : AppKey), Cli.KeyGenerate.Rotates t →
    (Dotenv.value (Dotenv.readEnv (Cli.KeyGenerate.upsert t (Cli.KeyGenerate.toHex key.val)))
      Cli.KeyGenerate.keyVariable).map AppKey.fromHex = some (.ok key)
  derived : ∀ label label' : Bytes, label.length < 2 ^ 64 → label'.length < 2 ^ 64 →
    AppKey.derivationInput label = AppKey.derivationInput label' → label = label'

/-! ### The digits -/

theorem length_bytes_of_digits {text : Str} (h : ∀ c ∈ text, c ∈ hexDigits) : text.bytes.length = text.length := by
  rw [bytes_of_hexDigits h, List.length_map]

/-- Pairs of bytes decode exactly if they are digits. -/
theorem hexPairs_eq_some {text : Str} (hlen : text.bytes.length % 2 = 0) {out : Bytes} :
    hexPairs text.bytes = some out ↔ (∀ c ∈ text, c ∈ hexDigits) ∧ text.map Char.toLower = hexEncode out := by
  have hpairs : text.bytes.length = text.bytes.length / 2 * 2 := by omega
  have hdigits : ∀ {out}, hexPairs text.bytes = some out → ∀ c ∈ text, c ∈ hexDigits := by
    intro out h c hc
    obtain ⟨byte, hbyte⟩ := List.exists_mem_of_ne_nil _ (List.ne_nil_of_length_pos
      (l := String.utf8EncodeChar c) (by rw [String.length_utf8EncodeChar]; exact c.utf8Size_pos))
    refine mem_hexDigits_of_nibble hbyte (nibble_of_hexPairs h hpairs byte ?_)
    exact List.mem_flatMap.mpr ⟨c, hc, hbyte⟩
  have hdecode : (∀ c ∈ text, c ∈ hexDigits) → ∃ out, hexPairs text.bytes = some out ∧
      hexEncode out = text.map Char.toLower := by
    intro h
    rw [length_bytes_of_digits h] at hpairs
    obtain ⟨out, hout, -, hencode⟩ := exists_hexPairs h hpairs
    exact ⟨out, by rw [bytes_of_hexDigits h, hout], hencode⟩
  constructor
  · intro h
    obtain ⟨out', hout', hencode⟩ := hdecode (hdigits h)
    rw [h] at hout'
    obtain rfl := Option.some.inj hout'
    exact ⟨hdigits h, hencode.symm⟩
  · rintro ⟨h, hencode⟩
    obtain ⟨out', hout', hencode'⟩ := hdecode h
    rw [hout']
    refine congrArg some (Option.some.inj ?_)
    rw [← (hexEncode_facts out').2.2, ← (hexEncode_facts out).2.2, hencode', hencode]

theorem length_of_encoded {text : Str} {bytes : Bytes} (h : text.map Char.toLower = hexEncode bytes) :
    text.length = bytes.length * 2 := by
  rw [← List.length_map (f := Char.toLower), h, (hexEncode_facts bytes).2.1]

/-- What is written is in lower case. -/
theorem map_toLower_hexEncode (bytes : Bytes) : (hexEncode bytes).map Char.toLower = hexEncode bytes := by
  obtain ⟨hdigits, hlength, hpairs⟩ := hexEncode_facts bytes
  obtain ⟨out, hout, -, hencode⟩ := exists_hexPairs hdigits hlength
  rw [hpairs] at hout
  rw [← hencode, Option.some.inj hout]

/-- `key:generate` spells bytes as the tokens do. -/
theorem toHex_eq (bytes : Bytes) : Cli.KeyGenerate.toHex bytes = hexEncode bytes := by
  have hdigit : ∀ n : Fin 16, Nat.digitChar n.val = hexAlphabet.getD n.val '0' := by decide
  rw [Cli.KeyGenerate.toHex, hexEncode]
  refine List.flatMap_congr fun byte _ => ?_
  have hbyte := byte.toNat_lt
  rw [hdigit ⟨byte.toNat / 16, by omega⟩, hdigit ⟨byte.toNat % 16, by omega⟩]

/-! ### The property -/

theorem fromBytes_eq_ok {bytes : Bytes} {key : AppKey} : AppKey.fromBytes bytes = .ok key ↔ bytes = key.val := by
  rw [AppKey.fromBytes]
  split_ifs with h
  · rw [Except.ok.injEq, Subtype.ext_iff]
  · refine iff_of_false (fun hok => by cases hok) ?_
    rintro rfl
    exact h key.property

theorem fromBytes_eq_wrongLength {bytes : Bytes} :
    AppKey.fromBytes bytes = .error .wrongLength ↔ bytes.length ≠ keyBytes := by
  rw [AppKey.fromBytes]
  split_ifs with h <;> simp [h]

/-- The four ends of a reading. -/
theorem fromHex_cases (hex : Str) :
    (hex.trim = [] ∧ AppKey.fromHex hex = .error .empty) ∨
      (hex.trim ≠ [] ∧ (hex.trim.bytes.length % 2 ≠ 0 ∨ ∃ c ∈ hex.trim, c ∉ hexDigits) ∧
        AppKey.fromHex hex = .error .notHexadecimal) ∨
      ∃ bytes, hex.trim ≠ [] ∧ hex.trim.bytes.length % 2 = 0 ∧ (∀ c ∈ hex.trim, c ∈ hexDigits) ∧
        hex.trim.map Char.toLower = hexEncode bytes ∧ AppKey.fromHex hex = AppKey.fromBytes bytes := by
  rw [AppKey.fromHex]
  by_cases hempty : hex.trim = []
  · exact .inl ⟨hempty, if_pos hempty⟩
  · rw [if_neg hempty]
    by_cases hodd : hex.trim.bytes.length % 2 ≠ 0
    · exact .inr (.inl ⟨hempty, .inl hodd, if_pos hodd⟩)
    · rw [if_neg hodd]
      have heven : hex.trim.bytes.length % 2 = 0 := not_not.mp hodd
      cases hpairs : hexPairs hex.trim.bytes with
      | none =>
        refine .inr (.inl ⟨hempty, .inr ?_, rfl⟩)
        by_contra hdigits
        push Not at hdigits
        rw [length_bytes_of_digits hdigits] at heven
        obtain ⟨out, hout, -, -⟩ := exists_hexPairs hdigits (n := hex.trim.length / 2) (by omega)
        rw [bytes_of_hexDigits hdigits, hout] at hpairs
        cases hpairs
      | some bytes =>
        obtain ⟨hdigits, hencode⟩ := (hexPairs_eq_some heven).mp hpairs
        exact .inr (.inr ⟨bytes, hempty, heven, hdigits, hencode, rfl⟩)

theorem fromHex_eq_ok (hex : Str) (key : AppKey) : AppKey.fromHex hex = .ok key ↔
    (∀ c ∈ hex.trim, c ∈ hexDigits) ∧ hex.trim.map Char.toLower = hexEncode key.val := by
  constructor
  · intro h
    rcases fromHex_cases hex with ⟨-, hempty⟩ | ⟨-, -, hnot⟩ | ⟨bytes, -, -, hdigits, hencode, hbytes⟩
    · rw [h] at hempty
      cases hempty
    · rw [h] at hnot
      cases hnot
    · rw [h] at hbytes
      rw [← fromBytes_eq_ok.mp hbytes.symm]
      exact ⟨hdigits, hencode⟩
  · rintro ⟨hdigits, hencode⟩
    have hlength := length_of_encoded hencode
    rw [key.property, keyBytes] at hlength
    have hne : hex.trim ≠ [] := List.ne_nil_of_length_pos (by omega)
    have heven : hex.trim.bytes.length % 2 = 0 := by
      rw [length_bytes_of_digits hdigits]
      omega
    rw [AppKey.fromHex, if_neg hne, if_neg (not_not.mpr heven), (hexPairs_eq_some heven).mpr ⟨hdigits, hencode⟩]
    exact fromBytes_eq_ok.mpr rfl

/-- Reading a key gives back what was written, refuses what is not one by the check it fails, and no two labels
    derive from one input. -/
theorem keyed : Keyed where
  ok := fromHex_eq_ok
  empty hex := by
    rcases fromHex_cases hex with ⟨hempty, h⟩ | ⟨hne, -, h⟩ | ⟨bytes, hne, -, -, -, h⟩
    · exact iff_of_true h hempty
    · exact iff_of_false (by rw [h]; simp) hne
    · refine iff_of_false (fun herror => ?_) hne
      rw [h, AppKey.fromBytes] at herror
      split_ifs at herror
      cases herror
  notHexadecimal hex := by
    rcases fromHex_cases hex with ⟨hempty, h⟩ | ⟨hne, hnot, h⟩ | ⟨bytes, hne, heven, hdigits, -, h⟩
    · exact iff_of_false (by rw [h]; simp) fun hboth => hboth.1 hempty
    · exact iff_of_true h ⟨hne, hnot⟩
    · refine iff_of_false (fun herror => ?_) ?_
      · rw [h, AppKey.fromBytes] at herror
        split_ifs at herror
        cases herror
      · rintro ⟨-, hodd | ⟨c, hc, hnot⟩⟩
        · exact hodd heven
        · exact hnot (hdigits c hc)
  wrongLength hex := by
    rcases fromHex_cases hex with ⟨hempty, h⟩ | ⟨hne, hnot, h⟩ | ⟨bytes, hne, heven, hdigits, hencode, h⟩
    · exact iff_of_false (by rw [h]; simp) fun hall => hall.1 hempty
    · refine iff_of_false (by rw [h]; simp) ?_
      rintro ⟨-, heven, hdigits, -⟩
      rcases hnot with hodd | ⟨c, hc, hnot⟩
      · rw [length_bytes_of_digits hdigits] at hodd
        exact hodd heven
      · exact hnot (hdigits c hc)
    · have hlength := length_of_encoded hencode
      rw [h, fromBytes_eq_wrongLength, keyBytes]
      rw [length_bytes_of_digits hdigits] at heven
      constructor
      · exact fun hwrong => ⟨hne, heven, hdigits, by omega⟩
      · rintro ⟨-, -, -, hwrong⟩
        omega
  generated t key hrotates := by
    have hkey := Cli.KeyGenerate.isKey_toHex key
    rw [(hrotates.1 _ hkey).1, Option.map_some]
    refine congrArg some ((fromHex_eq_ok _ _).mpr ?_)
    have htrim : Str.trim (Cli.KeyGenerate.toHex key.val) = hexEncode key.val := by
      rw [Cli.KeyGenerate.trim_of_plain hkey.plain, toHex_eq]
    rw [htrim]
    exact ⟨(hexEncode_facts key.val).1, map_toLower_hexEncode key.val⟩
  derived label label' hlabel hlabel' h := by
    have hframes := List.append_cancel_left h
    have hboth : frame label ++ [] = frame label' ++ [] := by rw [List.append_nil, List.append_nil, hframes]
    exact (frame_append_inj hlabel hlabel' hboth).1

end Arcature.Crypt

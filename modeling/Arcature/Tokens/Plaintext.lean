import Arcature.Tokens.Store

/-! How many texts are one token (`hex_encode`, `hex_decode` and `parse_plaintext` of
    `tokens/token.rs`).

    The encoder writes lower case, and the decoder reads both cases:

        arcpat_ab…_cd…   ──parse──▶   (id, secret)   ──format──▶   arcpat_ab…_cd…
        arcpat_AB…_cd…   ──parse──▶   the same

    so what is parsed is formatted again in lower case, and a token has one spelling exactly as far as
    it has no upper-case digit. -/

namespace Arcature.Tokens
open Arcature.Lib

/-- The digits the decoder takes for 10 and more that the encoder never writes. -/
def upperDigits : List Char := "ABCDEF".toList

/-- The digits the decoder takes. -/
def hexDigits : List Char := hexAlphabet ++ upperDigits

/-- The shape of a token, with an upper-case digit in one of its halves. -/
def UpperCased (s : Str) : Prop :=
  ∃ idHex secretHex, s = tokenPrefix ++ (idHex ++ '_' :: secretHex) ∧ idHex.length = 32 ∧
    secretHex.length = 64 ∧ (∀ c ∈ idHex ++ secretHex, c ∈ hexDigits) ∧ ∃ c ∈ idHex ++ secretHex, c ∈ upperDigits

/-! ### One digit -/

/-- The byte of a digit. -/
def digitByte (c : Char) : UInt8 := UInt8.ofNat c.toNat

theorem digit_facts : ∀ c ∈ hexDigits, String.utf8EncodeChar c = [digitByte c] ∧
    ∃ v < 16, nibble (digitByte c) = some v ∧ hexAlphabet.getD v '0' = c.toLower := by
  decide

theorem toLower_eq_self_iff : ∀ c ∈ hexDigits, c.toLower = c ↔ c ∉ upperDigits := by
  decide

theorem nibble_facts : ∀ n : Fin 256, (nibble (UInt8.ofNat n.val)).isSome → Char.ofNat n.val ∈ hexDigits ∧
    (Char.ofNat n.val).toNat < 0x80 ∧ digitByte (Char.ofNat n.val) = UInt8.ofNat n.val := by
  decide +kernel

theorem encoded_digit : ∀ v : Fin 16, hexAlphabet.getD v.val '0' ∈ hexDigits ∧
    nibble (digitByte (hexAlphabet.getD v.val '0')) = some v.val ∧ hexAlphabet.getD v.val '0' ≠ '_' := by
  decide

/-- A byte that counts as a digit is the whole of a character, which is that digit. -/
theorem mem_hexDigits_of_nibble {c : Char} {byte : UInt8} (hbyte : byte ∈ String.utf8EncodeChar c)
    (h : (nibble byte).isSome) : c ∈ hexDigits := by
  obtain ⟨hdigit, hascii, hsame⟩ := nibble_facts ⟨byte.toNat, byte.toNat_lt⟩ (by simpa using h)
  have hmem : digitByte (Char.ofNat byte.toNat) ∈ String.utf8EncodeChar c := by
    rw [hsame]
    simpa using hbyte
  obtain rfl := Str.eq_of_ascii_mem_utf8EncodeChar hascii hmem
  exact hdigit

/-! ### A half -/

theorem bytes_of_hexDigits {text : Str} (h : ∀ c ∈ text, c ∈ hexDigits) : text.bytes = text.map digitByte := by
  induction text with
  | nil => rfl
  | cons c text ih =>
    rw [Str.bytes_cons, (digit_facts c (h c List.mem_cons_self)).1,
      ih fun d hd => h d (List.mem_cons_of_mem c hd)]
    rfl

/-- Digits in pairs decode, to bytes that are encoded in lower case. -/
theorem exists_hexPairs : ∀ {text : Str} {n : ℕ}, (∀ c ∈ text, c ∈ hexDigits) → text.length = n * 2 →
    ∃ out, hexPairs (text.map digitByte) = some out ∧ out.length = n ∧ hexEncode out = text.map Char.toLower
  | [], n, _, hlen => ⟨[], rfl, by simp at hlen; exact hlen.symm, rfl⟩
  | [_], n, _, hlen => by simp at hlen; omega
  | a :: b :: text, n, h, hlen => by
    obtain ⟨-, v, hv, hav, hlower⟩ := digit_facts a (h a (by simp))
    obtain ⟨-, w, hw, hbw, hlower'⟩ := digit_facts b (h b (by simp))
    obtain ⟨out, hout, hlength, hencode⟩ := @exists_hexPairs text (n - 1)
      (fun c hc => h c (by simp [hc])) (by simp at hlen; omega)
    have hbyte : (UInt8.ofNat (v * 16 + w)).toNat = v * 16 + w := by
      rw [UInt8.toNat_ofNat']
      omega
    refine ⟨UInt8.ofNat (v * 16 + w) :: out, ?_, ?_, ?_⟩
    · rw [List.map_cons, List.map_cons, hexPairs, hav, hbw, hout]
      rfl
    · rw [List.length_cons, hlength]
      simp at hlen
      omega
    · rw [hexEncode, List.flatMap_cons, ← hexEncode, hencode, hbyte, List.map_cons, List.map_cons, ← hlower,
        ← hlower', show (v * 16 + w) / 16 = v by omega, show (v * 16 + w) % 16 = w by omega]
      rfl

theorem nibble_of_hexPairs : ∀ {bytes out : Bytes} {n : ℕ}, hexPairs bytes = some out → bytes.length = n * 2 →
    ∀ byte ∈ bytes, (nibble byte).isSome
  | [], _, _, _, _ => by simp
  | [_], _, n, _, hlen => by simp at hlen; omega
  | a :: b :: bytes, out, n, h, hlen => by
    simp only [hexPairs, Option.bind_eq_bind, Option.bind_eq_some_iff] at h
    obtain ⟨v, hv, w, hw, rest, hrest, -⟩ := h
    rintro byte hbyte
    rcases List.mem_cons.mp hbyte with rfl | hbyte
    · simp [hv]
    · rcases List.mem_cons.mp hbyte with rfl | hbyte
      · simp [hw]
      · exact @nibble_of_hexPairs bytes rest (n - 1) hrest (by simp at hlen; omega) byte hbyte

theorem encode_digits (byte : UInt8) : ∃ a b, hexEncode [byte] = [a, b] ∧ a ∈ hexDigits ∧ b ∈ hexDigits ∧
    nibble (digitByte a) = some (byte.toNat / 16) ∧ nibble (digitByte b) = some (byte.toNat % 16) := by
  have hlt := byte.toNat_lt
  obtain ⟨hhigh, hhigh', -⟩ := encoded_digit ⟨byte.toNat / 16, by omega⟩
  obtain ⟨hlow, hlow', -⟩ := encoded_digit ⟨byte.toNat % 16, by omega⟩
  exact ⟨_, _, rfl, hhigh, hlow, hhigh', hlow'⟩

theorem hexEncode_cons (byte : UInt8) (bytes : Bytes) :
    hexEncode (byte :: bytes) = hexEncode [byte] ++ hexEncode bytes := by
  simp [hexEncode]

/-- Two digits for a byte, none of them a separator. -/
theorem hexEncode_facts (bytes : Bytes) : (∀ c ∈ hexEncode bytes, c ∈ hexDigits) ∧
    (hexEncode bytes).length = bytes.length * 2 ∧ hexPairs ((hexEncode bytes).map digitByte) = some bytes := by
  induction bytes with
  | nil => exact ⟨by simp [hexEncode], rfl, rfl⟩
  | cons byte bytes ih =>
    obtain ⟨hdigits, hlength, hpairs⟩ := ih
    obtain ⟨a, b, hab, ha, hb, hv, hw⟩ := encode_digits byte
    rw [hexEncode_cons, hab]
    refine ⟨?_, ?_, ?_⟩
    · rintro c hc
      simp only [List.cons_append, List.nil_append, List.mem_cons] at hc
      rcases hc with rfl | rfl | hc
      · exact ha
      · exact hb
      · exact hdigits c hc
    · simp only [List.length_append, List.length_cons, List.length_nil, hlength]
      omega
    · have hbyte : UInt8.ofNat (byte.toNat / 16 * 16 + byte.toNat % 16) = byte := by
        rw [Nat.div_add_mod']
        simp
      simp only [List.cons_append, List.nil_append, List.map_cons, hexPairs, hv, hw, hpairs,
        Option.bind_eq_bind, Option.bind_some, hbyte]
      rfl

/-- What a half decodes from: digits, which the encoder writes back in lower case. -/
theorem hexDecode_eq_some {n : ℕ} {text : Str} {out : ByteArr n} : hexDecode n text = some out ↔
    (∀ c ∈ text, c ∈ hexDigits) ∧ text.length = n * 2 ∧ hexEncode out.val = text.map Char.toLower := by
  constructor
  · intro h
    rw [hexDecode] at h
    split_ifs at h with hlen
    rw [not_not] at hlen
    obtain ⟨bytes, hpairs, hout⟩ := Option.bind_eq_some_iff.mp h
    split_ifs at hout with hlength
    obtain rfl := Option.some.inj hout
    have hdigits : ∀ c ∈ text, c ∈ hexDigits := by
      rintro c hc
      obtain ⟨byte, hbyte⟩ := List.exists_mem_of_ne_nil _ (List.ne_nil_of_length_pos
        (l := String.utf8EncodeChar c) (by rw [String.length_utf8EncodeChar]; exact c.utf8Size_pos))
      refine mem_hexDigits_of_nibble hbyte (nibble_of_hexPairs hpairs hlen byte ?_)
      exact List.mem_flatMap.mpr ⟨c, hc, hbyte⟩
    have hbytes := bytes_of_hexDigits hdigits
    rw [hbytes] at hpairs hlen
    rw [List.length_map] at hlen
    obtain ⟨out, hout, -, hencode⟩ := exists_hexPairs hdigits hlen
    rw [hpairs] at hout
    exact ⟨hdigits, hlen, (congrArg hexEncode (Option.some.inj hout)).trans hencode⟩
  · rintro ⟨hdigits, hlen, hencode⟩
    obtain ⟨bytes, hpairs, hlength, hencode'⟩ := exists_hexPairs hdigits hlen
    have hsame : bytes = out.val := by
      have hback := (hexEncode_facts bytes).2.2
      rw [hencode', ← hencode, (hexEncode_facts out.val).2.2] at hback
      exact (Option.some.inj hback).symm
    rw [hexDecode, bytes_of_hexDigits hdigits, List.length_map, if_neg (not_not.mpr hlen), hpairs]
    simp only [Option.bind_some, hlength, dif_pos]
    exact congrArg some (Subtype.ext hsame)

theorem exists_hexDecode {n : ℕ} {text : Str} (h : ∀ c ∈ text, c ∈ hexDigits) (hlen : text.length = n * 2) :
    ∃ out : ByteArr n, hexDecode n text = some out := by
  obtain ⟨out, -, hlength, hencode⟩ := exists_hexPairs h hlen
  exact ⟨⟨out, hlength⟩, hexDecode_eq_some.mpr ⟨h, hlen, hencode⟩⟩

theorem map_toLower_eq_self_iff {text : Str} : text.map Char.toLower = text ↔ ∀ c ∈ text, c.toLower = c := by
  induction text with
  | nil => simp
  | cons c text ih => rw [List.map_cons, List.cons.injEq, ih, List.forall_mem_cons]

/-! ### A token -/

theorem notMem_of_hexDigits {text : Str} (h : ∀ c ∈ text, c ∈ hexDigits) : '_' ∉ text := by
  intro hmem
  exact absurd (h _ hmem) (by decide)

/-- What parses: the prefix, and the digits of both halves. -/
theorem parsePlaintext_eq_some {s : Str} {id : ApiTokenId} {secret : Secret} :
    parsePlaintext s = some (id, secret) ↔ ∃ idHex secretHex, s = tokenPrefix ++ (idHex ++ '_' :: secretHex) ∧
      hexDecode 16 idHex = some id ∧ hexDecode 32 secretHex = some secret := by
  constructor
  · intro h
    simp only [parsePlaintext, Option.bind_eq_bind, Option.bind_eq_some_iff, Option.pure_def,
      Option.some.injEq, Prod.mk.injEq] at h
    obtain ⟨body, hbody, ⟨idHex, secretHex⟩, hsplit, id', hid, secret', hsecret, rfl, rfl⟩ := h
    rw [Str.stripPrefix_eq_some] at hbody
    obtain ⟨rfl, -⟩ := Str.splitOnce_eq_some.mp hsplit
    exact ⟨idHex, secretHex, hbody, hid, hsecret⟩
  · rintro ⟨idHex, secretHex, rfl, hid, hsecret⟩
    have hsep := notMem_of_hexDigits (hexDecode_eq_some.mp hid).1
    simp only [parsePlaintext, Str.stripPrefix_append, Option.bind_eq_bind, Option.bind_some,
      Str.splitOnce_append hsep, hid, hsecret]
    rfl

/-- Every token reads as what it was made of, and a text has another spelling of the same exactly if
    it has the shape of a token with an upper-case digit in it. -/
theorem plaintext_spelling_iff (s : Str) :
    (∀ id secret, parsePlaintext (formatPlaintext id secret) = some (id, secret)) ∧
      ((∀ id secret, parsePlaintext s = some (id, secret) → s = formatPlaintext id secret) ↔ ¬ UpperCased s) := by
  refine ⟨fun id secret => ?_, fun h hupper => ?_, fun hupper id secret h => ?_⟩
  · have hhalf : ∀ {n : ℕ} (b : ByteArr n), hexDecode n (hexEncode b.val) = some b := by
      intro n b
      obtain ⟨hdigits, hlen, hpairs⟩ := hexEncode_facts b.val
      rw [b.property] at hlen
      rw [hexDecode, bytes_of_hexDigits hdigits, List.length_map, if_neg (not_not.mpr hlen), hpairs]
      simp [b.property]
    exact parsePlaintext_eq_some.mpr ⟨_, _, rfl, hhalf id, hhalf secret⟩
  · obtain ⟨idHex, secretHex, rfl, hlen, hlen', hdigits, c, hc, hcupper⟩ := hupper
    obtain ⟨id, hid⟩ := @exists_hexDecode 16 _ (fun d hd => hdigits d (List.mem_append_left _ hd)) hlen
    obtain ⟨secret, hsecret⟩ := @exists_hexDecode 32 _ (fun d hd => hdigits d (List.mem_append_right _ hd)) hlen'
    have hsame := h id secret (parsePlaintext_eq_some.mpr ⟨_, _, rfl, hid, hsecret⟩)
    obtain ⟨-, -, hencode⟩ := hexDecode_eq_some.mp hid
    obtain ⟨-, -, hencode'⟩ := hexDecode_eq_some.mp hsecret
    rw [formatPlaintext, hencode, hencode', List.append_cancel_left_eq] at hsame
    obtain ⟨hfirst, hsecond⟩ := List.append_inj hsame (by simp)
    have hlower : c.toLower = c := by
      rcases List.mem_append.mp hc with hc | hc
      · exact map_toLower_eq_self_iff.mp hfirst.symm c hc
      · exact map_toLower_eq_self_iff.mp (List.cons_injective hsecond).symm c hc
    exact (toLower_eq_self_iff c (hdigits c hc)).mp hlower hcupper
  · obtain ⟨idHex, secretHex, rfl, hid, hsecret⟩ := parsePlaintext_eq_some.mp h
    obtain ⟨hdigits, hlen, hencode⟩ := hexDecode_eq_some.mp hid
    obtain ⟨hdigits', hlen', hencode'⟩ := hexDecode_eq_some.mp hsecret
    have hall : ∀ c ∈ idHex ++ secretHex, c ∈ hexDigits :=
      fun c hc => (List.mem_append.mp hc).elim (hdigits c) (hdigits' c)
    have hlower : ∀ c ∈ idHex ++ secretHex, c.toLower = c := by
      rintro c hc
      refine (toLower_eq_self_iff c (hall c hc)).mpr fun hcupper => hupper ?_
      exact ⟨idHex, secretHex, rfl, hlen, hlen', hall, c, hc, hcupper⟩
    rw [formatPlaintext, hencode, hencode',
      map_toLower_eq_self_iff.mpr fun c hc => hlower c (List.mem_append_left _ hc),
      map_toLower_eq_self_iff.mpr fun c hc => hlower c (List.mem_append_right _ hc)]

/-- The token of the zero id and of a secret of `0xab` bytes, with its secret in upper case. -/
def shouted : Str := tokenPrefix ++ (List.replicate 32 '0' ++ '_' :: (List.replicate 32 ['A', 'B']).flatten)

/-- It is read, and it is not how the token is written. -/
theorem shouted_second_spelling : ∃ id secret,
    parsePlaintext shouted = some (id, secret) ∧ shouted ≠ formatPlaintext id secret :=
  ⟨.fill 16 0, .fill 32 0xab, by decide +kernel, by decide +kernel⟩

end Arcature.Tokens

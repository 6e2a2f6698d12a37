import Arcature.Crypt.AppKey
import Arcature.Crypt.Canonical

/-! Encrypted tokens (`crypt/encrypter.rs`).

    A token is a version tag and the base64url text of a nonce and of what the cipher sealed under it:

        encrypt   plaintext ──seal nonce──▶ sealed ──▶ "v1." ++ base64url (nonce ++ sealed)
        decrypt   no "v1." ──▶ UnknownVersion
                  no base64url, or of fewer than 24 + 16 bytes ──▶ Malformed
                  not opened by the cipher ──▶ Authentication
                  not the bytes of a text, where one is asked for ──▶ NotUtf8

    For a cipher that opens exactly what it seals, `decrypt` takes exactly the tokens that `encrypt` issues, in
    one spelling each, and each error has the texts it stands for (`sealing`). -/

namespace Arcature.Crypt
open Arcature.Lib

/-- `VERSION`, and the dot behind it. -/
def tokenTag : Str := "v1.".toList

/-- `NONCE_BYTES`. -/
def nonceBytes : ℕ := 24

/-- `TAG_BYTES`. -/
def tagBytes : ℕ := 16

/-- `ASSOCIATED_DATA`. -/
def associatedData : Bytes := Str.bytes "arcature/crypt/v1".toList

/-- An authenticated cipher of the kind of XChaCha20-Poly1305: what it seals a message to, if it is not too long,
    and what it opens, under a key and a nonce, with associated data. -/
structure Aead where
  encrypt : ByteArr 32 → ByteArr nonceBytes → Bytes → Bytes → Option Bytes
  decrypt : ByteArr 32 → ByteArr nonceBytes → Bytes → Bytes → Option Bytes

/-- The cipher appends a tag, and opens what it has sealed and nothing else. -/
structure Aead.Lawful (A : Aead) : Prop where
  length : ∀ {key nonce aad msg sealed}, A.encrypt key nonce aad msg = some sealed →
    sealed.length = msg.length + tagBytes
  opens : ∀ {key nonce aad msg sealed}, A.decrypt key nonce aad sealed = some msg ↔
    A.encrypt key nonce aad msg = some sealed

/-- `EncryptError`. -/
inductive EncryptError where
  | rng
  | oversized
  deriving DecidableEq

/-- `DecryptError`. -/
inductive DecryptError where
  | unknownVersion
  | malformed
  | authentication
  | notUtf8
  deriving DecidableEq

/-- `Encrypter`. -/
structure Encrypter where
  cipher : Aead
  material : ByteArr 32

namespace Encrypter

/-- `Encrypter::new`. -/
def new (cipher : Aead) (hmac : Bytes → Bytes → ByteArr 32) (key : AppKey) : Encrypter :=
  ⟨cipher, key.subkey hmac AppKey.encrypterLabel⟩

variable (E : Encrypter)

/-- `encrypt`, with what the random number generator has drawn. -/
def encrypt (nonce : Option (ByteArr nonceBytes)) (plaintext : Bytes) : Except EncryptError Str :=
  match nonce with
  | none => .error .rng
  | some nonce =>
    match E.cipher.encrypt E.material nonce associatedData plaintext with
    | none => .error .oversized
    | some sealed => .ok (tokenTag ++ Base64Url.encode (nonce.val ++ sealed))

/-- `encrypt_string`. -/
def encryptString (nonce : Option (ByteArr nonceBytes)) (plaintext : Str) : Except EncryptError Str :=
  E.encrypt nonce plaintext.bytes

/-- The end of `decrypt`, for the bytes of a token. -/
def openRaw (raw : Bytes) : Except DecryptError Bytes :=
  if raw.length < nonceBytes + tagBytes then .error .malformed
  else if h : (raw.take nonceBytes).length = nonceBytes then
    match E.cipher.decrypt E.material ⟨raw.take nonceBytes, h⟩ associatedData (raw.drop nonceBytes) with
    | none => .error .authentication
    | some msg => .ok msg
  else .error .malformed

/-- `decrypt`. -/
def decrypt (token : Str) : Except DecryptError Bytes :=
  match Str.stripPrefix tokenTag token with
  | none => .error .unknownVersion
  | some body =>
    match Base64Url.decode body with
    | none => .error .malformed
    | some raw => E.openRaw raw

/-- `decrypt_string`. -/
def decryptString (token : Str) : Except DecryptError Str := do
  let plaintext ← E.decrypt token
  match Str.ofBytes? plaintext with
  | none => .error .notUtf8
  | some text => .ok text

end Encrypter

/-! ### The vocabulary of the property -/

/-- The token of a nonce and of what was sealed under it, whoever made them up. -/
def tokenOf (nonce : ByteArr nonceBytes) (sealed : Bytes) : Str := tokenTag ++ Base64Url.encode (nonce.val ++ sealed)

/-- What `decrypt` makes of every text. -/
structure Sealing (E : Encrypter) : Prop where
  opens : ∀ token plaintext, E.decrypt token = .ok plaintext ↔ ∃ nonce, E.encrypt (some nonce) plaintext = .ok token
  once : ∀ nonce nonce' plaintext plaintext' token, E.encrypt (some nonce) plaintext = .ok token →
    E.encrypt (some nonce') plaintext' = .ok token → nonce = nonce' ∧ plaintext = plaintext'
  texts : ∀ token text, E.decryptString token = .ok text ↔ ∃ nonce, E.encryptString (some nonce) text = .ok token
  unknownVersion : ∀ token, E.decrypt token = .error .unknownVersion ↔ ¬ tokenTag <+: token
  malformed : ∀ token, E.decrypt token = .error .malformed ↔ tokenTag <+: token ∧
    ∀ nonce sealed, token = tokenOf nonce sealed → sealed.length < tagBytes
  authentication : ∀ token, E.decrypt token = .error .authentication ↔
    ∃ nonce sealed, token = tokenOf nonce sealed ∧ tagBytes ≤ sealed.length ∧
      ∀ plaintext, E.encrypt (some nonce) plaintext ≠ .ok token
  notUtf8 : ∀ token, E.decryptString token = .error .notUtf8 ↔
    ∃ plaintext, E.decrypt token = .ok plaintext ∧ Str.ofBytes? plaintext = none

/-! ### Tokens -/

theorem tokenOf_inj {nonce nonce' : ByteArr nonceBytes} {sealed sealed' : Bytes}
    (h : tokenOf nonce sealed = tokenOf nonce' sealed') : nonce = nonce' ∧ sealed = sealed' := by
  have hbody := congrArg Base64Url.decode (List.append_cancel_left h)
  rw [Base64Url.decode_encode, Base64Url.decode_encode] at hbody
  obtain ⟨hnonce, hsealed⟩ := List.append_inj (Option.some.inj hbody) (nonce.property.trans nonce'.property.symm)
  exact ⟨Subtype.ext hnonce, hsealed⟩

theorem encrypt_eq_ok {E : Encrypter} {nonce : ByteArr nonceBytes} {plaintext : Bytes} {token : Str} :
    E.encrypt (some nonce) plaintext = .ok token ↔
      ∃ sealed, E.cipher.encrypt E.material nonce associatedData plaintext = some sealed ∧
        token = tokenOf nonce sealed := by
  simp only [Encrypter.encrypt]
  cases h : E.cipher.encrypt E.material nonce associatedData plaintext with
  | none => simp
  | some sealed => simp [tokenOf, eq_comm]

/-- A text is no token, the token of too few bytes, or the token of a nonce and of what may have been sealed. -/
theorem token_cases (token : Str) :
    ¬ tokenTag <+: token ∨
      (∃ body, token = tokenTag ++ body ∧
        (Base64Url.decode body = none ∨ ∃ raw, Base64Url.decode body = some raw ∧ raw.length < nonceBytes + tagBytes)) ∨
      ∃ nonce sealed, token = tokenOf nonce sealed ∧ tagBytes ≤ sealed.length := by
  by_cases htag : tokenTag <+: token
  · obtain ⟨body, rfl⟩ := htag
    right
    cases hraw : Base64Url.decode body with
    | none => exact .inl ⟨body, rfl, .inl hraw⟩
    | some raw =>
      rcases lt_or_ge raw.length (nonceBytes + tagBytes) with hshort | hlong
      · exact .inl ⟨body, rfl, .inr ⟨raw, hraw, hshort⟩⟩
      · have hnonce : (raw.take nonceBytes).length = nonceBytes := by
          rw [List.length_take]
          omega
        refine .inr ⟨⟨raw.take nonceBytes, hnonce⟩, raw.drop nonceBytes, ?_, ?_⟩
        · rw [tokenOf, List.take_append_drop, Base64Url.encode_of_decode hraw]
        · rw [List.length_drop]
          omega
  · exact .inl htag

theorem decrypt_tokenOf (E : Encrypter) (nonce : ByteArr nonceBytes) {sealed : Bytes} (h : tagBytes ≤ sealed.length) :
    E.decrypt (tokenOf nonce sealed) =
      match E.cipher.decrypt E.material nonce associatedData sealed with
      | none => .error .authentication
      | some msg => .ok msg := by
  have hlength : ¬ (nonce.val ++ sealed).length < nonceBytes + tagBytes := by
    rw [List.length_append, nonce.property]
    omega
  have htake : (nonce.val ++ sealed).take nonceBytes = nonce.val := List.take_left' nonce.property
  have hdrop : (nonce.val ++ sealed).drop nonceBytes = sealed := List.drop_left' nonce.property
  have hnonce : ∀ hlen, (⟨(nonce.val ++ sealed).take nonceBytes, hlen⟩ : ByteArr nonceBytes) = nonce :=
    fun hlen => Subtype.ext htake
  rw [Encrypter.decrypt, tokenOf, Str.stripPrefix_append]
  dsimp only
  rw [Base64Url.decode_encode]
  dsimp only
  rw [Encrypter.openRaw, if_neg hlength, dif_pos (by rw [htake, nonce.property]), hnonce, hdrop]

theorem decrypt_of_not_tag (E : Encrypter) {token : Str} (h : ¬ tokenTag <+: token) :
    E.decrypt token = .error .unknownVersion := by
  have hstrip : Str.stripPrefix tokenTag token = none := by
    cases hstrip : Str.stripPrefix tokenTag token with
    | none => rfl
    | some body => exact absurd ⟨body, (Str.stripPrefix_eq_some.mp hstrip).symm⟩ h
  rw [Encrypter.decrypt, hstrip]

theorem decrypt_of_short (E : Encrypter) {body : Str} (h : Base64Url.decode body = none ∨
    ∃ raw, Base64Url.decode body = some raw ∧ raw.length < nonceBytes + tagBytes) :
    E.decrypt (tokenTag ++ body) = .error .malformed := by
  rw [Encrypter.decrypt, Str.stripPrefix_append]
  dsimp only
  rcases h with hnone | ⟨raw, hraw, hshort⟩
  · rw [hnone]
  · rw [hraw]
    dsimp only
    rw [Encrypter.openRaw, if_pos hshort]

/-- A text that is too short for a token is not the token of a sealed message. -/
theorem length_of_short {body : Str} (h : Base64Url.decode body = none ∨
    ∃ raw, Base64Url.decode body = some raw ∧ raw.length < nonceBytes + tagBytes) {nonce : ByteArr nonceBytes}
    {sealed : Bytes} (htoken : tokenTag ++ body = tokenOf nonce sealed) : sealed.length < tagBytes := by
  have hbody : Base64Url.decode body = some (nonce.val ++ sealed) := by
    rw [List.append_cancel_left htoken, Base64Url.decode_encode]
  rcases h with hnone | ⟨raw, hraw, hshort⟩
  · rw [hnone] at hbody
    cases hbody
  · rw [hraw] at hbody
    obtain rfl := Option.some.inj hbody
    rw [List.length_append, nonce.property] at hshort
    omega

theorem tag_prefix_tokenOf (nonce : ByteArr nonceBytes) (sealed : Bytes) : tokenTag <+: tokenOf nonce sealed :=
  List.prefix_append _ _

/-! ### The property -/

theorem decrypt_eq_ok {E : Encrypter} (hE : E.cipher.Lawful) {token : Str} {plaintext : Bytes} :
    E.decrypt token = .ok plaintext ↔ ∃ nonce, E.encrypt (some nonce) plaintext = .ok token := by
  constructor
  · intro h
    rcases token_cases token with htag | ⟨body, rfl, hshort⟩ | ⟨nonce, sealed, rfl, hlong⟩
    · rw [decrypt_of_not_tag E htag] at h
      cases h
    · rw [decrypt_of_short E hshort] at h
      cases h
    · rw [decrypt_tokenOf E nonce hlong] at h
      cases hopen : E.cipher.decrypt E.material nonce associatedData sealed with
      | none => simp [hopen] at h
      | some msg =>
        simp only [hopen, Except.ok.injEq] at h
        subst h
        exact ⟨nonce, encrypt_eq_ok.mpr ⟨sealed, hE.opens.mp hopen, rfl⟩⟩
  · rintro ⟨nonce, h⟩
    obtain ⟨sealed, hsealed, rfl⟩ := encrypt_eq_ok.mp h
    have hlong : tagBytes ≤ sealed.length := by
      rw [hE.length hsealed]
      omega
    rw [decrypt_tokenOf E nonce hlong, hE.opens.mpr hsealed]

theorem decrypt_eq_authentication {E : Encrypter} (hE : E.cipher.Lawful) {nonce : ByteArr nonceBytes}
    {sealed : Bytes} (hlong : tagBytes ≤ sealed.length) : E.decrypt (tokenOf nonce sealed) = .error .authentication ↔
      ∀ plaintext, E.encrypt (some nonce) plaintext ≠ .ok (tokenOf nonce sealed) := by
  rw [decrypt_tokenOf E nonce hlong]
  cases hopen : E.cipher.decrypt E.material nonce associatedData sealed with
  | none =>
    refine iff_of_true rfl fun plaintext h => ?_
    obtain ⟨sealed', hsealed, htoken⟩ := encrypt_eq_ok.mp h
    obtain ⟨-, rfl⟩ := tokenOf_inj htoken
    rw [hE.opens.mpr hsealed] at hopen
    cases hopen
  | some msg =>
    refine iff_of_false (fun h => by cases h) fun h => ?_
    exact h msg (encrypt_eq_ok.mpr ⟨sealed, hE.opens.mp hopen, rfl⟩)

theorem decrypt_ne_notUtf8 (E : Encrypter) (token : Str) : E.decrypt token ≠ .error .notUtf8 := by
  intro h
  rcases token_cases token with htag | ⟨body, rfl, hshort⟩ | ⟨nonce, sealed, rfl, hlong⟩
  · rw [decrypt_of_not_tag E htag] at h
    cases h
  · rw [decrypt_of_short E hshort] at h
    cases h
  · rw [decrypt_tokenOf E nonce hlong] at h
    cases hopen : E.cipher.decrypt E.material nonce associatedData sealed <;> simp [hopen] at h

/-- What `decrypt` takes is what `encrypt` issues, and what it refuses it refuses for the reason it names. -/
theorem sealing (E : Encrypter) (hE : E.cipher.Lawful) : Sealing E where
  opens _ _ := decrypt_eq_ok hE
  once nonce nonce' plaintext plaintext' token h h' := by
    obtain ⟨sealed, hsealed, rfl⟩ := encrypt_eq_ok.mp h
    obtain ⟨sealed', hsealed', htoken⟩ := encrypt_eq_ok.mp h'
    obtain ⟨rfl, rfl⟩ := tokenOf_inj htoken
    exact ⟨rfl, Option.some.inj ((hE.opens.mpr hsealed).symm.trans (hE.opens.mpr hsealed'))⟩
  texts token text := by
    have hiff : E.decryptString token = .ok text ↔ E.decrypt token = .ok text.bytes := by
      rw [Encrypter.decryptString]
      cases hplain : E.decrypt token with
      | error e => exact iff_of_false (fun h => by cases h) fun h => by cases h
      | ok plaintext =>
        change (match Str.ofBytes? plaintext with
          | none => Except.error DecryptError.notUtf8
          | some text => .ok text) = .ok text ↔ _
        cases htext : Str.ofBytes? plaintext with
        | none =>
          refine iff_of_false (fun h => by cases h) fun h => ?_
          rw [Except.ok.inj h, Str.ofBytes?_bytes] at htext
          cases htext
        | some text' =>
          rw [Str.ofBytes?_eq_some] at htext
          subst htext
          rw [Except.ok.injEq, Except.ok.injEq]
          exact ⟨congrArg Str.bytes, fun h => Option.some.inj (by
            rw [← Str.ofBytes?_bytes text', h, Str.ofBytes?_bytes])⟩
    exact hiff.trans (decrypt_eq_ok hE)
  unknownVersion token := by
    rcases token_cases token with htag | ⟨body, rfl, hshort⟩ | ⟨nonce, sealed, rfl, hlong⟩
    · exact iff_of_true (decrypt_of_not_tag E htag) htag
    · rw [decrypt_of_short E hshort]
      exact iff_of_false (fun h => by cases h) fun h => h (List.prefix_append _ _)
    · rw [decrypt_tokenOf E nonce hlong]
      refine iff_of_false (fun h => ?_) fun h => h (tag_prefix_tokenOf _ _)
      cases hopen : E.cipher.decrypt E.material nonce associatedData sealed <;> simp [hopen] at h
  malformed token := by
    rcases token_cases token with htag | ⟨body, rfl, hshort⟩ | ⟨nonce, sealed, rfl, hlong⟩
    · rw [decrypt_of_not_tag E htag]
      exact iff_of_false (fun h => by cases h) fun h => htag h.1
    · exact iff_of_true (decrypt_of_short E hshort)
        ⟨List.prefix_append _ _, fun nonce sealed htoken => length_of_short hshort htoken⟩
    · rw [decrypt_tokenOf E nonce hlong]
      refine iff_of_false (fun h => ?_) fun h => absurd (h.2 nonce sealed rfl) (by omega)
      cases hopen : E.cipher.decrypt E.material nonce associatedData sealed <;> simp [hopen] at h
  authentication token := by
    constructor
    · intro h
      rcases token_cases token with htag | ⟨body, rfl, hshort⟩ | ⟨nonce, sealed, rfl, hlong⟩
      · rw [decrypt_of_not_tag E htag] at h
        cases h
      · rw [decrypt_of_short E hshort] at h
        cases h
      · exact ⟨nonce, sealed, rfl, hlong, (decrypt_eq_authentication hE hlong).mp h⟩
    · rintro ⟨nonce, sealed, rfl, hlong, hnone⟩
      exact (decrypt_eq_authentication hE hlong).mpr hnone
  notUtf8 token := by
    rw [Encrypter.decryptString]
    cases hplain : E.decrypt token with
    | error e =>
      refine iff_of_false (fun h => ?_) ?_
      · obtain rfl : e = .notUtf8 := Except.error.inj h
        exact decrypt_ne_notUtf8 E token hplain
      · rintro ⟨plaintext, h, -⟩
        cases h
    | ok plaintext =>
      change (match Str.ofBytes? plaintext with
        | none => Except.error DecryptError.notUtf8
        | some text => .ok text) = .error .notUtf8 ↔ _
      cases htext : Str.ofBytes? plaintext with
      | none => exact iff_of_true rfl ⟨plaintext, rfl, htext⟩
      | some text =>
        refine iff_of_false (fun h => by cases h) ?_
        rintro ⟨plaintext', h, hnone⟩
        obtain rfl := Except.ok.inj h
        rw [htext] at hnone
        cases hnone

/-- A cipher that only appends a tag, which is the nonce and the key cut to its length. -/
def plainAead : Aead where
  encrypt key nonce _ msg := some (msg ++ (nonce.val ++ key.val).take tagBytes)
  decrypt key nonce _ sealed :=
    if sealed.drop (sealed.length - tagBytes) = (nonce.val ++ key.val).take tagBytes then
      some (sealed.take (sealed.length - tagBytes))
    else none

theorem length_plainTag (key : ByteArr 32) (nonce : ByteArr nonceBytes) :
    ((nonce.val ++ key.val).take tagBytes).length = tagBytes := by
  rw [List.length_take, List.length_append, nonce.property, key.property]
  rfl

theorem lawful_plainAead : plainAead.Lawful where
  length {key nonce aad msg sealed} h := by
    obtain rfl := Option.some.inj h
    rw [List.length_append, length_plainTag]
  opens {key nonce aad msg sealed} := by
    have htag := length_plainTag key nonce
    simp only [plainAead, Option.some.injEq]
    constructor
    · intro h
      split_ifs at h with hdrop
      rw [← Option.some.inj h, ← hdrop, List.take_append_drop]
    · rintro rfl
      rw [List.length_append, htag, Nat.add_sub_cancel, List.drop_left, if_pos rfl, List.take_left]

/-- The property of an encrypter over such a cipher. -/
theorem sealing_plain : Sealing ⟨plainAead, ⟨List.replicate 32 0, rfl⟩⟩ :=
  sealing ⟨plainAead, ⟨List.replicate 32 0, rfl⟩⟩ lawful_plainAead

end Arcature.Crypt

import Arcature.Crypt.Canonical
import Arcature.Lib.Clock

/-! What the reset links and the remember-me cookies share: a plaintext of two base64url halves
    behind a literal opening, a digest of the secret half, a deadline
    (`auth/flows/reset/token.rs`, `auth/flows/remember/token.rs` and the `deadline`, `digest_of` and
    `stored_time` of the two stores).

        opening ++ base64url(id, 16 bytes) ++ "." ++ base64url(secret, 32 bytes) -/

namespace Arcature.Auth
open Arcature.Lib Arcature.Crypt

/-- The public half of a plaintext. -/
abbrev PublicId := ByteArr 16

/-- The secret half of a plaintext. -/
abbrev Secret := ByteArr 32

/-- What a secret is stored as. -/
abbrev Digest := ByteArr 32

/-- What a store is built over: the digest, and how its dialect represents an instant. -/
structure Backend where
  digestOf : Secret → Digest
  storedTime : Instant → ℤ

/-- The instant a time-to-live ends, if the calendar reaches it. -/
def deadline (now : Instant) (ttl : Duration) : Option Instant :=
  (Clock.fromStd ttl).bind (Clock.checkedAdd now)

/-- `try_into` a fixed-length array. -/
def tryInto (n : ℕ) (b : Bytes) : Option (ByteArr n) :=
  if h : b.length = n then some ⟨b, h⟩ else none

/-- Assemble a plaintext. -/
def formatHalves (opening : Str) (id : PublicId) (secret : Secret) : Str :=
  opening ++ (Base64Url.encode id.val ++ '.' :: Base64Url.encode secret.val)

/-- Split a presented plaintext into its halves. -/
def parseHalves (opening presented : Str) : Option (PublicId × Secret) := do
  let body ← Str.stripPrefix opening presented
  let (idText, secretText) ← body.splitOnce '.'
  let id ← (Base64Url.decode idText).bind (tryInto 16)
  let secret ← (Base64Url.decode secretText).bind (tryInto 32)
  return (id, secret)

/-- A backend to evaluate runs on: an injective digest, instants stored as they are. -/
def Backend.plain : Backend := ⟨id, id⟩

theorem tryInto_val {n : ℕ} (b : ByteArr n) : tryInto n b.val = some b := by
  simp [tryInto, b.property]

/-- A minted plaintext parses back to what went in. -/
theorem parseHalves_format (opening : Str) (id : PublicId) (secret : Secret) :
    parseHalves opening (formatHalves opening id secret) = some (id, secret) := by
  simp only [parseHalves, formatHalves, Str.stripPrefix_append, Option.bind_eq_bind,
    Option.bind_some, Str.splitOnce_append (Base64Url.dot_notMem_encode id.val),
    Base64Url.decode_encode, tryInto_val]
  rfl

theorem tryInto_eq_some {n : ℕ} {b : Bytes} {out : ByteArr n} : tryInto n b = some out ↔ b = out.val := by
  constructor
  · intro h
    rw [tryInto] at h
    split_ifs at h with hlength
    exact congrArg Subtype.val (Option.some.inj h)
  · rintro rfl
    exact tryInto_val out

/-- What parses as a pair of halves is what is minted from them. -/
theorem format_of_parseHalves {opening presented : Str} {id : PublicId} {secret : Secret}
    (h : parseHalves opening presented = some (id, secret)) : presented = formatHalves opening id secret := by
  simp only [parseHalves, Option.bind_eq_bind, Option.bind_eq_some_iff, Option.pure_def, Option.some.injEq,
    Prod.mk.injEq] at h
  obtain ⟨body, hbody, ⟨idText, secretText⟩, hsplit, id', ⟨idBytes, hid, hinto⟩, secret',
    ⟨secretBytes, hsecret, hinto'⟩, rfl, rfl⟩ := h
  obtain ⟨rfl, -⟩ := Str.splitOnce_eq_some.mp hsplit
  rw [tryInto_eq_some] at hinto hinto'
  subst hinto hinto'
  rw [Str.stripPrefix_eq_some.mp hbody, formatHalves, Base64Url.encode_of_decode hid,
    Base64Url.encode_of_decode hsecret]

end Arcature.Auth

import Arcature.Crypt.Base64Url
import Arcature.Lib.Clock
import Arcature.Lib.Framing
import Arcature.Lib.Percent
import Mathlib.Data.Char
import Mathlib.Data.List.Lex
import Mathlib.Data.List.Sort
import Mathlib.Data.Prod.Lex

/-! Signed, expiring URLs (`crypt/signer.rs`).

    Three spellings of one list of parameters meet here: the query of a URL, percent-encoded and in
    the order of the sort; the query a request presents, in any order and any spelling; and what the
    MAC is computed over, sorted and length-prefixed.

        sign     path, params ──▶ MAC input ──▶ base/path?name=value&..&signature=v1.<MAC>
        verify   url ──▶ path, params, MAC ──▶ MAC input, compared ──▶ expiry -/

namespace Arcature.Crypt
open Arcature.Lib

/-- The query parameter the signature is carried in. -/
def signatureParam : Str := "signature".toList

/-- The query parameter the expiry is carried in. -/
def expiresParam : Str := "expires".toList

/-- The signature format's version tag. -/
def signatureVersion : Str := "v1".toList

/-- The domain separator the MAC starts from. -/
def macDomain : Bytes := Str.bytes "arcature/signed-url/v1".toList

/-- Why a URL could not be signed, or would not verify. -/
inductive SignedUrlError where
  | reservedParameter
  | queryInPath
  | foreignOrigin
  | missingSignature
  | unknownSignatureVersion
  | malformed
  | mismatch
  | expired
  deriving DecidableEq

/-- Names and values. -/
abbrev Params := List (Str × Str)

/-- What signs and checks: the MAC under the signer's subkey, and the configured base. -/
structure UrlSigner where
  mac : Bytes → ByteArr 32
  base : Str

/-- `AppConfig::base_url`. -/
def baseUrl (url : Str) : Str := (url.reverse.dropWhile fun c => c = '/').reverse

/-- A signer rooted at the configured `APP_URL`. -/
def UrlSigner.new (mac : Bytes → ByteArr 32) (url : Str) : UrlSigner := ⟨mac, baseUrl url⟩

/-- A URL taken apart into the three things verification needs. -/
structure Presented where
  path : Str
  params : Params
  signature : Bytes
  deriving DecidableEq

/-! ### Canonical forms -/

/-- What strings are compared by: their bytes. -/
def sortKey (p : Str × Str) : List ℕ ×ₗ List ℕ :=
  toLex (p.1.bytes.map UInt8.toNat, p.2.bytes.map UInt8.toNat)

/-- Sort parameters into the one order the MAC is defined over. -/
def sortCanonically (params : Params) : Params :=
  params.insertionSort fun left right => sortKey left ≤ sortKey right

/-- Exactly one leading slash. -/
def canonicalPath (path : Str) : Str := '/' :: path.dropWhile fun c => c = '/'

/-- Percent-decode one query component. -/
def decodeComponent (raw : Str) : Except SignedUrlError Str :=
  match Str.ofBytes? (percentDecode raw.bytes) with
  | some text => .ok text
  | none => .error .malformed

/-- What is fed to the MAC for a path and its parameters. -/
def macInput (path : Str) (params : Params) : Bytes :=
  macDomain ++ (frame path.bytes ++ (be64 params.length ++
    (sortCanonically params).flatMap fun (name, value) => frame name.bytes ++ frame value.bytes))

/-- `value.parse::<u64>()`: an optional `+`, then decimal digits within the range. -/
def parseU64 (s : Str) : Option ℕ :=
  let digits := match s with
    | '+' :: rest => rest
    | _ => s
  if digits = [] ∨ digits.any (fun c => !c.isDigit) then none
  else
    let n := Nat.ofDigitChars 10 digits 0
    if n < 2 ^ 64 then some n else none

/-! ### Signing -/

/-- Every pair that is signed: the caller's, and the expiry if there is one. -/
def signedParams (params : Params) (expiresAt : Option UInt64) : Params :=
  params ++ expiresAt.toList.map fun e => (expiresParam, Nat.toDigits 10 e.toNat)

namespace UrlSigner

/-- The MAC over the canonical form of `path` and `params`. -/
def signatureOf (S : UrlSigner) (path : Str) (params : Params) : ByteArr 32 :=
  S.mac (macInput path params)

/-- Assemble and sign a URL. -/
def build (S : UrlSigner) (path : Str) (params : Params) (expiresAt : Option UInt64) :
    Except SignedUrlError Str :=
  if '?' ∈ path ∨ '#' ∈ path then .error .queryInPath
  else if params.any fun (name, _) => name = signatureParam || name = expiresParam then
    .error .reservedParameter
  else
    let path := canonicalPath path
    let all := signedParams params expiresAt
    let signature := S.signatureOf path all
    let query := (sortCanonically all).flatMap fun (name, value) =>
      percentEncode name.bytes ++ '=' :: (percentEncode value.bytes ++ ['&'])
    .ok (S.base ++ path ++ '?' :: (query ++ signatureParam ++ '=' :: (signatureVersion ++ '.' ::
      Base64Url.encode signature.val)))

/-- Sign a URL that does not expire. -/
def sign (S : UrlSigner) (path : Str) (params : Params) : Except SignedUrlError Str :=
  S.build path params none

/-- Sign a URL that stops verifying `validFor` from `now`. -/
def signTemporary (S : UrlSigner) (now : UInt64) (path : Str) (params : Params) (validFor : Duration) :
    Except SignedUrlError Str :=
  S.build path params (some (UInt64.ofNat (min (now.toNat + validFor / 10 ^ 9) (2 ^ 64 - 1))))

/-! ### Verifying -/

/-- What of a URL lies under the base: it is absolute under it, or a path and query. -/
def relative (S : UrlSigner) (url : Str) : Except SignedUrlError Str :=
  match Str.stripPrefix S.base url with
  | some rest =>
    if rest = [] ∨ rest.head? = some '/' ∨ rest.head? = some '?' then .ok rest
    else .error .foreignOrigin
  | none => if url.head? = some '/' then .ok url else .error .foreignOrigin

/-- The path and the query of what lies under the base, without a fragment. -/
def target (S : UrlSigner) (url : Str) : Except SignedUrlError (Str × Str) :=
  (S.relative url).map fun rest =>
    let rest := rest.takeWhile fun c => c ≠ '#'
    (Str.splitOnce '?' rest).getD (rest, [])

end UrlSigner

/-- The pairs of a query, empty ones apart, each cut at its first `=`. -/
def rawPairs (query : Str) : List (Str × Str) :=
  ((query.splitOn '&').filter fun pair => pair ≠ []).map fun pair =>
    (Str.splitOnce '=' pair).getD (pair, [])

/-- One turn of the loop of `parse`: a parameter more, or the one signature. -/
def readPair (acc : Params × Option Str) (pair : Str × Str) :
    Except SignedUrlError (Params × Option Str) := do
  let name ← decodeComponent pair.1
  let value ← decodeComponent pair.2
  if name = signatureParam then
    match acc.2 with
    | some _ => .error .malformed
    | none => .ok (acc.1, some value)
  else .ok (acc.1 ++ [(name, value)], acc.2)

namespace UrlSigner

/-- Split a URL into the pieces the MAC is computed over, plus the signature it presented. -/
def parse (S : UrlSigner) (url : Str) : Except SignedUrlError Presented := do
  let (rawPath, rawQuery) ← S.target url
  let (params, presented) ← (rawPairs rawQuery).foldlM readPair ([], none)
  match presented with
  | none => .error .missingSignature
  | some presented =>
    match (Str.stripPrefix signatureVersion presented).bind (Str.stripPrefix ['.']) with
    | none => .error .unknownSignatureVersion
    | some body =>
      match Base64Url.decode body with
      | none => .error .malformed
      | some signature => .ok ⟨canonicalPath rawPath, params, signature⟩

/-- Check a URL at the clock reading `now`. -/
def verify (S : UrlSigner) (now : UInt64) (url : Str) : Except SignedUrlError Unit := do
  let ⟨path, params, signature⟩ ← S.parse url
  if signature ≠ (S.signatureOf path params).val then .error .mismatch
  else
    match params.find? fun p => p.1 = expiresParam with
    | none => .ok ()
    | some (_, value) =>
      match parseU64 value with
      | none => .error .malformed
      | some expiresAt => if expiresAt < now.toNat then .error .expired else .ok ()

end UrlSigner

end Arcature.Crypt

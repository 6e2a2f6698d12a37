import Arcature.Lib.Clock
import Arcature.Lib.Owned
import Arcature.Lib.Sort
import Arcature.Lib.Text
import Mathlib.Data.Prod.Lex

/-! Personal access tokens: the `arcature_api_tokens` table, the statements of `tokens/dialect/*.rs`
    and the methods of `ApiTokens` (`tokens/store.rs`, `tokens/token.rs`).

        issue         INSERT_NEW (again with a fresh id if the id is taken)
        authenticate  AUTHENTICATE id, compare digests ──▶ the token, or nothing -/

namespace Arcature.Tokens
open Arcature.Lib

/-- The public half of a token. -/
abbrev ApiTokenId := ByteArr 16

/-- The secret half of a token. -/
abbrev Secret := ByteArr 32

/-- What a secret is stored as. -/
abbrev Digest := ByteArr 32

/-- One row of `arcature_api_tokens`. -/
structure TokenRow where
  id : ApiTokenId
  secretDigest : Digest
  tokenableId : String
  name : String
  abilities : List String
  expiresAt : ℤ
  createdAt : ℤ

/-- `id` is the primary key, `tokenable_id` the subject the token acts for. -/
abbrev records : Owned TokenRow ApiTokenId where
  key := TokenRow.id
  subject := TokenRow.tokenableId
  withSubject tokenableId r := { r with tokenableId }
  key_withSubject _ _ := rfl
  subject_withSubject _ _ := rfl

/-- The token table. -/
abbrev TokenTable := Table records.schema

/-! ### The plaintext -/

/-- The fixed opening of a token. -/
def tokenPrefix : Str := "arcpat_".toList

/-- The lowercase hex alphabet. -/
def hexAlphabet : List Char := "0123456789abcdef".toList

/-- `hex_encode`. -/
def hexEncode (bytes : Bytes) : Str :=
  bytes.flatMap fun byte =>
    [hexAlphabet.getD (byte.toNat / 16) '0', hexAlphabet.getD (byte.toNat % 16) '0']

/-- `nibble`. -/
def nibble (byte : UInt8) : Option ℕ :=
  let n := byte.toNat
  if 48 ≤ n ∧ n ≤ 57 then some (n - 48)
  else if 97 ≤ n ∧ n ≤ 102 then some (n - 97 + 10)
  else if 65 ≤ n ∧ n ≤ 70 then some (n - 65 + 10)
  else none

/-- The bytes of pairs of digits. -/
def hexPairs : Bytes → Option Bytes
  | high :: low :: rest => do
    let h ← nibble high
    let l ← nibble low
    let bytes ← hexPairs rest
    pure (UInt8.ofNat (h * 16 + l) :: bytes)
  | _ => some []

/-- `hex_decode` into `n` bytes. -/
def hexDecode (n : ℕ) (text : Str) : Option (ByteArr n) :=
  if text.bytes.length ≠ n * 2 then none
  else (hexPairs text.bytes).bind fun bytes => if h : bytes.length = n then some ⟨bytes, h⟩ else none

/-- `format_plaintext`. -/
def formatPlaintext (id : ApiTokenId) (secret : Secret) : Str :=
  tokenPrefix ++ (hexEncode id.val ++ '_' :: hexEncode secret.val)

/-- `parse_plaintext`. -/
def parsePlaintext (presented : Str) : Option (ApiTokenId × Secret) := do
  let body ← Str.stripPrefix tokenPrefix presented
  let (idHex, secretHex) ← body.splitOnce '_'
  let id ← hexDecode 16 idHex
  let secret ← hexDecode 32 secretHex
  pure (id, secret)

/-! ### The statements -/

/-- One statement with what it binds; `now` is the server's clock. -/
inductive Statement where
  | insertNew (id : ApiTokenId) (secretDigest : Digest) (tokenableId name : String)
      (abilities : List String) (expiresAt createdAt : ℤ)
  | find (id : ApiTokenId) (now : ℤ)
  | authenticate (id : ApiTokenId) (now : ℤ)
  | listFor (tokenableId : String) (now : ℤ)
  | delete (id : ApiTokenId)
  | deleteFor (tokenableId : String)
  | deleteExpired (now : ℤ)

/-- The statement's text. The name goes into a text column like the subject's. -/
def sql (C : TextColumn) : Statement → records.Stmt
  | .insertNew id secretDigest tokenableId name abilities expiresAt createdAt =>
    .insert ⟨id, secretDigest, tokenableId, C.keep name, abilities, expiresAt, createdAt⟩
  | .find id now | .authenticate id now =>
    .select none (fun r => r.id = id && now < r.expiresAt) false
  | .listFor tokenableId now => .select (some tokenableId) (fun r => now < r.expiresAt) false
  | .delete id => .delete none fun r => r.id = id
  | .deleteFor tokenableId => .delete (some tokenableId) fun _ => true
  | .deleteExpired now => .delete none fun r => r.expiresAt ≤ now

/-- `ORDER BY created_at DESC, id`. -/
def newestFirst (r : TokenRow) : ℤᵒᵈ ×ₗ List ℕ :=
  toLex (OrderDual.toDual r.createdAt, r.id.val.map UInt8.toNat)

/-! ### The methods -/

/-- A token as the database holds it, without the digest. -/
structure ApiToken where
  id : ApiTokenId
  tokenableId : String
  name : String
  abilities : List String
  expiresAt : ℤ
  createdAt : ℤ
  deriving DecidableEq

/-- `from_row`. -/
def ApiToken.fromRow (r : TokenRow) : ApiToken :=
  ⟨r.id, r.tokenableId, r.name, r.abilities, r.expiresAt, r.createdAt⟩

/-- What a token is minted from; the instants are as the dialect stores them. -/
structure NewApiToken where
  tokenableId : String
  name : String
  abilities : List String
  expiresAt : ℤ

/-- Why `issue` fails, other than by its database. -/
inductive ApiTokenError where
  | entropy
  | idCollision (attempts : ℕ)
  deriving DecidableEq

/-- How many fresh ids `issue` tries. -/
def issueAttempts : ℕ := 8

variable (C : TextColumn) (digestOf : Secret → Digest)

/-- The loop of `issue`, with the ids it draws; `none` is a failing source of randomness. -/
def issueLoop (t : TokenTable) (request : NewApiToken) (secret : Secret) (createdAt : ℤ) :
    ℕ → List (Option ApiTokenId) → TokenTable × Except ApiTokenError (ApiToken × Str)
  | 0, _ => (t, .error (.idCollision issueAttempts))
  | _ + 1, [] | _ + 1, none :: _ => (t, .error .entropy)
  | n + 1, some id :: draws =>
    match t.get? id with
    | some _ => issueLoop t request secret createdAt n draws
    | none =>
      (records.exec C t (sql C (.insertNew id (digestOf secret) request.tokenableId request.name
        request.abilities request.expiresAt createdAt)),
        .ok (⟨id, request.tokenableId, request.name, request.abilities, request.expiresAt, createdAt⟩,
          formatPlaintext id secret))

/-- `issue`. -/
def issue (t : TokenTable) (request : NewApiToken) (secret : Option Secret) (createdAt : ℤ)
    (draws : List (Option ApiTokenId)) : TokenTable × Except ApiTokenError (ApiToken × Str) :=
  match secret with
  | none => (t, .error .entropy)
  | some secret => issueLoop C digestOf t request secret createdAt issueAttempts draws

/-- `find`, at server time `now`. -/
def find (t : TokenTable) (id : ApiTokenId) (now : ℤ) : Option ApiToken :=
  (records.matched C t (sql C (.find id now))).head?.map ApiToken.fromRow

/-- `authenticate`, at server time `now`. -/
def authenticate (t : TokenTable) (presented : Str) (now : ℤ) : Option ApiToken := do
  let (id, secret) ← parsePlaintext presented
  let row ← (records.matched C t (sql C (.authenticate id now))).head?
  if digestOf secret = row.secretDigest then some (.fromRow row) else none

/-- `list_for`, at server time `now`. -/
def listFor (t : TokenTable) (tokenableId : String) (now : ℤ) : List ApiToken :=
  (sortByKey newestFirst (records.matched C t (sql C (.listFor tokenableId now)))).map ApiToken.fromRow

/-! ### What the methods return was written and read -/

variable {C} {digestOf}

/-- A token that is returned is the one its last statement inserted, for the subject it was asked for. -/
theorem issueLoop_inserted {t t' : TokenTable} {request : NewApiToken} {secret : Secret} {createdAt : ℤ}
    {token : ApiToken} {plaintext : Str} : ∀ {n : ℕ} {draws : List (Option ApiTokenId)},
      issueLoop C digestOf t request secret createdAt n draws = (t', .ok (token, plaintext)) →
        t.get? token.id = none ∧ token.tokenableId = request.tokenableId ∧
          t' = records.exec C t (sql C (.insertNew token.id (digestOf secret) request.tokenableId
            request.name request.abilities request.expiresAt createdAt))
  | 0, _, h => by cases h
  | _ + 1, [], h => by cases h
  | _ + 1, none :: _, h => by cases h
  | n + 1, some id :: draws, h => by
    rw [issueLoop] at h
    cases hfree : t.get? id with
    | some r =>
      rw [hfree] at h
      exact issueLoop_inserted h
    | none =>
      rw [hfree] at h
      cases h
      exact ⟨hfree, rfl, rfl⟩

theorem mem_reported {t : TokenTable} {r : TokenRow} {scope : Option String} {p : TokenRow → Bool}
    (h : r ∈ records.matched C t (.select scope p false)) :
    (r.id, r.tokenableId) ∈ records.reported C t (.select scope p false) :=
  List.mem_map.mpr ⟨r, h, rfl⟩

theorem authenticate_reported {t : TokenTable} {presented : Str} {now : ℤ} {token : ApiToken}
    (h : authenticate C digestOf t presented now = some token) :
    ∃ id secret, parsePlaintext presented = some (id, secret) ∧
      (token.id, token.tokenableId) ∈ records.reported C t (sql C (.authenticate id now)) := by
  obtain ⟨⟨id, secret⟩, hparse, hrow⟩ := Option.bind_eq_some_iff.mp h
  obtain ⟨row, hhead, htoken⟩ := Option.bind_eq_some_iff.mp hrow
  split_ifs at htoken
  obtain rfl := Option.some.inj htoken
  exact ⟨id, secret, hparse, mem_reported (List.mem_of_mem_head? hhead)⟩

theorem listFor_reported {t : TokenTable} {tokenableId : String} {now : ℤ} {token : ApiToken}
    (h : token ∈ listFor C t tokenableId now) :
    (token.id, token.tokenableId) ∈ records.reported C t (sql C (.listFor tokenableId now)) := by
  obtain ⟨r, hr, rfl⟩ := List.mem_map.mp h
  exact mem_reported ((perm_sortByKey _ _).mem_iff.mp hr)

end Arcature.Tokens

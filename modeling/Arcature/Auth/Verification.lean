import Arcature.Crypt.RoundTrip

/-! Email verification (`auth/flows/verification.rs`): a signed URL that also carries a MAC over the
    user key and the address the mail went to.

        link      prefix / user key, escaped / binding ? expires=.. & signature=..
        confirm   signature, then deadline, then the binding of the address the account has now

    Neither MAC is over the plain concatenation of its fields. Each field goes in behind its length,
    so that no byte can move from one into the next: what is fed to either names what it was made
    of (`macInput_inj`, `bindingInput_inj`). -/

namespace Arcature.Auth
open Arcature.Lib Arcature.Crypt

/-- The default opening of a verification link's path. -/
def defaultPath : Str := "/email/verify".toList

/-- The default time a link stays valid for. -/
def defaultValidFor : Duration := 60 * 60 * 10 ^ 9

/-- Why a verification link was not accepted. -/
inductive EmailVerificationError where
  | link (source : SignedUrlError)
  | addressChanged
  deriving DecidableEq

/-- Mints and checks email-verification links; the binding has a MAC of its own. -/
structure EmailVerification where
  signer : UrlSigner
  bindingMac : Bytes → ByteArr 32
  path : Str
  validFor : Duration

/-- What is fed to the binding's MAC for a user and an address. -/
def bindingInput (userKey email : Str) : Bytes := frame userKey.bytes ++ frame email.bytes

/-- Percent-encode one path segment. -/
def encodeSegment (segment : Str) : Str := percentEncode segment.bytes

namespace EmailVerification

/-- The flow of an application key and a configured base. -/
def new (mac bindingMac : Bytes → ByteArr 32) (appUrl : Str) : EmailVerification :=
  ⟨UrlSigner.new mac appUrl, bindingMac, defaultPath, defaultValidFor⟩

/-- The binding segment for one user and address. -/
def bindingOf (E : EmailVerification) (userKey email : Str) : Str :=
  Base64Url.encode (E.bindingMac (bindingInput userKey email)).val

/-- The path a link is minted for. -/
def linkPath (E : EmailVerification) (userKey email : Str) : Str :=
  E.path.rdropWhile (fun c => c = '/') ++ '/' :: (encodeSegment userKey ++ '/' ::
    E.bindingOf userKey email)

/-- Mint a link proving whoever reads `email` controls it. -/
def link (E : EmailVerification) (now : UInt64) (userKey email : Str) :
    Except EmailVerificationError Str :=
  (E.signer.signTemporary now (E.linkPath userKey email) [] E.validFor).mapError .link

/-- Check a link against the address the account holds now. -/
def confirm (E : EmailVerification) (now : UInt64) (url userKey binding currentEmail : Str) :
    Except EmailVerificationError Unit :=
  match E.signer.verify now url with
  | .error source => .error (.link source)
  | .ok () =>
    if binding.bytes ≠ (E.bindingOf userKey currentEmail).bytes then .error .addressChanged
    else .ok ()

end EmailVerification

/-! ### What the MACs are computed over -/

theorem bindingInput_inj {userKey userKey' email email' : Str} (hkey : userKey.len < 2 ^ 64)
    (hkey' : userKey'.len < 2 ^ 64) (hemail : email.len < 2 ^ 64) (hemail' : email'.len < 2 ^ 64)
    (h : bindingInput userKey email = bindingInput userKey' email') :
    userKey = userKey' ∧ email = email' := by
  obtain ⟨hkeys, hrest⟩ := frame_append_inj (by rwa [Str.length_bytes]) (by rwa [Str.length_bytes]) h
  rw [← List.append_nil (frame email.bytes), ← List.append_nil (frame email'.bytes)] at hrest
  obtain ⟨hemails, -⟩ :=
    frame_append_inj (by rwa [Str.length_bytes]) (by rwa [Str.length_bytes]) hrest
  exact ⟨Str.bytes_injective hkeys, Str.bytes_injective hemails⟩

/-- What is fed to either MAC is equal exactly for what it stands for: the same path with the same
    parameters in some order, the same user with the same address. Lengths are those of strings and
    lists in memory. -/
theorem mac_inputs_injective :
    (∀ path path' params params', Fits path params → Fits path' params' →
      (macInput path params = macInput path' params' ↔ path = path' ∧ params.Perm params')) ∧
    ∀ userKey userKey' email email' : Str, userKey.len < 2 ^ 64 → userKey'.len < 2 ^ 64 →
      email.len < 2 ^ 64 → email'.len < 2 ^ 64 →
      (bindingInput userKey email = bindingInput userKey' email' ↔
        userKey = userKey' ∧ email = email') := by
  refine ⟨fun path path' params params' hfits hfits' => ⟨macInput_inj hfits hfits', ?_⟩,
    fun userKey userKey' email email' hkey hkey' hemail hemail' =>
      ⟨bindingInput_inj hkey hkey' hemail hemail', ?_⟩⟩
  · rintro ⟨rfl, hperm⟩
    exact macInput_perm hperm path
  · rintro ⟨rfl, rfl⟩
    rfl

/-- A byte moved across the boundary of two fields is another input. -/
theorem mac_inputs_moved : bindingInput "ab".toList "c".toList ≠ bindingInput "a".toList "bc".toList := by
  intro h
  have hsame := (mac_inputs_injective.2 _ _ _ _ (by decide) (by decide) (by decide) (by decide)).mp h
  exact absurd hsame.1 (by decide)

/-! ### A link confirms the address it was mailed to -/

section Link

variable (E : EmailVerification) (hpath : '?' ∉ E.path ∧ '#' ∉ E.path) (now : UInt64)
  (userKey email : Str)

include hpath

/-- The user key and the binding add nothing to the path that cannot be signed. -/
theorem linkPath_signable :
    '?' ∉ E.linkPath userKey email ∧ '#' ∉ E.linkPath userKey email := by
  have hkept := (List.rdropWhile_prefix (fun c => decide (c = '/')) (l := E.path)).subset
  have hbinding := encode_plain (E.bindingMac (bindingInput userKey email)).val
  have hall : ∀ c, c ∉ E.path → c ∉ encodeSegment userKey → ¬ Plain c → c ≠ '/' →
      c ∉ E.linkPath userKey email := by
    intro c hfront hsegment hplain hslash hmem
    simp only [EmailVerification.linkPath, EmailVerification.bindingOf, List.mem_append,
      List.mem_cons, hslash, hsegment, false_or] at hmem
    rcases hmem with hmem | hmem
    · exact hfront (hkept hmem)
    · exact hplain (hbinding c hmem)
  exact ⟨hall _ hpath.1 (notMem_percentEncode (by decide) (by decide +kernel) _) (by decide)
    (by decide), hall _ hpath.2 (notMem_percentEncode (by decide) (by decide +kernel) _) (by decide)
    (by decide)⟩

/-- A link under a path that can be signed is accepted up to its deadline for the address it was
    minted for and, where the MAC tells the two addresses apart, for no other. -/
theorem confirm_link : ∃ url, E.link now userKey email = .ok url ∧ ∀ t current,
    Set.InjOn E.bindingMac {bindingInput userKey email, bindingInput userKey current} →
    userKey.len < 2 ^ 64 → email.len < 2 ^ 64 → current.len < 2 ^ 64 →
    (E.confirm t url userKey (E.bindingOf userKey email) current = .ok () ↔
      (t.toNat : ℚ) ≤ min (now.toNat + E.validFor.asSecs) (2 ^ 64 - 1) ∧ current = email) := by
  have hcut := linkPath_signable E hpath userKey email
  have hnone : ∀ p ∈ ([] : Params), p.1 ≠ signatureParam ∧ p.1 ≠ expiresParam := by simp
  have hbuild := build_eq_ok E.signer
    (some (UInt64.ofNat (min (now.toNat + E.validFor / 10 ^ 9) (2 ^ 64 - 1)))) hcut hnone
  have hself := respelled_self hcut (by simp) hbuild
  refine ⟨_, by rw [EmailVerification.link, UrlSigner.signTemporary, hbuild]; rfl, ?_⟩
  intro t current hinj hkey hemail hcurrent
  have hverify := verify_respelled hcut (by simp) hbuild hself t
  simp only [deadline_iff, ite_not] at hverify
  have hbound : E.bindingOf userKey email = E.bindingOf userKey current ↔ current = email := by
    refine ⟨fun h => ?_, fun h => by rw [h]⟩
    have hval := congrArg Base64Url.decode h
    simp only [EmailVerification.bindingOf, Base64Url.decode_encode, Option.some.injEq] at hval
    have hinput := hinj (by simp) (by simp) (Subtype.ext hval)
    exact (bindingInput_inj hkey hkey hemail hcurrent hinput).2.symm
  unfold EmailVerification.confirm
  rw [hverify]
  by_cases hlive : (t.toNat : ℚ) ≤ min (now.toNat + E.validFor.asSecs) (2 ^ 64 - 1)
  · simp [hlive, Str.bytes_injective.eq_iff, hbound]
  · simp [hlive]

end Link

end Arcature.Auth

import Arcature.Crypt.Binding
import Mathlib.Data.List.DropRight

/-! What is signed verifies, until it expires.

    The link is spelled three times over: the signer percent-encodes and sorts, the verifier cuts at
    `#`, `?`, `&` and `=` and decodes, and the MAC goes over a third form. A link that was passed
    around may come back with its pairs in another order, with a fragment behind it or without the
    base in front of it (`Respelled`); the verifier reads the same path, the same pairs up to order
    and the same MAC off every spelling (`parse_respelled`), so it gives every one the same verdict.

        base /path ? b=2 & signature=v1.. & a=1 # top      any order, any fragment
             /path ? a=1 & b=2 & signature=v1..            without the base

    Without its base a link is taken for one under the base if the base is itself the start of a
    path, so a base that starts with a slash has to stay. -/

namespace Arcature.Crypt
open Arcature.Lib

/-- `url'` is `url` with its query pairs in some order, with or without a fragment behind it, with
    or without the base, if that does not itself start with a slash. -/
def Respelled (S : UrlSigner) (url url' : Str) : Prop :=
  ∃ (path query : Str) (pairs : List Str) (front fragment : Str),
    url = S.base ++ path ++ '?' :: query ∧ '?' ∉ path ∧ pairs.Perm (query.splitOn '&') ∧
    (front = S.base ∨ front = [] ∧ S.base.head? ≠ some '/') ∧
    (fragment = [] ∨ fragment.head? = some '#') ∧
    url' = front ++ path ++ '?' :: (['&'].intercalate pairs ++ fragment)

/-! ### What a link is minted with -/

/-- What the signature's pair holds. -/
def signatureValue (signature : ByteArr 32) : Str :=
  signatureVersion ++ '.' :: Base64Url.encode signature.val

/-- A pair as the signer spells it. -/
def spell (p : Str × Str) : Str := percentEncode p.1.bytes ++ '=' :: percentEncode p.2.bytes

/-- The pairs of a minted query: those that were signed in the order of the sort, and the MAC. -/
def mintedPairs (all : Params) (signature : ByteArr 32) : List Str :=
  (sortCanonically all).map spell ++ [signatureParam ++ '=' :: signatureValue signature]

theorem flatMap_spell (l : Params) (last : Str) :
    (l.flatMap fun (name, value) =>
      percentEncode name.bytes ++ '=' :: (percentEncode value.bytes ++ ['&'])) ++ last =
      ['&'].intercalate (l.map spell ++ [last]) := by
  induction l with
  | nil => simp
  | cons p l ih =>
    rw [List.flatMap_cons, List.append_assoc, ih, List.map_cons, List.cons_append,
      List.intercalate_cons_of_ne_nil (by simp)]
    simp [spell]

/-- What the signer makes of a path and parameters it accepts. -/
theorem build_eq_ok (S : UrlSigner) {path : Str} {params : Params} (expiresAt : Option UInt64)
    (hpath : '?' ∉ path ∧ '#' ∉ path)
    (hparams : ∀ p ∈ params, p.1 ≠ signatureParam ∧ p.1 ≠ expiresParam) :
    S.build path params expiresAt = .ok (S.base ++ canonicalPath path ++ '?' ::
      ['&'].intercalate (mintedPairs (signedParams params expiresAt)
        (S.signatureOf (canonicalPath path) (signedParams params expiresAt)))) := by
  have hnames : (params.any fun (name, _) => name = signatureParam || name = expiresParam) = false := by
    rw [List.any_eq_false]
    intro p hp
    simpa using hparams p hp
  unfold UrlSigner.build
  rw [if_neg (by simp [hpath]), if_neg (by simp [hnames])]
  simp only [mintedPairs, ← flatMap_spell, signatureValue, List.append_assoc]

/-! ### What the verifier reads -/

/-- A component as the verifier decodes it. -/
def decoded (raw : Str) : Str := (Str.ofBytes? (percentDecode raw.bytes)).getD []

/-- A pair of the query, cut at its first `=` and decoded. -/
def readOff (pair : Str) : Str × Str :=
  let raw := (Str.splitOnce '=' pair).getD (pair, [])
  (decoded raw.1, decoded raw.2)

/-- A pair that was spelled with `=` and reads as `d`. -/
structure Reads (pair : Str) (d : Str × Str) : Prop where
  nonempty : pair ≠ []
  whole : '&' ∉ pair ∧ '#' ∉ pair
  decodes : Decodes ((Str.splitOnce '=' pair).getD (pair, [])) d

theorem Reads.readOff {pair : Str} {d : Str × Str} (h : Reads pair d) : readOff pair = d := by
  obtain ⟨hname, hvalue⟩ := h.decodes
  simp [Crypt.readOff, decoded, hname, hvalue]

theorem notMem_percentEncode {c : Char} (hc : isUnreserved (UInt8.ofNat c.toNat) = false)
    (hescape : c ≠ '%' ∧ ∀ n : Fin 16, c ≠ hexDigit (UInt8.ofNat n)) (b : Bytes) :
    c ∉ percentEncode b :=
  notMem_percentEncodeExcept isUnreserved_ascii hc hescape b

theorem reads_spell (p : Str × Str) : Reads (spell p) p := by
  have heq : ∀ b, '=' ∉ percentEncode b := notMem_percentEncode (by decide) (by decide +kernel)
  have hamp : ∀ b, '&' ∉ percentEncode b := notMem_percentEncode (by decide) (by decide +kernel)
  have hhash : ∀ b, '#' ∉ percentEncode b := notMem_percentEncode (by decide) (by decide +kernel)
  refine ⟨by simp [spell], by simp [spell, hamp, hhash], ?_⟩
  rw [spell, Str.splitOnce_append (heq _), Option.getD_some]
  exact ⟨percentDecode_encode isUnreserved_ascii _, percentDecode_encode isUnreserved_ascii _⟩

/-- Text of the base64url alphabet and the dot holds nothing a decoder reacts to. -/
theorem percentDecode_eq_self {b : Bytes} (h : 0x25 ∉ b) : percentDecode b = b := by
  induction b with
  | nil => rfl
  | cons x b ih =>
    rw [List.mem_cons, not_or] at h
    rw [percentDecode_cons_of_ne (Ne.symm h.1), ih h.2]

/-- A character that neither cuts a URL nor starts an escape. -/
def Plain (c : Char) : Prop := c ≠ '&' ∧ c ≠ '#' ∧ c ≠ '?' ∧ 0x25 ∉ String.utf8EncodeChar c

instance : DecidablePred Plain :=
  fun c => inferInstanceAs (Decidable (c ≠ '&' ∧ c ≠ '#' ∧ c ≠ '?' ∧ 0x25 ∉ String.utf8EncodeChar c))

theorem encode_plain (b : Bytes) : ∀ c ∈ Base64Url.encode b, Plain c := by
  have hsymbol : ∀ n : Fin 64, Plain (Base64Url.alphabet.getD n 'A') := by decide +kernel
  have hdigit : ∀ triple shift, Plain (Base64Url.digit triple shift) :=
    fun triple shift => hsymbol ⟨triple / 2 ^ shift % 64, Nat.mod_lt _ (by decide)⟩
  fun_induction Base64Url.encode b with
  | case1 => simp
  | case2 a => simp [hdigit]
  | case3 a b => simp [hdigit]
  | case4 a b c rest ih => simpa [hdigit] using ih

theorem signatureValue_plain (signature : ByteArr 32) : ∀ c ∈ signatureValue signature, Plain c := by
  have hall : (signatureVersion ++ ['.']).all (fun c => decide (Plain c)) = true := by decide
  have hversion : ∀ c ∈ signatureVersion ++ ['.'], Plain c := fun c hc =>
    of_decide_eq_true (List.all_eq_true.mp hall c hc)
  intro c hc
  rw [signatureValue, List.append_cons, List.mem_append] at hc
  exact hc.elim (hversion c) (encode_plain _ c)

theorem reads_signature (signature : ByteArr 32) :
    Reads (signatureParam ++ '=' :: signatureValue signature)
      (signatureParam, signatureValue signature) := by
  have hvalue := signatureValue_plain signature
  have hparam : '&' ∉ signatureParam ∧ '#' ∉ signatureParam ∧ 0x25 ∉ signatureParam.bytes := by decide
  have hamp : '&' ∉ signatureValue signature := fun h => (hvalue _ h).1 rfl
  have hhash : '#' ∉ signatureValue signature := fun h => (hvalue _ h).2.1 rfl
  have hpercent : 0x25 ∉ (signatureValue signature).bytes := by
    intro h
    obtain ⟨c, hc, hb⟩ := List.mem_flatMap.mp h
    exact (hvalue c hc).2.2.2 hb
  refine ⟨by simp, by simp [hamp, hhash, hparam], ?_⟩
  rw [Str.splitOnce_append (by decide), Option.getD_some]
  exact ⟨percentDecode_eq_self hparam.2.2, percentDecode_eq_self hpercent⟩

/-- Every pair of a minted query reads as what was signed, the MAC's as the MAC. -/
theorem reads_mintedPairs {all : Params} {signature : ByteArr 32} :
    ∀ pair ∈ mintedPairs all signature, Reads pair (readOff pair) := by
  have hself : ∀ {pair d}, Reads pair d → Reads pair (readOff pair) := by
    intro pair d h
    rwa [h.readOff]
  intro pair hpair
  rcases List.mem_append.mp hpair with hpair | hpair
  · obtain ⟨p, -, rfl⟩ := List.mem_map.mp hpair
    exact hself (reads_spell p)
  · obtain rfl := List.mem_singleton.mp hpair
    exact hself (reads_signature signature)

theorem map_readOff_mintedPairs (all : Params) (signature : ByteArr 32) :
    (mintedPairs all signature).map readOff =
      sortCanonically all ++ [(signatureParam, signatureValue signature)] := by
  have hspell : readOff ∘ spell = id := funext fun p => (reads_spell p).readOff
  rw [mintedPairs, List.map_append, List.map_map, hspell, List.map_id, List.map_singleton,
    (reads_signature signature).readOff]

/-! ### Reading a spelling of the link -/

section Loop

variable {pairs : List Str} (hreads : ∀ pair ∈ pairs, Reads pair (readOff pair))

include hreads

theorem rawPairs_intercalate (hne : pairs ≠ []) : rawPairs (['&'].intercalate pairs) =
    pairs.map fun pair => (Str.splitOnce '=' pair).getD (pair, []) := by
  rw [rawPairs, List.splitOn_intercalate _ (fun pair h => (hreads pair h).whole.1) hne,
    List.filter_eq_self.mpr]
  intro pair h
  simpa using (hreads pair h).nonempty

/-- The loop over pairs that are not the signature's keeps them all. -/
theorem foldlM_readPair_params (hsig : ∀ pair ∈ pairs, (readOff pair).1 ≠ signatureParam)
    (acc : Params × Option Str) :
    (pairs.map fun pair => (Str.splitOnce '=' pair).getD (pair, [])).foldlM readPair acc =
      .ok (acc.1 ++ pairs.map readOff, acc.2) := by
  induction pairs generalizing acc with
  | nil => simp [pure, Except.pure]
  | cons pair pairs ih =>
    obtain ⟨hname, hvalue⟩ := (hreads pair (by simp)).decodes
    have hstep : readPair acc ((Str.splitOnce '=' pair).getD (pair, [])) =
        .ok (acc.1 ++ [readOff pair], acc.2) := by
      simp [readPair, decodeComponent_eq_ok.mpr hname, decodeComponent_eq_ok.mpr hvalue, bind,
        Except.bind, hsig pair (by simp)]
    have hrest := ih (fun p hp => hreads p (by simp [hp])) (fun p hp => hsig p (by simp [hp]))
      (acc.1 ++ [readOff pair], acc.2)
    rw [List.map_cons, List.foldlM_cons, hstep]
    simpa [bind, Except.bind] using hrest

end Loop

theorem readPair_signature {acc : Params × Option Str} {pair value : Str}
    (h : Reads pair (signatureParam, value)) (hacc : acc.2 = none) :
    readPair acc ((Str.splitOnce '=' pair).getD (pair, [])) = .ok (acc.1, some value) := by
  obtain ⟨hname, hvalue⟩ := h.decodes
  simp [readPair, decodeComponent_eq_ok.mpr hname, decodeComponent_eq_ok.mpr hvalue, bind,
    Except.bind, hacc]

theorem canonicalPath_idem (path : Str) : canonicalPath (canonicalPath path) = canonicalPath path := by
  simp [canonicalPath, List.dropWhile_idempotent]

/-- What lies under the base is the same with the base in front and without it. -/
theorem relative_of_front {S : UrlSigner} {front rest : Str} (hrest : rest.head? = some '/')
    (hfront : front = S.base ∨ front = [] ∧ S.base.head? ≠ some '/') :
    S.relative (front ++ rest) = .ok rest := by
  unfold UrlSigner.relative
  cases hstrip : Str.stripPrefix S.base (front ++ rest) with
  | some tail =>
    rw [Str.stripPrefix_eq_some] at hstrip
    -- a base that is dropped is in front of nothing: it starts with another character
    have htail : tail = rest := by
      rcases hfront with rfl | ⟨rfl, hbase⟩
      · exact (List.append_cancel_left hstrip).symm
      · cases hb : S.base with
        | nil => simpa [hb] using hstrip.symm
        | cons c base =>
          rw [hb] at hstrip hbase
          rw [List.nil_append] at hstrip
          rw [hstrip] at hrest
          exact absurd hrest hbase
    simp [htail, hrest]
  | none =>
    rcases hfront with rfl | ⟨rfl, -⟩
    · simp at hstrip
    · simp [hrest]

/-- The path and the query of a spelling of a link. -/
theorem target_of_front {S : UrlSigner} {front path query fragment : Str}
    (hpath : path.head? = some '/') (hcut : '?' ∉ path ∧ '#' ∉ path) (hquery : '#' ∉ query)
    (hfront : front = S.base ∨ front = [] ∧ S.base.head? ≠ some '/')
    (hfragment : fragment = [] ∨ fragment.head? = some '#') :
    S.target (front ++ path ++ '?' :: (query ++ fragment)) = .ok (path, query) := by
  have hrest : (path ++ '?' :: (query ++ fragment)).head? = some '/' := by
    simp [List.head?_append, hpath]
  have hwhole : ∀ c ∈ path ++ '?' :: query, decide (c ≠ '#') = true := by
    intro c hc
    rw [decide_eq_true_iff]
    rintro rfl
    simp [hcut.2, hquery] at hc
  have hbare : ((path ++ '?' :: (query ++ fragment)).takeWhile fun c => c ≠ '#') =
      path ++ '?' :: query := by
    have happ : path ++ '?' :: (query ++ fragment) = (path ++ '?' :: query) ++ fragment := by simp
    rw [happ, List.takeWhile_append_of_pos hwhole]
    cases fragment with
    | nil => simp
    | cons c fragment =>
      obtain rfl : c = '#' := by simpa using hfragment
      simp
  unfold UrlSigner.target
  rw [List.append_assoc, relative_of_front hrest hfront]
  simp only [Except.map, hbare, Str.splitOnce_append hcut.1, Option.getD_some]

section Respelling

variable {S : UrlSigner} {path : Str} {all : Params}

/-- What the verifier reads off any spelling of a link: the path, what was signed in some order, and
    the MAC. -/
theorem parse_respelled {signature : ByteArr 32} {url : Str}
    (hcut : '?' ∉ path ∧ '#' ∉ path) (hnames : ∀ p ∈ all, p.1 ≠ signatureParam)
    (h : Respelled S (S.base ++ canonicalPath path ++ '?' ::
      ['&'].intercalate (mintedPairs all signature)) url) :
    ∃ params, params.Perm all ∧ S.parse url = .ok ⟨canonicalPath path, params, signature.val⟩ := by
  obtain ⟨path', query, pairs, front, fragment, hurl, hquestion, hperm, hfront, hfragment, rfl⟩ := h
  have hcanonical : '?' ∉ canonicalPath path ∧ '#' ∉ canonicalPath path := by
    have hsub := List.dropWhile_sublist (fun c => decide (c = '/')) (l := path)
    exact ⟨by simpa [canonicalPath] using fun h => hcut.1 (hsub.subset h),
      by simpa [canonicalPath] using fun h => hcut.2 (hsub.subset h)⟩
  -- the link has one path and one query
  have hsplit : (canonicalPath path, ['&'].intercalate (mintedPairs all signature)) = (path', query) := by
    rw [List.append_assoc, List.append_assoc] at hurl
    have hrest := congrArg (Str.splitOnce '?') (List.append_cancel_left hurl)
    rw [Str.splitOnce_append hcanonical.1, Str.splitOnce_append hquestion] at hrest
    exact Option.some.inj hrest
  obtain ⟨rfl, rfl⟩ := Prod.mk.inj hsplit
  rw [List.splitOn_intercalate _ (fun pair hp => (reads_mintedPairs pair hp).whole.1)
    (by simp [mintedPairs])] at hperm
  have hreads : ∀ pair ∈ pairs, Reads pair (readOff pair) :=
    fun pair hp => reads_mintedPairs pair (hperm.mem_iff.mp hp)
  have hhash : '#' ∉ ['&'].intercalate pairs := by
    intro hmem
    obtain h | ⟨pair, hpair, hc⟩ := Str.mem_intercalate hmem
    · exact absurd h (by decide)
    · exact (hreads pair hpair).whole.2 hc
  -- one of the pairs is the signature's, and the others are what was signed
  obtain ⟨before, after, rfl⟩ : ∃ before after,
      pairs = before ++ (signatureParam ++ '=' :: signatureValue signature) :: after :=
    List.append_of_mem (hperm.mem_iff.mpr (by simp [mintedPairs]))
  have hsigned : ((before ++ after).map readOff).Perm (sortCanonically all) := by
    have hmap := hperm.map readOff
    rw [map_readOff_mintedPairs] at hmap
    have hmove := (List.perm_middle.map readOff).symm.trans hmap
    rw [List.map_cons, (reads_signature signature).readOff] at hmove
    exact (List.perm_append_singleton _ _).symm.trans hmove.symm |>.cons_inv.symm
  have hall := hsigned.trans (perm_sortCanonically all)
  have hparam : ∀ pair ∈ before ++ after, (readOff pair).1 ≠ signatureParam :=
    fun pair hp => hnames _ (hall.mem_iff.mp (List.mem_map_of_mem hp))
  refine ⟨_, hall, ?_⟩
  unfold UrlSigner.parse
  rw [target_of_front (by rfl) hcanonical hhash hfront hfragment]
  simp only [bind, Except.bind]
  rw [rawPairs_intercalate hreads (by simp), List.map_append, List.map_cons, List.foldlM_append,
    foldlM_readPair_params (fun p hp => hreads p (by simp [hp])) (fun p hp => hparam p (by simp [hp]))]
  simp only [bind, Except.bind, List.foldlM_cons]
  rw [readPair_signature (reads_signature signature) rfl]
  simp only
  rw [foldlM_readPair_params (fun p hp => hreads p (by simp [hp])) (fun p hp => hparam p (by simp [hp]))]
  have hdot : Str.stripPrefix ['.'] ('.' :: Base64Url.encode signature.val) =
      some (Base64Url.encode signature.val) := Str.stripPrefix_append ['.'] _
  simp [signatureValue, hdot, Base64Url.decode_encode, canonicalPath_idem]

end Respelling

/-! ### The verdict -/

theorem macInput_perm {l m : Params} (h : l.Perm m) (path : Str) : macInput path l = macInput path m := by
  rw [macInput, macInput, sortCanonically_eq_iff.mpr h, h.length_eq]

theorem parseU64_toDigits (e : UInt64) : parseU64 (Nat.toDigits 10 e.toNat) = some e.toNat := by
  have hdigits : ∀ c ∈ Nat.toDigits 10 e.toNat, c.isDigit = true :=
    fun c hc => Nat.isDigit_of_mem_toDigits (by decide) le_rfl hc
  have hsign : ∀ rest, Nat.toDigits 10 e.toNat ≠ '+' :: rest := by
    intro rest h
    have := hdigits '+' (by simp [h])
    exact absurd this (by decide)
  have hany : ((Nat.toDigits 10 e.toNat).any fun c => !c.isDigit) = false := by
    rw [List.any_eq_false]
    intro c hc
    simp [hdigits c hc]
  unfold parseU64
  split
  · rename_i rest h
    exact absurd h (hsign rest)
  · simp [Nat.toDigits_ne_nil, hany, Nat.ofDigitChars_ten_toDigits, e.toNat_lt]

/-- The first pair of the expiry's name is the expiry that was signed, in whatever order. -/
theorem find_expires {params l : Params} {expiresAt : Option UInt64}
    (hnames : ∀ p ∈ params, p.1 ≠ expiresParam) (h : l.Perm (signedParams params expiresAt)) :
    l.find? (fun p => p.1 = expiresParam) =
      expiresAt.map fun e => (expiresParam, Nat.toDigits 10 e.toNat) := by
  have honly : ∀ p ∈ l, p.1 = expiresParam →
      some p = expiresAt.map fun e => (expiresParam, Nat.toDigits 10 e.toNat) := by
    intro p hp hname
    rcases List.mem_append.mp (h.mem_iff.mp hp) with hp | hp
    · exact absurd hname (hnames p hp)
    · cases expiresAt with
      | none => simp at hp
      | some e => simpa using hp
  cases hfind : l.find? fun p => p.1 = expiresParam with
  | some p => exact honly p (List.mem_of_find?_eq_some hfind) (by simpa using List.find?_some hfind)
  | none =>
    cases expiresAt with
    | none => rfl
    | some e =>
      have hmem : (expiresParam, Nat.toDigits 10 e.toNat) ∈ l :=
        h.mem_iff.mpr (by simp [signedParams])
      exact absurd (List.find?_eq_none.mp hfind _ hmem) (by simp)

/-- A signed URL in any spelling is refused for its expiry or not at all. -/
theorem verify_respelled {S : UrlSigner} {path : Str} {params : Params} {expiresAt : Option UInt64}
    {url url' : Str} (hpath : '?' ∉ path ∧ '#' ∉ path)
    (hparams : ∀ p ∈ params, p.1 ≠ signatureParam ∧ p.1 ≠ expiresParam)
    (hurl : S.build path params expiresAt = .ok url) (h : Respelled S url url') (t : UInt64) :
    S.verify t url' =
      match expiresAt with
      | none => .ok ()
      | some e => if e.toNat < t.toNat then .error .expired else .ok () := by
  rw [build_eq_ok S expiresAt hpath hparams] at hurl
  have hnames : ∀ p ∈ signedParams params expiresAt, p.1 ≠ signatureParam := by
    intro p hp
    rcases List.mem_append.mp hp with hp | hp
    · exact (hparams p hp).1
    · obtain ⟨e, -, rfl⟩ := List.mem_map.mp hp
      show expiresParam ≠ signatureParam
      decide
  obtain ⟨l, hperm, hparse⟩ := parse_respelled hpath hnames (Except.ok.inj hurl ▸ h)
  have hfind := find_expires (fun p hp => (hparams p hp).2) hperm
  unfold UrlSigner.verify
  simp only [hparse, bind, Except.bind, UrlSigner.signatureOf, macInput_perm hperm, ne_eq,
    not_true_eq_false, if_false, hfind]
  cases expiresAt with
  | none => rfl
  | some e => simp [parseU64_toDigits]

/-- The deadline `sign_temporary` writes is the last second the link is good for. -/
theorem deadline_iff (n t : UInt64) (d : Duration) :
    (UInt64.ofNat (min (n.toNat + d / 10 ^ 9) (2 ^ 64 - 1))).toNat < t.toNat ↔
      ¬ (t.toNat : ℚ) ≤ min (n.toNat + d.asSecs) (2 ^ 64 - 1) := by
  have ht := t.toNat_lt
  have hmax : (t.toNat : ℚ) ≤ 2 ^ 64 - 1 := by
    have : ((t.toNat + 1 : ℕ) : ℚ) ≤ ((2 ^ 64 : ℕ) : ℚ) := by exact_mod_cast ht
    push_cast at this
    linarith
  have hscale : (t.toNat : ℚ) ≤ n.toNat + d.asSecs ↔ t.toNat * 10 ^ 9 ≤ n.toNat * 10 ^ 9 + d := by
    rw [Duration.asSecs, ← sub_le_iff_le_add', le_div_iff₀ (by norm_num), sub_mul,
      sub_le_iff_le_add']
    exact_mod_cast Iff.rfl
  rw [le_min_iff, and_iff_left hmax, hscale]
  simp only [UInt64.toNat_ofNat']
  omega

theorem respelled_self {S : UrlSigner} {path : Str} {params : Params} {expiresAt : Option UInt64}
    {url : Str} (hpath : '?' ∉ path ∧ '#' ∉ path)
    (hparams : ∀ p ∈ params, p.1 ≠ signatureParam ∧ p.1 ≠ expiresParam)
    (hurl : S.build path params expiresAt = .ok url) : Respelled S url url := by
  rw [build_eq_ok S expiresAt hpath hparams] at hurl
  have hquestion : '?' ∉ canonicalPath path := by
    simpa [canonicalPath] using fun h => hpath.1 ((List.dropWhile_sublist _).subset h)
  refine ⟨canonicalPath path, _, _, S.base, [], (Except.ok.inj hurl).symm, hquestion, List.Perm.rfl,
    Or.inl rfl, Or.inl rfl, ?_⟩
  rw [List.intercalate_splitOn, List.append_nil, ← Except.ok.inj hurl]

/-- What `sign` mints verifies at every time and what `sign_temporary` mints up to its deadline, in
    whatever order its pairs come back, whatever fragment is behind it, and without the base if that
    does not itself start with a slash. -/
theorem signed_verifies (mac : Bytes → ByteArr 32) (appUrl path : Str) (params : Params)
    (hpath : '?' ∉ path ∧ '#' ∉ path)
    (hparams : ∀ p ∈ params, p.1 ≠ signatureParam ∧ p.1 ≠ expiresParam) :
    (∃ url, (UrlSigner.new mac appUrl).sign path params = .ok url ∧
      Respelled (UrlSigner.new mac appUrl) url url ∧
      ∀ url', Respelled (UrlSigner.new mac appUrl) url url' →
        ∀ t, (UrlSigner.new mac appUrl).verify t url' = .ok ()) ∧
    ∀ (n : UInt64) (d : Duration), ∃ url,
      (UrlSigner.new mac appUrl).signTemporary n path params d = .ok url ∧
      Respelled (UrlSigner.new mac appUrl) url url ∧
      ∀ url', Respelled (UrlSigner.new mac appUrl) url url' →
        ∀ t, (UrlSigner.new mac appUrl).verify t url' =
          if (t.toNat : ℚ) ≤ min (n.toNat + d.asSecs) (2 ^ 64 - 1) then .ok () else .error .expired := by
  have hbuild := fun e => build_eq_ok (UrlSigner.new mac appUrl) e hpath hparams
  refine ⟨⟨_, hbuild none, respelled_self hpath hparams (hbuild none), fun url' h t => ?_⟩,
    fun n d => ⟨_, hbuild _, respelled_self hpath hparams (hbuild _), fun url' h t => ?_⟩⟩
  · exact verify_respelled hpath hparams (hbuild none) h t
  · rw [verify_respelled hpath hparams (hbuild _) h t]
    simp only [deadline_iff, ite_not]

/-- A link at its deadline and a second later. -/
theorem signed_verifies_sample : ∃ url,
    sampleSigner.signTemporary 100 samplePath sampleParams (30 * 10 ^ 9) = .ok url ∧
    sampleSigner.verify 130 url = .ok () ∧ sampleSigner.verify 131 url = .error .expired := by
  obtain ⟨url, hurl, hself, hverify⟩ := (signed_verifies sampleSigner.mac "https://example.com/".toList
    samplePath sampleParams (by decide) (by decide)).2 100 (30 * 10 ^ 9)
  refine ⟨url, hurl, ?_, ?_⟩
  · refine (hverify url hself 130).trans (if_pos ?_)
    decide +kernel
  · refine (hverify url hself 131).trans (if_neg ?_)
    decide +kernel

/-- A signer whose base is the start of a path. -/
def pathSigner : UrlSigner := UrlSigner.new sampleSigner.mac "/app".toList

/-- What that signer mints for a path under its own base. -/
def pathLink : Str := "/app/x?signature=v1.AAAAAAAAAAB4L3BwYS8GAAAAAAAAADF2L2xydS1kZW4".toList

/-- Without the base the link is taken for another one under the base, and refused. -/
theorem pathLink_refused : pathSigner.sign "/app/x".toList [] = .ok (pathSigner.base ++ pathLink) ∧
    pathSigner.verify 0 (pathSigner.base ++ pathLink) = .ok () ∧
    pathSigner.verify 0 pathLink = .error .mismatch := by
  decide +kernel

end Arcature.Crypt

import Arcature.Crypt.MacInput

/-! What a verified URL says to the application that reads it.

    The verifier percent-decodes the query and checks the MAC over what it read. The application
    reads the same query by the rules of a form: it turns every `+` into a space first. Both cut the
    query alike, so they differ on a component only where a `+` stands in it unescaped, which the
    signer never writes and the verifier does not refuse:

        signed     q = a+b
        minted     ?q=a%2Bb&signature=..     both read   q = a+b
        presented  ?q=a+b&signature=..       verifier    q = a+b     application  q = a b

    A `+` that became a space is one `+` less in the whole, so the application reads what was signed
    exactly when the query holds no bare `+`. -/

namespace Arcature.Crypt
open Arcature.Lib

/-- A reader of forms: how it makes text of bytes that need not be valid UTF-8. -/
structure FormReader where
  lossy : Bytes → Str
  lossy_bytes : ∀ s : Str, lossy s.bytes = s

namespace FormReader

/-- Read one component: `+` is a space, then percent-decoding. -/
def decode (F : FormReader) (raw : Str) : Str := F.lossy (percentDecode (plusToSpace raw.bytes))

/-- Read a query as `application/x-www-form-urlencoded`. -/
def read (F : FormReader) (query : Str) : Params :=
  (rawPairs query).map fun (name, value) => (F.decode name, F.decode value)

end FormReader

/-! ### What a verified URL went through -/

/-- The verifier's reading of a pair. -/
def Decodes (raw d : Str × Str) : Prop :=
  percentDecode raw.1.bytes = d.1.bytes ∧ percentDecode raw.2.bytes = d.2.bytes

theorem decodeComponent_eq_ok {raw text : Str} :
    decodeComponent raw = .ok text ↔ percentDecode raw.bytes = text.bytes := by
  rw [← Str.ofBytes?_eq_some]
  unfold decodeComponent
  cases Str.ofBytes? (percentDecode raw.bytes) with
  | none => simp
  | some t => simp

theorem readPair_eq_ok {acc acc' : Params × Option Str} {raw : Str × Str}
    (h : readPair acc raw = .ok acc') : ∃ d, Decodes raw d ∧
      ((d.1 = signatureParam ∧ acc.2 = none ∧ acc' = (acc.1, some d.2)) ∨
        (d.1 ≠ signatureParam ∧ acc' = (acc.1 ++ [d], acc.2))) := by
  unfold readPair at h
  cases hname : decodeComponent raw.1 with
  | error e => simp [hname, bind, Except.bind] at h
  | ok name =>
    cases hvalue : decodeComponent raw.2 with
    | error e => simp [hname, hvalue, bind, Except.bind] at h
    | ok value =>
      refine ⟨(name, value), ⟨decodeComponent_eq_ok.mp hname, decodeComponent_eq_ok.mp hvalue⟩, ?_⟩
      simp only [hname, hvalue, bind, Except.bind] at h
      split_ifs at h with hsig
      · cases hacc : acc.2 with
        | none =>
          rw [hacc] at h
          exact Or.inl ⟨hsig, rfl, (Except.ok.inj h).symm⟩
        | some v => simp [hacc] at h
      · exact Or.inr ⟨hsig, (Except.ok.inj h).symm⟩

/-- The loop over the pairs: each is read, the parameters are kept in order, and the one signature
    is what the pair of that name holds. -/
theorem foldlM_readPair {raws : List (Str × Str)} {acc acc' : Params × Option Str}
    (h : raws.foldlM readPair acc = .ok acc') : ∃ ds, List.Forall₂ Decodes raws ds ∧
      acc'.1 = acc.1 ++ ds.filter (fun d => d.1 ≠ signatureParam) ∧
      (∀ v, acc.2 = some v → acc'.2 = some v) ∧
      ∀ d ∈ ds, d.1 = signatureParam → acc'.2 = some d.2 := by
  induction raws generalizing acc with
  | nil =>
    obtain rfl : acc = acc' := Except.ok.inj h
    exact ⟨[], List.Forall₂.nil, by simp, fun _ hv => hv, by simp⟩
  | cons raw raws ih =>
    rw [List.foldlM_cons] at h
    cases hstep : readPair acc raw with
    | error e => simp [hstep, bind, Except.bind] at h
    | ok mid =>
      simp only [hstep, bind, Except.bind] at h
      obtain ⟨ds, hds, hparams, hkeep, hsig⟩ := ih h
      obtain ⟨d, hd, ⟨hname, hnone, rfl⟩ | ⟨hname, rfl⟩⟩ := readPair_eq_ok hstep
      · refine ⟨d :: ds, List.Forall₂.cons hd hds, by simp [hparams, hname], ?_, ?_⟩
        · intro v hv
          simp [hnone] at hv
        · intro d' hd' hname'
          rcases List.mem_cons.mp hd' with rfl | hd'
          · exact hkeep _ rfl
          · exact hsig d' hd' hname'
      · refine ⟨d :: ds, List.Forall₂.cons hd hds, by simp [hparams, hname], hkeep, ?_⟩
        intro d' hd' hname'
        rcases List.mem_cons.mp hd' with rfl | hd'
        · exact absurd hname' hname
        · exact hsig d' hd' hname'

/-- What `parse` made of a URL it accepted. -/
theorem parse_eq_ok {S : UrlSigner} {url : Str} {p : Presented} (h : S.parse url = .ok p) :
    ∃ rawPath rawQuery ds, S.target url = .ok (rawPath, rawQuery) ∧
      p.path = canonicalPath rawPath ∧ List.Forall₂ Decodes (rawPairs rawQuery) ds ∧
      p.params = ds.filter (fun d => d.1 ≠ signatureParam) ∧
      ∀ d ∈ ds, d.1 = signatureParam → ∃ body out, d.2 = signatureVersion ++ ('.' :: body) ∧
        Base64Url.decode body = some out := by
  unfold UrlSigner.parse at h
  cases htarget : S.target url with
  | error e => simp [htarget, bind, Except.bind] at h
  | ok t =>
    obtain ⟨rawPath, rawQuery⟩ := t
    simp only [htarget, bind, Except.bind] at h
    cases hloop : (rawPairs rawQuery).foldlM readPair ([], none) with
    | error e => simp [hloop] at h
    | ok acc =>
      obtain ⟨params, presented⟩ := acc
      simp only [hloop] at h
      obtain ⟨ds, hds, hparams, -, hsig⟩ := foldlM_readPair hloop
      cases presented with
      | none => simp at h
      | some text =>
        cases hbody : (Str.stripPrefix signatureVersion text).bind (Str.stripPrefix ['.']) with
        | none => simp [hbody] at h
        | some body =>
          simp only [hbody] at h
          cases hdecode : Base64Url.decode body with
          | none => simp [hdecode] at h
          | some out =>
            simp only [hdecode] at h
            obtain rfl := Except.ok.inj h
            refine ⟨rawPath, rawQuery, ds, rfl, rfl, hds, by simpa using hparams, ?_⟩
            intro d hd hname
            obtain rfl : text = d.2 := Option.some.inj (hsig d hd hname)
            obtain ⟨rest, hrest, hdot⟩ := Option.bind_eq_some_iff.mp hbody
            rw [Str.stripPrefix_eq_some] at hrest hdot
            exact ⟨body, out, by rw [hrest, hdot]; rfl, hdecode⟩

theorem verify_eq_ok {S : UrlSigner} {now : UInt64} {url : Str} (h : S.verify now url = .ok ()) :
    ∃ p, S.parse url = .ok p ∧ p.signature = (S.signatureOf p.path p.params).val := by
  unfold UrlSigner.verify at h
  cases hparse : S.parse url with
  | error e => simp [hparse, bind, Except.bind] at h
  | ok p =>
    simp only [hparse, bind, Except.bind] at h
    split_ifs at h with hsig
    exact ⟨p, rfl, not_not.mp hsig⟩

theorem verify_of_parse {S : UrlSigner} {url : Str} {p : Presented} (hparse : S.parse url = .ok p)
    (hsig : p.signature = (S.signatureOf p.path p.params).val)
    (hexpires : p.params.find? (fun q => q.1 = expiresParam) = none) (now : UInt64) :
    S.verify now url = .ok () := by
  unfold UrlSigner.verify
  simp [hparse, bind, Except.bind, hsig, hexpires]

/-! ### The two readings of one component -/

/-- How many `+` a text holds. -/
def plusCount (s : Str) : ℕ := s.bytes.count plusByte

theorem plusCount_eq_zero {s : Str} : plusCount s = 0 ↔ '+' ∉ s := by
  rw [plusCount, List.count_eq_zero, plusByte_mem_bytes]

section Component

variable (F : FormReader) {raw text : Str} (h : percentDecode raw.bytes = text.bytes)

include h

theorem bytes_formDecode : (F.decode raw).bytes = percentDecode (plusToSpace raw.bytes) := by
  have hsame := percentDecode_plusToSpace raw.bytes
  rw [h] at hsame
  obtain ⟨t, ht⟩ := exists_bytes_of_sameButPlus hsame
  rw [FormReader.decode, ht, F.lossy_bytes]

/-- The application loses the `+` that stand in the component unescaped. -/
theorem plusCount_formDecode : plusCount text = plusCount (F.decode raw) + plusCount raw := by
  rw [plusCount, plusCount, bytes_formDecode F h, ← h]
  exact count_plus_percentDecode raw.bytes

theorem formDecode_eq_of_plusCount (hplus : plusCount raw = 0) : F.decode raw = text := by
  have hid : plusToSpace raw.bytes = raw.bytes := by
    refine (eq_of_sameButPlus (sameButPlus_swap raw.bytes) ?_)
    exact List.count_eq_zero.mp hplus
  apply Str.bytes_injective
  rw [bytes_formDecode F h, hid, h]

/-- Neither reading makes the signature's name of anything but itself. -/
theorem formDecode_eq_signatureParam : F.decode raw = signatureParam ↔ text = signatureParam := by
  have hsame := percentDecode_plusToSpace raw.bytes
  rw [h, ← bytes_formDecode F h] at hsame
  constructor
  · intro hform
    rw [hform] at hsame
    exact Str.bytes_injective (eq_of_sameButPlus_of_no_space hsame (by decide))
  · rintro rfl
    exact Str.bytes_injective (eq_of_sameButPlus hsame (by decide))

end Component

/-! ### The two readings of a query -/

theorem read_eq (F : FormReader) (query : Str) :
    F.read query = (rawPairs query).map fun raw => (F.decode raw.1, F.decode raw.2) := rfl

/-- How many `+` the names and values hold. -/
def pluses (params : Params) : ℕ := (params.map fun p => plusCount p.1 + plusCount p.2).sum

theorem pluses_perm {l m : Params} (h : l.Perm m) : pluses l = pluses m := (h.map _).sum_eq

theorem pluses_cons (p : Str × Str) (params : Params) :
    pluses (p :: params) = plusCount p.1 + plusCount p.2 + pluses params := by
  rw [pluses, List.map_cons, List.sum_cons, pluses]

theorem pluses_eq_zero {params : Params} :
    pluses params = 0 ↔ ∀ p ∈ params, plusCount p.1 = 0 ∧ plusCount p.2 = 0 := by
  induction params with
  | nil => simp [pluses]
  | cons p params ih =>
    rw [pluses_cons, Nat.add_eq_zero_iff, Nat.add_eq_zero_iff, ih]
    simp

/-- The signature's own pair holds no `+`: its name is fixed and its value is base64url. -/
theorem signature_no_plus {raw d : Str × Str} (h : Decodes raw d) (hname : d.1 = signatureParam)
    (hvalue : ∃ body out, d.2 = signatureVersion ++ ('.' :: body) ∧ Base64Url.decode body = some out) :
    plusCount raw.1 = 0 ∧ plusCount raw.2 = 0 := by
  obtain ⟨body, out, hd, hdecode⟩ := hvalue
  have hle : ∀ {raw text : Str}, percentDecode raw.bytes = text.bytes → '+' ∉ text →
      plusCount raw = 0 := by
    intro raw text htext hplus
    have hcount := count_plus_percentDecode raw.bytes
    rw [htext, show text.bytes.count plusByte = 0 from plusCount_eq_zero.mpr hplus] at hcount
    unfold plusCount
    omega
  have hbody : '+' ∉ body := by
    intro hplus
    have hvalue := Base64Url.isSome_valueOf_of_decode hdecode _ (plusByte_mem_bytes.mpr hplus)
    exact absurd hvalue (by decide)
  have hversion : '+' ∉ signatureVersion := by decide
  refine ⟨hle h.1 (by rw [hname]; decide), hle h.2 ?_⟩
  rw [hd]
  simp [hversion, hbody]

/-- Over a whole query, what the application loses is what stands in it unescaped. -/
theorem pluses_read (F : FormReader) {raws : List (Str × Str)} {ds : Params}
    (h : List.Forall₂ Decodes raws ds)
    (hsig : ∀ d ∈ ds, d.1 = signatureParam → ∃ body out, d.2 = signatureVersion ++ ('.' :: body) ∧
      Base64Url.decode body = some out) :
    pluses (ds.filter fun d => d.1 ≠ signatureParam) =
      pluses ((raws.map fun raw => (F.decode raw.1, F.decode raw.2)).filter
        fun f => f.1 ≠ signatureParam) + pluses raws := by
  induction h with
  | nil => rfl
  | @cons raw d raws ds hd _ ih =>
    have hrest := ih fun d' hd' => hsig d' (by simp [hd'])
    have hname := formDecode_eq_signatureParam F hd.1
    rw [List.map_cons, pluses_cons]
    by_cases hs : d.1 = signatureParam
    · have hzero := signature_no_plus hd hs (hsig d (by simp) hs)
      rw [List.filter_cons_of_neg (by simpa using hs), List.filter_cons_of_neg (by simpa using hname.mpr hs),
        hrest, hzero.1, hzero.2]
      ring
    · have hn := plusCount_formDecode F hd.1
      have hv := plusCount_formDecode F hd.2
      rw [List.filter_cons_of_pos (by simpa using hs),
        List.filter_cons_of_pos (by simpa using fun hf => hs (hname.mp hf)), pluses_cons, pluses_cons,
        hrest, hn, hv]
      ring

theorem read_eq_of_no_plus (F : FormReader) {raws : List (Str × Str)} {ds : Params}
    (h : List.Forall₂ Decodes raws ds) (hplus : pluses raws = 0) :
    raws.map (fun raw => (F.decode raw.1, F.decode raw.2)) = ds := by
  induction h with
  | nil => rfl
  | cons hd _ ih =>
    rw [pluses_cons] at hplus
    rw [List.map_cons, ih (by omega), formDecode_eq_of_plusCount F hd.1 (by omega),
      formDecode_eq_of_plusCount F hd.2 (by omega)]

/-- A `+` of the query is in some pair. -/
theorem pluses_rawPairs (query : Str) : pluses (rawPairs query) = 0 ↔ '+' ∉ query := by
  have hcut : ∀ pair : Str, '+' ∈ pair ↔
      '+' ∈ ((Str.splitOnce '=' pair).getD (pair, [])).1 ∨
        '+' ∈ ((Str.splitOnce '=' pair).getD (pair, [])).2 := by
    intro pair
    cases hsplit : Str.splitOnce '=' pair with
    | none => simp
    | some ab =>
      obtain ⟨hpair, -⟩ := Str.splitOnce_eq_some.mp hsplit
      rw [hpair]
      simp
  rw [pluses_eq_zero, ← Str.mem_splitOn (show '+' ≠ '&' by decide)]
  simp only [plusCount_eq_zero, rawPairs, List.mem_map, List.mem_filter]
  constructor
  · rintro h ⟨pair, hpair, hplus⟩
    have hne : pair ≠ [] := List.ne_nil_of_mem hplus
    obtain ⟨h1, h2⟩ := h _ ⟨pair, ⟨hpair, by simpa using hne⟩, rfl⟩
    exact ((hcut pair).mp hplus).elim h1 h2
  · rintro h p ⟨pair, ⟨hpair, -⟩, rfl⟩
    have hnot : '+' ∉ pair := fun hplus => h ⟨pair, hpair, hplus⟩
    exact ⟨fun hp => hnot ((hcut pair).mpr (Or.inl hp)), fun hp => hnot ((hcut pair).mpr (Or.inr hp))⟩

/-! ### A URL in memory is read into lengths that fit -/

theorem target_sublist {S : UrlSigner} {url rawPath rawQuery : Str}
    (h : S.target url = .ok (rawPath, rawQuery)) : rawPath.Sublist url ∧ rawQuery.Sublist url := by
  have hrelative : ∀ rest, S.relative url = .ok rest → rest.Sublist url := by
    intro rest hrest
    unfold UrlSigner.relative at hrest
    cases hstrip : Str.stripPrefix S.base url with
    | none =>
      simp only [hstrip] at hrest
      split_ifs at hrest
      exact Except.ok.inj hrest ▸ List.Sublist.refl _
    | some tail =>
      simp only [hstrip] at hrest
      split_ifs at hrest
      rw [← Except.ok.inj hrest, Str.stripPrefix_eq_some.mp hstrip]
      exact List.sublist_append_right _ _
  unfold UrlSigner.target at h
  cases hr : S.relative url with
  | error e => simp [hr, Except.map] at h
  | ok rest =>
    have hcut : (rest.takeWhile fun c => c ≠ '#').Sublist url :=
      (List.takeWhile_sublist _).trans (hrelative rest hr)
    simp only [hr, Except.map] at h
    cases hsplit : Str.splitOnce '?' (rest.takeWhile fun c => c ≠ '#') with
    | none =>
      rw [hsplit] at h
      obtain ⟨rfl, rfl⟩ := Prod.mk.inj (Except.ok.inj h)
      exact ⟨hcut, List.nil_sublist _⟩
    | some ab =>
      rw [hsplit] at h
      obtain rfl := Except.ok.inj h
      obtain ⟨hrest, -⟩ := Str.splitOnce_eq_some.mp hsplit
      rw [hrest] at hcut
      exact ⟨(List.sublist_append_left _ _).trans hcut,
        ((List.sublist_cons_self _ _).trans (List.sublist_append_right _ _)).trans hcut⟩

theorem rawPairs_sublist {query : Str} {raw : Str × Str} (h : raw ∈ rawPairs query) :
    raw.1.Sublist query ∧ raw.2.Sublist query := by
  obtain ⟨pair, hpair, rfl⟩ := List.mem_map.mp h
  have hsub := Str.sublist_of_mem_splitOn (List.mem_filter.mp hpair).1
  cases hsplit : Str.splitOnce '=' pair with
  | none => exact ⟨hsub, List.nil_sublist _⟩
  | some ab =>
    obtain ⟨heq, -⟩ := Str.splitOnce_eq_some.mp hsplit
    rw [heq] at hsub
    exact ⟨(List.sublist_append_left _ _).trans hsub,
      ((List.sublist_cons_self _ _).trans (List.sublist_append_right _ _)).trans hsub⟩

theorem exists_raw {raws : List (Str × Str)} {ds : Params} (h : List.Forall₂ Decodes raws ds)
    {d : Str × Str} (hd : d ∈ ds) : ∃ raw ∈ raws, Decodes raw d := by
  induction h with
  | nil => simp at hd
  | cons hread _ ih =>
    rcases List.mem_cons.mp hd with rfl | hd
    · exact ⟨_, by simp, hread⟩
    · obtain ⟨raw, hraw, hr⟩ := ih hd
      exact ⟨raw, by simp [hraw], hr⟩

theorem fits_of_parse {S : UrlSigner} {url : Str} {p : Presented} (hlen : url.len < 2 ^ 63)
    (h : S.parse url = .ok p) : Fits p.path p.params := by
  obtain ⟨rawPath, rawQuery, ds, htarget, hpath, hds, hparams, -⟩ := parse_eq_ok h
  obtain ⟨hsubPath, hsubQuery⟩ := target_sublist htarget
  have hquery := Str.len_le_of_sublist hsubQuery
  have hdecoded : ∀ {raw text : Str}, raw.Sublist rawQuery → percentDecode raw.bytes = text.bytes →
      text.len < 2 ^ 64 := by
    intro raw text hraw htext
    have hshort := length_percentDecode_le raw.bytes
    rw [htext, Str.length_bytes, Str.length_bytes] at hshort
    have := Str.len_le_of_sublist hraw
    omega
  refine ⟨?_, ?_, ?_⟩
  · have hdrop := Str.len_le_of_sublist
      ((List.dropWhile_sublist (p := fun c : Char => decide (c = '/'))).trans hsubPath)
    have hslash : ('/' : Char).utf8Size = 1 := by decide
    rw [hpath, canonicalPath, Str.len, hslash]
    omega
  · have hcount : ds.length ≤ rawQuery.length + 1 := by
      rw [← hds.length_eq, rawPairs, List.length_map]
      exact (List.length_filter_le _ _).trans (Str.length_splitOn_le '&' rawQuery)
    have := List.length_filter_le (fun d : Str × Str => decide (d.1 ≠ signatureParam)) ds
    have := Str.length_le_len rawQuery
    rw [hparams]
    omega
  · intro d hd
    rw [hparams] at hd
    obtain ⟨raw, hraw, hread⟩ : ∃ raw ∈ rawPairs rawQuery, Decodes raw d :=
      exists_raw hds (List.mem_filter.mp hd).1
    obtain ⟨hname, hvalue⟩ := rawPairs_sublist hraw
    exact ⟨hdecoded hname hread.1, hdecoded hvalue hread.2⟩

/-! ### What the application reads -/

/-- Let `url` verify under the MAC that signing `path` and `params` writes, and let the MAC tell the
    two inputs apart. The application reads from its query, apart from the signature, exactly the
    pairs that were signed, at the path that was signed, if and only if the query holds no bare
    `+`. -/
theorem binds_iff_no_plus (S : UrlSigner) (F : FormReader) {path url rawPath rawQuery : Str}
    {params : Params} {expiresAt : Option UInt64} {now : UInt64} {p : Presented}
    (hverify : S.verify now url = .ok ()) (hparse : S.parse url = .ok p)
    (htarget : S.target url = .ok (rawPath, rawQuery))
    (hmac : p.signature = (S.signatureOf (canonicalPath path) (signedParams params expiresAt)).val)
    (hinj : Set.InjOn S.mac
      {macInput p.path p.params, macInput (canonicalPath path) (signedParams params expiresAt)})
    (hurl : url.len < 2 ^ 63) (hsigned : Fits (canonicalPath path) (signedParams params expiresAt)) :
    (((F.read rawQuery).filter fun q => q.1 ≠ signatureParam).Perm (signedParams params expiresAt) ∧
      rawPath.dropWhile (fun c => c = '/') = path.dropWhile fun c => c = '/') ↔ '+' ∉ rawQuery := by
  obtain ⟨rawPath', rawQuery', ds, htarget', hpath, hds, hparams, hsig⟩ := parse_eq_ok hparse
  obtain ⟨rfl, rfl⟩ := Prod.mk.inj (Except.ok.inj (htarget.symm.trans htarget'))
  -- the URL's own MAC is the minted one, so what was signed is what the verifier read
  have hinput : macInput p.path p.params =
      macInput (canonicalPath path) (signedParams params expiresAt) := by
    obtain ⟨p', hp', hown⟩ := verify_eq_ok hverify
    obtain rfl := Except.ok.inj (hparse.symm.trans hp')
    exact hinj (by simp) (by simp) (Subtype.ext (hown.symm.trans hmac))
  obtain ⟨hpaths, hperm⟩ := macInput_inj (fits_of_parse hurl hparse) hsigned hinput
  have hslashes : rawPath.dropWhile (fun c => c = '/') = path.dropWhile fun c => c = '/' :=
    (List.cons.inj (hpath.symm.trans hpaths)).2
  have hcount := pluses_read F hds hsig
  rw [hparams] at hperm
  rw [← pluses_rawPairs, read_eq]
  constructor
  · rintro ⟨hread, -⟩
    have htotal := pluses_perm (hperm.trans hread.symm)
    omega
  · intro hplus
    rw [read_eq_of_no_plus F hds hplus]
    exact ⟨hperm, hslashes⟩

/-! ### One link, edited -/

/-- A signer to evaluate links on: its MAC is the tail of the input, filled up with zeros. -/
def sampleSigner : UrlSigner :=
  UrlSigner.new (fun b => ⟨(b.reverse ++ List.replicate 32 0).take 32, by simp⟩)
    "https://example.com/".toList

/-- A reader that gives up on text that is not valid UTF-8. -/
def sampleReader : FormReader where
  lossy b := (Str.ofBytes? b).getD []
  lossy_bytes s := by rw [Str.ofBytes?_bytes]; rfl

/-- The path, the pair and the query of a signed link, and the query with its escape undone. -/
def samplePath : Str := "/search".toList

def sampleParams : Params := [("q".toList, "a+b".toList)]

def mintedQuery : Str :=
  "q=a%2Bb&signature=v1.YithAwAAAAAAAABxAQAAAAAAAAABAAAAAAAAAGhjcmE".toList

def editedQuery : Str :=
  "q=a+b&signature=v1.YithAwAAAAAAAABxAQAAAAAAAAABAAAAAAAAAGhjcmE".toList

def sampleUrl (query : Str) : Str := sampleSigner.base ++ samplePath ++ '?' :: query

theorem sampleFits : Fits (canonicalPath samplePath) (signedParams sampleParams none) := by
  refine ⟨by decide, by decide, ?_⟩
  intro p hp
  obtain rfl : p = ("q".toList, "a+b".toList) := by simpa [signedParams, sampleParams] using hp
  decide

/-- What the verifier makes of the minted and of the edited link alike. -/
def samplePresented : Presented :=
  ⟨samplePath, sampleParams, (sampleSigner.signatureOf samplePath sampleParams).val⟩

theorem sample_sign : sampleSigner.sign samplePath sampleParams = .ok (sampleUrl mintedQuery) := by
  decide +kernel

theorem samplePresented_minted : samplePresented.signature =
    (sampleSigner.signatureOf (canonicalPath samplePath) (signedParams sampleParams none)).val := by
  decide +kernel

/-- The minted link says to the application what was signed. -/
theorem minted_binds :
    sampleSigner.sign samplePath sampleParams = .ok (sampleUrl mintedQuery) ∧
    sampleSigner.verify 0 (sampleUrl mintedQuery) = .ok () ∧
    ((sampleReader.read mintedQuery).filter fun q => q.1 ≠ signatureParam).Perm
      (signedParams sampleParams none) := by
  have hparse : sampleSigner.parse (sampleUrl mintedQuery) = .ok samplePresented := by decide +kernel
  have hverify := verify_of_parse hparse rfl rfl 0
  have htarget : sampleSigner.target (sampleUrl mintedQuery) = .ok (samplePath, mintedQuery) := by
    decide +kernel
  have hinput : macInput samplePresented.path samplePresented.params =
      macInput (canonicalPath samplePath) (signedParams sampleParams none) := by decide +kernel
  refine ⟨sample_sign, hverify, ?_⟩
  refine ((binds_iff_no_plus sampleSigner sampleReader hverify hparse htarget samplePresented_minted
    ?_ (by decide +kernel) sampleFits).mpr (by decide +kernel)).1
  rw [hinput]
  simp

/-- The edited link verifies under the minted MAC, and says something else to the application. -/
theorem edited_misread :
    sampleSigner.sign samplePath sampleParams = .ok (sampleUrl mintedQuery) ∧
    sampleSigner.verify 0 (sampleUrl editedQuery) = .ok () ∧
    sampleSigner.parse (sampleUrl editedQuery) = .ok samplePresented ∧
    samplePresented.signature =
      (sampleSigner.signatureOf (canonicalPath samplePath) (signedParams sampleParams none)).val ∧
    sampleSigner.target (sampleUrl editedQuery) = .ok (samplePath, editedQuery) ∧
    (sampleReader.read editedQuery).filter (fun q => q.1 ≠ signatureParam) =
      [("q".toList, "a b".toList)] ∧
    ¬ ((sampleReader.read editedQuery).filter fun q => q.1 ≠ signatureParam).Perm
      (signedParams sampleParams none) := by
  have hread : (sampleReader.read editedQuery).filter (fun q => q.1 ≠ signatureParam) =
      [("q".toList, "a b".toList)] := by decide +kernel
  have hparse : sampleSigner.parse (sampleUrl editedQuery) = .ok samplePresented := by decide +kernel
  refine ⟨sample_sign, verify_of_parse hparse rfl rfl 0, hparse, samplePresented_minted,
    by decide +kernel, hread, ?_⟩
  rw [hread]
  intro h
  have hsame : ("q".toList, "a b".toList) ∈ signedParams sampleParams none :=
    h.mem_iff.mp (by simp)
  exact absurd hsame (by decide)

end Arcature.Crypt

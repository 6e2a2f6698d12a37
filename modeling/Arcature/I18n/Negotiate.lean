import Arcature.I18n.AcceptLanguage
import Arcature.I18n.Locale

/-! The locale of a request.

    A request may propose a locale in its URL, in its session and in its header, and the first of these that
    is enabled and names a registered locale, or a language of one, decides:

        url fr       session pt-BR    header en     fr       source url
        url e/n      session fr-CA    header en     fr       source session, by its language
        url e/n      no session       header *      en       source default

    Whatever is proposed, the answer is a registered locale. The one way to get none is a header that is
    longer than its bound and has a character across it, when nothing before it decides
    (`resolve_iff`). -/

namespace Arcature.I18n
open Arcature.Lib

/-! ### Negotiation -/

/-- `LocaleSource`. -/
inductive LocaleSource where
  | url
  | session
  | header
  | default
  deriving DecidableEq

section negotiator

variable (langid : Str → Option Str) (γ : Type)

/-- `Locale`. -/
structure Locale where
  id : LocaleId langid
  source : LocaleSource
  catalogs : Catalogs langid γ

/-- `LocaleNegotiator`. -/
structure LocaleNegotiator where
  catalogs : Catalogs langid γ
  queryParameter : Option Str := none
  sessionKey : Option Str := none

variable {langid} {γ}

namespace LocaleNegotiator

/-- `at`. -/
def locale (negotiator : LocaleNegotiator langid γ) (id : LocaleId langid) (source : LocaleSource) : Locale langid γ :=
  ⟨id, source, negotiator.catalogs⟩

/-- `fallback`. -/
def fallback (negotiator : LocaleNegotiator langid γ) : Locale langid γ :=
  negotiator.locale negotiator.catalogs.default .default

/-- `registered`: the locale of a tag, or the first one of its language. -/
def registered (negotiator : LocaleNegotiator langid γ) (tag : Str) : Option (LocaleId langid) :=
  match LocaleId.parse langid tag with
  | .error _ => none
  | .ok id =>
    if negotiator.catalogs.contains id then some id
    else negotiator.catalogs.locales.find? fun registered => registered.language = id.language

/-- `match_accept_language`; the outer `none` is a panic. -/
def matchAcceptLanguage (negotiator : LocaleNegotiator langid γ) (header : Str) : Option (Option (LocaleId langid)) :=
  (acceptLanguageCandidates header).map fun candidates => candidates.findSome? fun (tag, _) => negotiator.registered tag

/-- `resolve`; `none` is a panic. -/
def resolve (negotiator : LocaleNegotiator langid γ) (url session acceptLanguage : Option Str) :
    Option (Locale langid γ) :=
  match if negotiator.queryParameter.isSome then url.bind negotiator.registered else none with
  | some id => some (negotiator.locale id .url)
  | none =>
    match if negotiator.sessionKey.isSome then session.bind negotiator.registered else none with
    | some id => some (negotiator.locale id .session)
    | none =>
      match acceptLanguage with
      | none => some negotiator.fallback
      | some header =>
        (negotiator.matchAcceptLanguage header).map fun
          | some id => negotiator.locale id .header
          | none => negotiator.fallback

/-! ### What is claimed of it -/

/-- A text is a tag of a registered locale or of the language of one. -/
def Proposes (negotiator : LocaleNegotiator langid γ) (text : Str) : Prop :=
  ∃ id, LocaleId.parse langid text = .ok id ∧ ∃ registered ∈ negotiator.catalogs.locales,
    registered = id ∨ registered.language = id.language

/-- The URL is read and proposes. -/
def UrlProposes (negotiator : LocaleNegotiator langid γ) (url : Option Str) : Prop :=
  negotiator.queryParameter.isSome ∧ ∃ tag, url = some tag ∧ negotiator.Proposes tag

/-- The session is read and proposes. -/
def SessionProposes (negotiator : LocaleNegotiator langid γ) (session : Option Str) : Prop :=
  negotiator.sessionKey.isSome ∧ ∃ tag, session = some tag ∧ negotiator.Proposes tag

/-- A candidate of the header proposes. -/
def HeaderProposes (negotiator : LocaleNegotiator langid γ) (acceptLanguage : Option Str) : Prop :=
  ∃ header candidates, acceptLanguage = some header ∧ acceptLanguageCandidates header = some candidates ∧
    ∃ candidate ∈ candidates, negotiator.Proposes candidate.1

/-- The locale is registered, its source is the first that proposes, and it is the default if none does. -/
structure Closed (negotiator : LocaleNegotiator langid γ) (url session acceptLanguage : Option Str)
    (locale : Locale langid γ) : Prop where
  registered : locale.id ∈ negotiator.catalogs.locales
  fromUrl : locale.source = .url ↔ negotiator.UrlProposes url
  fromSession : locale.source = .session ↔ ¬ negotiator.UrlProposes url ∧ negotiator.SessionProposes session
  fromHeader : locale.source = .header ↔ ¬ negotiator.UrlProposes url ∧ ¬ negotiator.SessionProposes session ∧
    negotiator.HeaderProposes acceptLanguage
  byDefault : ¬ negotiator.UrlProposes url → ¬ negotiator.SessionProposes session →
    ¬ negotiator.HeaderProposes acceptLanguage → locale = negotiator.fallback

/-! ### What is registered -/

variable {negotiator : LocaleNegotiator langid γ} {tag : Str} {id : LocaleId langid}

theorem registered_of_parse (h : LocaleId.parse langid tag = .ok id) : negotiator.registered tag =
    if negotiator.catalogs.contains id then some id
    else negotiator.catalogs.locales.find? fun registered => registered.language = id.language := by
  rw [registered, h]

/-- What comes back is registered. -/
theorem mem_of_registered (h : negotiator.registered tag = some id) : id ∈ negotiator.catalogs.locales := by
  rw [registered] at h
  split at h
  · cases h
  · split_ifs at h with hcontains
    · obtain rfl := Option.some.inj h
      exact Catalogs.mem_locales.mpr hcontains
    · exact List.mem_of_find?_eq_some h

theorem registered_isSome : (negotiator.registered tag).isSome = true ↔ negotiator.Proposes tag := by
  cases hparse : LocaleId.parse langid tag with
  | error e =>
    rw [registered, hparse]
    refine ⟨nofun, fun ⟨id, hid, _⟩ => ?_⟩
    rw [hparse] at hid
    cases hid
  | ok id =>
    rw [registered_of_parse hparse]
    constructor
    · intro h
      obtain ⟨found, hfound⟩ := Option.isSome_iff_exists.mp h
      have hmem := mem_of_registered ((registered_of_parse hparse).trans hfound)
      split_ifs at hfound with hcontains
      · exact ⟨id, hparse, found, hmem, .inl (Option.some.inj hfound).symm⟩
      · have hlanguage := List.find?_some hfound
        exact ⟨id, hparse, found, hmem, .inr (of_decide_eq_true hlanguage)⟩
    · rintro ⟨id', hid', other, hmem, hother⟩
      obtain rfl := Except.ok.inj (hparse.symm.trans hid')
      split_ifs with hcontains
      · rfl
      · rw [List.find?_isSome]
        refine ⟨other, hmem, decide_eq_true ?_⟩
        rcases hother with rfl | hother
        · rfl
        · exact hother

/-- An enabled source decides if it proposes. -/
theorem bind_isSome {enabled : Option Str} {text : Option Str} :
    (if enabled.isSome then text.bind negotiator.registered else none).isSome = true ↔
      enabled.isSome ∧ ∃ tag, text = some tag ∧ negotiator.Proposes tag := by
  split_ifs with henabled
  · rw [and_iff_right henabled]
    cases text with
    | none => simp
    | some tag => simp [registered_isSome]
  · simp [henabled]

theorem mem_of_bind {enabled : Option Str} {text : Option Str}
    (h : (if enabled.isSome then text.bind negotiator.registered else none) = some id) :
    id ∈ negotiator.catalogs.locales := by
  split_ifs at h
  obtain ⟨tag, -, htag⟩ := Option.bind_eq_some_iff.mp h
  exact mem_of_registered htag

theorem matchAcceptLanguage_isSome {header : Str} {candidates : List (Str × ℕ)}
    (h : acceptLanguageCandidates header = some candidates) :
    (candidates.findSome? fun (tag, _) => negotiator.registered tag).isSome = true ↔
      negotiator.HeaderProposes (some header) := by
  rw [List.isSome_findSome?, List.any_eq_true]
  constructor
  · rintro ⟨candidate, hmem, hproposes⟩
    exact ⟨header, candidates, rfl, h, candidate, hmem, registered_isSome.mp hproposes⟩
  · rintro ⟨header', candidates', hheader, hcandidates, candidate, hmem, hproposes⟩
    obtain rfl := Option.some.inj hheader
    obtain rfl := Option.some.inj (h.symm.trans hcandidates)
    exact ⟨candidate, hmem, registered_isSome.mpr hproposes⟩

/-! ### The answer -/

variable {url session acceptLanguage : Option Str}

variable (session acceptLanguage) in
theorem resolve_of_url (h : negotiator.UrlProposes url) : ∃ id ∈ negotiator.catalogs.locales,
    negotiator.resolve url session acceptLanguage = some (negotiator.locale id .url) := by
  obtain ⟨id, hid⟩ := Option.isSome_iff_exists.mp (bind_isSome.mpr h)
  exact ⟨id, mem_of_bind hid, by rw [resolve.eq_def, hid]⟩

variable (acceptLanguage) in
theorem resolve_of_session (hurl : ¬ negotiator.UrlProposes url) (h : negotiator.SessionProposes session) :
    ∃ id ∈ negotiator.catalogs.locales,
      negotiator.resolve url session acceptLanguage = some (negotiator.locale id .session) := by
  have hnone := Option.not_isSome_iff_eq_none.mp (bind_isSome.not.mpr hurl)
  obtain ⟨id, hid⟩ := Option.isSome_iff_exists.mp (bind_isSome.mpr h)
  exact ⟨id, mem_of_bind hid, by rw [resolve.eq_def, hnone, hid]⟩

/-- What is left to the header. -/
theorem resolve_of_neither (hurl : ¬ negotiator.UrlProposes url) (hsession : ¬ negotiator.SessionProposes session) :
    negotiator.resolve url session acceptLanguage =
      match acceptLanguage with
      | none => some negotiator.fallback
      | some header => (negotiator.matchAcceptLanguage header).map fun
        | some id => negotiator.locale id .header
        | none => negotiator.fallback := by
  rw [resolve.eq_def, Option.not_isSome_iff_eq_none.mp (bind_isSome.not.mpr hurl),
    Option.not_isSome_iff_eq_none.mp (bind_isSome.not.mpr hsession)]

/-- The fallback is what it should be when nothing proposes. -/
theorem closed_fallback (hurl : ¬ negotiator.UrlProposes url) (hsession : ¬ negotiator.SessionProposes session)
    (hheader : ¬ negotiator.HeaderProposes acceptLanguage) :
    negotiator.Closed url session acceptLanguage negotiator.fallback where
  registered := negotiator.catalogs.default_mem
  fromUrl := ⟨nofun, fun h => absurd h hurl⟩
  fromSession := ⟨nofun, fun h => absurd h.2 hsession⟩
  fromHeader := ⟨nofun, fun h => absurd h.2.2 hheader⟩
  byDefault _ _ _ := rfl

/-- A header that is read leads to an answer when nothing before it does. -/
theorem closed_of_neither (hurl : ¬ negotiator.UrlProposes url) (hsession : ¬ negotiator.SessionProposes session)
    (hread : ∀ header, acceptLanguage = some header → (acceptLanguageCandidates header).isSome) :
    ∃ locale, negotiator.resolve url session acceptLanguage = some locale ∧
      negotiator.Closed url session acceptLanguage locale := by
  rw [resolve_of_neither hurl hsession]
  cases acceptLanguage with
  | none =>
    refine ⟨_, rfl, closed_fallback hurl hsession ?_⟩
    rintro ⟨header, _, hheader, -⟩
    cases hheader
  | some header =>
    obtain ⟨candidates, hcandidates⟩ := Option.isSome_iff_exists.mp (hread header rfl)
    have hproposes : (candidates.findSome? fun (tag, _) => negotiator.registered tag).isSome = true ↔
        negotiator.HeaderProposes (some header) := matchAcceptLanguage_isSome hcandidates
    simp only [matchAcceptLanguage, hcandidates, Option.map_some]
    cases hfound : candidates.findSome? fun (tag, _) => negotiator.registered tag with
    | none =>
      rw [hfound] at hproposes
      exact ⟨_, rfl, closed_fallback hurl hsession fun h => Bool.noConfusion (hproposes.mpr h)⟩
    | some id =>
      rw [hfound] at hproposes
      have hheader := hproposes.mp rfl
      obtain ⟨candidate, -, hcandidate⟩ := List.exists_of_findSome?_eq_some hfound
      refine ⟨_, rfl, mem_of_registered hcandidate, ⟨nofun, fun h => absurd h hurl⟩,
        ⟨nofun, fun h => absurd h.2 hsession⟩, ⟨fun _ => ⟨hurl, hsession, hheader⟩, fun _ => rfl⟩, ?_⟩
      exact fun _ _ hnone => absurd hheader hnone

theorem candidates_isSome {header : Str} : (acceptLanguageCandidates header).isSome = true ↔
    ∃ kept lost, header = kept ++ lost ∧ kept.len = min header.len maxAcceptLanguageLen := by
  rw [acceptLanguageCandidates, Option.isSome_map, Option.isSome_iff_exists]
  exact exists_congr fun kept => sliceHeader_eq_some

/-- An answer needs a header that is read, unless something before it decides. -/
theorem read_of_resolve (hurl : ¬ negotiator.UrlProposes url) (hsession : ¬ negotiator.SessionProposes session)
    (h : (negotiator.resolve url session acceptLanguage).isSome) {header : Str} (hheader : acceptLanguage = some header) :
    (acceptLanguageCandidates header).isSome := by
  subst hheader
  rw [resolve_of_neither hurl hsession] at h
  simpa [matchAcceptLanguage] using h

/-- Whatever the registry, the configuration and the request: there is an answer, a registered locale of the
    first source that proposes one and else the default, exactly if the URL or the session proposes, or there is
    no header with a character across its bound. -/
theorem resolve_iff (negotiator : LocaleNegotiator langid γ) (url session acceptLanguage : Option Str) :
    (∃ locale, negotiator.resolve url session acceptLanguage = some locale ∧
      negotiator.Closed url session acceptLanguage locale) ↔
    negotiator.UrlProposes url ∨ negotiator.SessionProposes session ∨ ∀ header, acceptLanguage = some header →
      ∃ kept lost, header = kept ++ lost ∧ kept.len = min header.len maxAcceptLanguageLen := by
  by_cases hurl : negotiator.UrlProposes url
  · refine ⟨fun _ => .inl hurl, fun _ => ?_⟩
    obtain ⟨id, hmem, hresolve⟩ := resolve_of_url session acceptLanguage hurl
    exact ⟨_, hresolve, hmem, ⟨fun _ => hurl, fun _ => rfl⟩, ⟨nofun, fun h => absurd hurl h.1⟩,
      ⟨nofun, fun h => absurd hurl h.1⟩, fun h => absurd hurl h⟩
  by_cases hsession : negotiator.SessionProposes session
  · refine ⟨fun _ => .inr (.inl hsession), fun _ => ?_⟩
    obtain ⟨id, hmem, hresolve⟩ := resolve_of_session acceptLanguage hurl hsession
    exact ⟨_, hresolve, hmem, ⟨nofun, fun h => absurd h hurl⟩, ⟨fun _ => ⟨hurl, hsession⟩, fun _ => rfl⟩,
      ⟨nofun, fun h => absurd hsession h.2.1⟩, fun _ h => absurd hsession h⟩
  rw [or_iff_right hurl, or_iff_right hsession]
  constructor
  · rintro ⟨locale, hresolve, -⟩ header hheader
    exact candidates_isSome.mp (read_of_resolve hurl hsession (by rw [hresolve]; rfl) hheader)
  · exact fun h => closed_of_neither hurl hsession fun header hheader => candidates_isSome.mpr (h header hheader)

end LocaleNegotiator

end negotiator

/-- A language library that knows English. -/
def onlyEnglish (text : Str) : Option Str := if text = "en".toList then some text else none

/-- English is the one locale. -/
def english : LocaleNegotiator onlyEnglish Unit where
  catalogs := .new ⟨"en".toList, "en".toList, by decide, by decide⟩ ()

/-- A header with a character of two bytes across byte 512 gets no answer. -/
theorem accented_header_panics : english.resolve none none (some (List.replicate 511 'a' ++ ['\u00e9'])) = none := by
  have hslice : sliceHeader (List.replicate 511 'a' ++ ['\u00e9']) = none := by decide +kernel
  rw [LocaleNegotiator.resolve_of_neither (fun h => Bool.noConfusion h.1) (fun h => Bool.noConfusion h.1)]
  simp only [LocaleNegotiator.matchAcceptLanguage, acceptLanguageCandidates, hslice, Option.map_none]

end Arcature.I18n

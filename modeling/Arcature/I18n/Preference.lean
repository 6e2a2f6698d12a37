import Arcature.I18n.Negotiate

/-! Whether a header's preferences are kept.

    The candidates are tried one after another, each by its tag and then by its language, and what the rest
    of the header says is not looked at when one of them decides:

        registered fr            fr-CA, fr;q=0                  fr       which is refused
        registered pt-AO pt-BR   pt-PT;q=0.9, pt-BR;q=0.9       pt-AO    where pt-BR is wanted as much

    So everything rests on the entry that leads, the heaviest that names a registered locale or a language of
    one: its preferences are kept exactly if nothing else in the header refuses what it comes to, nor names a
    locale of its language that is wanted as much (`honours_iff`). -/

namespace Arcature.I18n
open Arcature.Lib

/-- A header within the bounds on its bytes and on its entries. -/
abbrev BoundedHeader :=
  {header : Str // header.len ≤ maxAcceptLanguageLen ∧ (header.splitOn ',').length ≤ maxCandidates}

/-! ### The entry that leads -/

/-- An entry of a header that is offered: its range and weight, and its place. -/
def Offered (header : Str) (candidate : (Str × ℕ) × ℕ) : Prop :=
  ∃ entry, (header.splitOn ',')[candidate.2]? = some entry ∧ readEntry entry = some candidate.1

/-- A heavier entry comes first, and of two equal ones the earlier. -/
def Before (a b : (Str × ℕ) × ℕ) : Prop := b.1.2 < a.1.2 ∨ (b.1.2 = a.1.2 ∧ a.2 < b.2)

/-- The weight that the entry at a place was sent with. -/
def weightAt (header : Str) (i : ℕ) : ℕ := exactWeight ((header.splitOn ',').getD i [])

/-! ### What a header decides -/

theorem sliceHeader_of_le {header : Str} (h : header.len ≤ maxAcceptLanguageLen) : sliceHeader header = some header :=
  sliceHeader_eq_some.mpr ⟨[], (List.append_nil header).symm, (Nat.min_eq_left h).symm⟩

/-- Within the bounds the candidates are the entries that are offered. -/
theorem mem_placed_iff_offered (header : BoundedHeader) {candidates : List ((Str × ℕ) × ℕ)}
    (h : placedCandidates header.1 = some candidates) {candidate : (Str × ℕ) × ℕ} :
    candidate ∈ candidates ↔ Offered header.1 candidate := by
  rw [mem_placed (sliceHeader_of_le header.2.1) h, Offered]
  refine exists_congr fun entry => and_congr_right fun hget => and_iff_right ?_
  exact (List.getElem?_eq_some_iff.mp hget).1.trans_le header.2.2

/-- No two entries come before one another. -/
theorem before_asymm (a b : (Str × ℕ) × ℕ) : Before a b → ¬ Before b a := by
  rw [Before, Before]
  omega

section preference

variable {langid : Str → Option Str} {γ : Type}

namespace LocaleNegotiator

variable (negotiator : LocaleNegotiator langid γ)

/-- An offered entry that names a registered locale or the language of one, before all others that do. -/
def Leads (header : Str) (lead : (Str × ℕ) × ℕ) : Prop :=
  Offered header lead ∧ negotiator.Proposes lead.1.1 ∧
    ∀ other, Offered header other → negotiator.Proposes other.1.1 → other = lead ∨ Before lead other

/-- An entry names a locale by its tag. -/
def Names (langid : Str → Option Str) (entry : Str) (id : LocaleId langid) : Prop :=
  LocaleId.parse langid (rangeOf entry) = .ok id

/-- The header refuses a locale by its tag. -/
def Refuses (header : Str) (id : LocaleId langid) : Prop :=
  ∃ entry ∈ header.splitOn ',', Names langid entry id ∧ exactWeight entry = 0

/-- A locale is what the entry that leads comes to by its language, with a weight of so much at most. -/
def ReachedByLanguage (header : Str) (id : LocaleId langid) (weight : ℕ) : Prop :=
  ∃ lead named, negotiator.Leads header lead ∧ LocaleId.parse langid lead.1.1 = .ok named ∧
    negotiator.catalogs.contains named = false ∧ negotiator.registered lead.1.1 = some id ∧
    weightAt header lead.2 ≤ weight

/-- What the header decides is not refused by it, nor taken by its language where the header names another
    registered locale of that language with the same weight or more. -/
structure Honours (header : Str) : Prop where
  refused : ∀ url session locale, negotiator.resolve url session (some header) = some locale →
    locale.source = .header → ¬ Refuses header locale.id
  exact : ∀ url session locale, negotiator.resolve url session (some header) = some locale →
    locale.source = .header → ∀ entry ∈ header.splitOn ',', ∀ id, Names langid entry id →
      negotiator.catalogs.contains id = true → id.language = locale.id.language → locale.id ≠ id →
        ¬ negotiator.ReachedByLanguage header locale.id (exactWeight entry)

/-- What the rest of a header must leave to the entry that leads. -/
structure LeftTo (header : Str) (lead : (Str × ℕ) × ℕ) (named : LocaleId langid) : Prop where
  byTag : negotiator.catalogs.contains named = true → ¬ Refuses header named
  byLanguage : negotiator.catalogs.contains named = false → ∀ first,
    negotiator.catalogs.locales.find? (fun registered => registered.language = named.language) = some first →
      ¬ Refuses header first ∧ ∀ entry ∈ header.splitOn ',', ∀ other, Names langid entry other →
        negotiator.catalogs.contains other = true → other.language = named.language → other ≠ first →
          exactWeight entry < weightAt header lead.2

/-! ### The choice -/

variable {negotiator} {lead : (Str × ℕ) × ℕ} {id : LocaleId langid}

/-- One entry leads. -/
theorem leads_unique {header : Str} {other : (Str × ℕ) × ℕ} (h : negotiator.Leads header lead)
    (hother : negotiator.Leads header other) : other = lead := by
  rcases h.2.2 other hother.1 hother.2.1 with heq | hbefore
  · exact heq
  · rcases hother.2.2 lead h.1 h.2.1 with heq | hbefore'
    · exact heq.symm
    · exact absurd hbefore' (before_asymm lead other hbefore)

/-- A header comes to what its leading entry does. -/
theorem matchAcceptLanguage_eq_some_iff (header : BoundedHeader) :
    negotiator.matchAcceptLanguage header.1 = some (some id) ↔
      ∃ lead, negotiator.Leads header.1 lead ∧ negotiator.registered lead.1.1 = some id := by
  obtain ⟨candidates, hplaced⟩ : ∃ candidates, placedCandidates header.1 = some candidates :=
    ⟨_, by rw [placedCandidates, sliceHeader_of_le header.2.1]; rfl⟩
  have hleads : ∀ lead, candidates.find? (fun candidate => (negotiator.registered candidate.1.1).isSome) = some lead ↔
      negotiator.Leads header.1 lead := by
    intro lead
    rw [find?_eq_some_iff_before before_asymm (order_placed hplaced), Leads]
    simp only [mem_placed_iff_offered header hplaced, registered_isSome]
  have hmatch : negotiator.matchAcceptLanguage header.1 =
      some ((candidates.find? fun candidate => (negotiator.registered candidate.1.1).isSome).bind fun candidate =>
        negotiator.registered candidate.1.1) := by
    rw [matchAcceptLanguage, candidates_eq_placed, hplaced, Option.map_some, Option.map_some, List.findSome?_map]
    exact congrArg some (findSome?_eq_bind_find? _ candidates)
  rw [hmatch, Option.some.injEq, Option.bind_eq_some_iff]
  exact exists_congr fun lead => and_congr_left fun _ => hleads lead

/-- What the header decides is what it comes to. -/
theorem match_of_resolve {header : Str} {url session : Option Str} {locale : Locale langid γ}
    (h : negotiator.resolve url session (some header) = some locale) (hsource : locale.source = .header) :
    negotiator.matchAcceptLanguage header = some (some locale.id) := by
  by_cases hurl : negotiator.UrlProposes url
  · obtain ⟨id, -, hid⟩ := resolve_of_url session (some header) hurl
    obtain rfl := Option.some.inj (hid.symm.trans h)
    cases hsource
  by_cases hsession : negotiator.SessionProposes session
  · obtain ⟨id, -, hid⟩ := resolve_of_session (some header) hurl hsession
    obtain rfl := Option.some.inj (hid.symm.trans h)
    cases hsource
  rw [resolve_of_neither hurl hsession] at h
  obtain ⟨found, hfound, rfl⟩ := Option.map_eq_some_iff.mp h
  cases found with
  | none => cases hsource
  | some id => exact hfound

/-- With nothing else proposed the header decides. -/
theorem resolve_of_match {header : Str} (h : negotiator.matchAcceptLanguage header = some (some id)) :
    negotiator.resolve none none (some header) = some (negotiator.locale id .header) := by
  have hurl : ¬ negotiator.UrlProposes none := fun ⟨_, _, hnone, _⟩ => nomatch hnone
  have hsession : ¬ negotiator.SessionProposes none := fun ⟨_, _, hnone, _⟩ => nomatch hnone
  rw [resolve_of_neither hurl hsession]
  simp only [h, Option.map_some]

/-- What a leading entry comes to is chosen. -/
theorem resolve_of_leads (header : BoundedHeader) (h : negotiator.Leads header.1 lead)
    (hid : negotiator.registered lead.1.1 = some id) :
    negotiator.resolve none none (some header.1) = some (negotiator.locale id .header) :=
  resolve_of_match ((matchAcceptLanguage_eq_some_iff header).mpr ⟨lead, h, hid⟩)

/-- What is found by its language is registered, and another than the tag named. -/
theorem registered_of_not_contains {named : LocaleId langid} {text : Str}
    (hnamed : LocaleId.parse langid text = .ok named) (h : negotiator.catalogs.contains named = false) :
    negotiator.registered text =
      negotiator.catalogs.locales.find? fun registered => registered.language = named.language := by
  rw [registered_of_parse hnamed, if_neg (by simp [h])]

/-- What is found by a language is of it. -/
theorem language_of_find {catalogs : Catalogs langid γ} {language : Str}
    (h : catalogs.locales.find? (fun registered => registered.language = language) = some id) :
    id.language = language := by
  simpa using List.find?_some h

/-- A header that is honoured leaves its leading entry what it comes to. -/
theorem leftTo_of_honours {header : BoundedHeader} (h : negotiator.Honours header.1) {named : LocaleId langid}
    (hlead : negotiator.Leads header.1 lead) (hnamed : LocaleId.parse langid lead.1.1 = .ok named) :
    negotiator.LeftTo header.1 lead named where
  byTag hcontains := by
    have hid : negotiator.registered lead.1.1 = some named := by rw [registered_of_parse hnamed, if_pos hcontains]
    exact h.refused none none _ (resolve_of_leads header hlead hid) rfl
  byLanguage hcontains first hfirst := by
    have hid := (registered_of_not_contains hnamed hcontains).trans hfirst
    have hchosen := resolve_of_leads header hlead hid
    refine ⟨h.refused none none _ hchosen rfl, fun entry hentry other hother hregistered hlanguage hne => ?_⟩
    by_contra hweight
    have hsame : other.language = first.language := hlanguage.trans (language_of_find hfirst).symm
    exact h.exact none none _ hchosen rfl entry hentry other hother hregistered hsame hne.symm
      ⟨lead, named, hlead, hnamed, hcontains, hid, Nat.le_of_not_lt hweight⟩

/-- A header whose leading entry is left what it comes to is honoured. -/
theorem honours_of_leftTo {header : BoundedHeader} (h : ∀ lead named, negotiator.Leads header.1 lead →
    LocaleId.parse langid lead.1.1 = .ok named → negotiator.LeftTo header.1 lead named) :
    negotiator.Honours header.1 where
  refused url session locale hresolve hsource := by
    obtain ⟨lead, hlead, hid⟩ := (matchAcceptLanguage_eq_some_iff header).mp (match_of_resolve hresolve hsource)
    obtain ⟨named, hnamed, -⟩ := hlead.2.1
    cases hcontains : negotiator.catalogs.contains named with
    | true =>
      rw [registered_of_parse hnamed, if_pos hcontains] at hid
      exact Option.some.inj hid ▸ (h lead named hlead hnamed).byTag hcontains
    | false =>
      rw [registered_of_not_contains hnamed hcontains] at hid
      exact ((h lead named hlead hnamed).byLanguage hcontains locale.id hid).1
  exact _ _ locale _ _ entry hentry id hnames hregistered hlanguage hne := by
    rintro ⟨lead, named, hlead, hnamed, hcontains, hid, hweight⟩
    rw [registered_of_not_contains hnamed hcontains] at hid
    have hsame : id.language = named.language := hlanguage.trans (language_of_find hid)
    have hlt := ((h lead named hlead hnamed).byLanguage hcontains locale.id hid).2 entry hentry id hnames hregistered
      hsame hne.symm
    exact absurd hweight (Nat.not_le_of_lt hlt)

/-- Whatever the registry and the header within its bounds: what the header decides is not refused by it, nor
    another locale of a language that it names as much, exactly if the rest of it leaves the entry that leads what
    it comes to. -/
theorem honours_iff (negotiator : LocaleNegotiator langid γ) (header : BoundedHeader) :
    negotiator.Honours header.1 ↔ ∀ lead named, negotiator.Leads header.1 lead →
      LocaleId.parse langid lead.1.1 = .ok named → negotiator.LeftTo header.1 lead named :=
  ⟨fun h _ _ => leftTo_of_honours h, honours_of_leftTo⟩

end LocaleNegotiator

end preference

/-- A language library that knows English, French and the French of Canada. -/
def someFrench (text : Str) : Option Str :=
  if text ∈ ["en".toList, "fr".toList, "fr-CA".toList] then some text else none

/-- French. -/
def french : LocaleId someFrench := ⟨"fr".toList, "fr".toList, by decide, by decide⟩

/-- English is the default, and French is registered. -/
def englishAndFrench : LocaleNegotiator someFrench Unit where
  catalogs := .withCatalog (.new ⟨"en".toList, "en".toList, by decide, by decide⟩ ()) french ()

/-- A header that asks for the French of Canada and refuses French. -/
def canadianOnly : BoundedHeader := ⟨"fr-CA,fr;q=0".toList, by decide, by decide⟩

/-- The French that the header refuses is served as the language of the entry before. -/
theorem refused_french_served :
    englishAndFrench.resolve none none (some canadianOnly.1) = some (englishAndFrench.locale french .header) ∧
      LocaleNegotiator.Refuses canadianOnly.1 french := by
  have hmatch : englishAndFrench.matchAcceptLanguage canadianOnly.1 = some (some french) := by decide +kernel
  refine ⟨LocaleNegotiator.resolve_of_match hmatch, "fr;q=0".toList, by decide, rfl, by decide +kernel⟩

end Arcature.I18n

import Arcature.Lib.Html
import Mathlib.Data.List.ReduceOption

/-! The metadata of a page (`inertia/head.rs`).

    A head has seventeen fields, each stored as it may stand in a document. It is written as one element
    after the other, some of which fall back on other fields:

        title            <title>…</title>
        description      <meta name="description" …>
        canonical        <link rel="canonical" …>
        og_title         <meta property="og:title" …>         or the title
        …
        twitter_card     <meta name="twitter:card" …>         or a card of what there is to preview

    Whatever is put into the fields, the document has the elements of the template and no others, and each
    holds what was put last into the field it comes from (`head_faithful`). -/

namespace Arcature.Inertia
open Arcature.Lib Arcature.Lib.Html

/-- What a character of markup is spelled as. -/
def escapeMarkup : Char → Str
  | '&' => "&amp;".toList
  | '<' => "&lt;".toList
  | '>' => "&gt;".toList
  | '"' => "&quot;".toList
  | '\'' => "&#x27;".toList
  | other => [other]

/-- The slow path of `escape`, which goes over all the characters. -/
def escapeSlow (raw : Str) : Str := raw.flatMap escapeMarkup

/-- `escape`. -/
def escape (raw : Str) : Str :=
  if (Str.bytes raw).all fun b => b != 0x26 && b != 0x3c && b != 0x3e && b != 0x22 && b != 0x27 then raw
  else escapeSlow raw

/-- A field of a head. -/
inductive HeadField where
  | title | description | canonical
  | ogTitle | ogDescription | ogType | ogUrl | ogImage | ogImageAlt | ogSiteName | ogLocale
  | twitterCard | twitterSite | twitterCreator | twitterTitle | twitterDescription | twitterImage
  deriving DecidableEq

/-- `Head`. -/
structure Head where
  title : Option Str := none
  description : Option Str := none
  canonical : Option Str := none
  ogTitle : Option Str := none
  ogDescription : Option Str := none
  ogType : Option Str := none
  ogUrl : Option Str := none
  ogImage : Option Str := none
  ogImageAlt : Option Str := none
  ogSiteName : Option Str := none
  ogLocale : Option Str := none
  twitterCard : Option Str := none
  twitterSite : Option Str := none
  twitterCreator : Option Str := none
  twitterTitle : Option Str := none
  twitterDescription : Option Str := none
  twitterImage : Option Str := none
  deriving DecidableEq

namespace Head

/-- `new`. -/
def new : Head := {}

/-- The accessor that `head_field!` generates. -/
def get (head : Head) : HeadField → Option Str
  | .title => head.title
  | .description => head.description
  | .canonical => head.canonical
  | .ogTitle => head.ogTitle
  | .ogDescription => head.ogDescription
  | .ogType => head.ogType
  | .ogUrl => head.ogUrl
  | .ogImage => head.ogImage
  | .ogImageAlt => head.ogImageAlt
  | .ogSiteName => head.ogSiteName
  | .ogLocale => head.ogLocale
  | .twitterCard => head.twitterCard
  | .twitterSite => head.twitterSite
  | .twitterCreator => head.twitterCreator
  | .twitterTitle => head.twitterTitle
  | .twitterDescription => head.twitterDescription
  | .twitterImage => head.twitterImage

/-- The setter that `head_field!` generates. -/
def withField (head : Head) (field : HeadField) (value : Str) : Head :=
  let stored := some (escape value)
  match field with
  | .title => { head with title := stored }
  | .description => { head with description := stored }
  | .canonical => { head with canonical := stored }
  | .ogTitle => { head with ogTitle := stored }
  | .ogDescription => { head with ogDescription := stored }
  | .ogType => { head with ogType := stored }
  | .ogUrl => { head with ogUrl := stored }
  | .ogImage => { head with ogImage := stored }
  | .ogImageAlt => { head with ogImageAlt := stored }
  | .ogSiteName => { head with ogSiteName := stored }
  | .ogLocale => { head with ogLocale := stored }
  | .twitterCard => { head with twitterCard := stored }
  | .twitterSite => { head with twitterSite := stored }
  | .twitterCreator => { head with twitterCreator := stored }
  | .twitterTitle => { head with twitterTitle := stored }
  | .twitterDescription => { head with twitterDescription := stored }
  | .twitterImage => { head with twitterImage := stored }

/-- `resolved_card`. -/
def resolvedCard (head : Head) : Option Str :=
  match head.twitterCard with
  | some card => some card
  | none =>
    let hasImage := head.twitterImage.isSome || head.ogImage.isSome
    let hasContent := hasImage || head.title.isSome || head.description.isSome || head.ogTitle.isSome ||
      head.ogDescription.isSome || head.twitterTitle.isSome || head.twitterDescription.isSome
    if !hasContent then none else some (if hasImage then "summary_large_image".toList else "summary".toList)

/-- `push_element`. -/
def pushElement (out element : Str) : Str := (if out ≠ [] then out ++ "\n  ".toList else out) ++ element

/-- `push_meta`. -/
def pushMeta (out attr key : Str) (value : Option Str) : Str :=
  match value with
  | none => out
  | some value => pushElement out
      ("<meta ".toList ++ attr ++ "=\x22".toList ++ key ++ "\x22 content=\x22".toList ++ value ++ "\x22 />".toList)

/-- `to_html`. -/
def toHtml (head : Head) : Str :=
  let out : Str := []
  let out := match head.title with
    | some title => pushElement out ("<title>".toList ++ title ++ "</title>".toList)
    | none => out
  let out := pushMeta out "name".toList "description".toList head.description
  let out := match head.canonical with
    | some canonical =>
      pushElement out ("<link rel=\x22canonical\x22 href=\x22".toList ++ canonical ++ "\x22 />".toList)
    | none => out
  let ogTitle := head.ogTitle.or head.title
  let ogDescription := head.ogDescription.or head.description
  let ogUrl := head.ogUrl.or head.canonical
  let out := pushMeta out "property".toList "og:title".toList ogTitle
  let out := pushMeta out "property".toList "og:description".toList ogDescription
  let out := pushMeta out "property".toList "og:type".toList head.ogType
  let out := pushMeta out "property".toList "og:url".toList ogUrl
  let out := pushMeta out "property".toList "og:image".toList head.ogImage
  let out := pushMeta out "property".toList "og:image:alt".toList head.ogImageAlt
  let out := pushMeta out "property".toList "og:site_name".toList head.ogSiteName
  let out := pushMeta out "property".toList "og:locale".toList head.ogLocale
  let out := pushMeta out "name".toList "twitter:card".toList head.resolvedCard
  let out := pushMeta out "name".toList "twitter:site".toList head.twitterSite
  let out := pushMeta out "name".toList "twitter:creator".toList head.twitterCreator
  let out := pushMeta out "name".toList "twitter:title".toList head.twitterTitle
  let out := pushMeta out "name".toList "twitter:description".toList head.twitterDescription
  pushMeta out "name".toList "twitter:image".toList head.twitterImage

/-- A head after some setters have been called, one after the other. -/
def build (calls : List (HeadField × Str)) : Head :=
  calls.foldl (fun head (field, value) => head.withField field value) new

end Head

/-! ### The template -/

/-- The kinds of elements that a head is written in. -/
inductive HeadTag where
  | title
  | link
  | named (attr key : Str)

/-- An element of a kind. -/
def HeadTag.element : HeadTag → Str → Element
  | .title, value => ⟨"title".toList, [], some value⟩
  | .link, value => ⟨"link".toList, [("rel".toList, "canonical".toList), ("href".toList, value)], none⟩
  | .named attr key, value => ⟨"meta".toList, [(attr, key), ("content".toList, value)], none⟩

/-- The card of what there is to preview. -/
def previewCard (isSet : HeadField → Bool) : Option Str :=
  if isSet .twitterImage || isSet .ogImage then some "summary_large_image".toList
  else if [.title, .description, .ogTitle, .ogDescription, .twitterTitle, .twitterDescription].any isSet then
    some "summary".toList
  else none

/-- The elements of a head in order, and what each takes its value from. -/
def template : List (HeadTag × ((HeadField → Option Str) → Option Str)) :=
  [(.title, (· .title)),
    (.named "name".toList "description".toList, (· .description)),
    (.link, (· .canonical)),
    (.named "property".toList "og:title".toList, fun f => (f .ogTitle).or (f .title)),
    (.named "property".toList "og:description".toList, fun f => (f .ogDescription).or (f .description)),
    (.named "property".toList "og:type".toList, (· .ogType)),
    (.named "property".toList "og:url".toList, fun f => (f .ogUrl).or (f .canonical)),
    (.named "property".toList "og:image".toList, (· .ogImage)),
    (.named "property".toList "og:image:alt".toList, (· .ogImageAlt)),
    (.named "property".toList "og:site_name".toList, (· .ogSiteName)),
    (.named "property".toList "og:locale".toList, (· .ogLocale)),
    (.named "name".toList "twitter:card".toList,
      fun f => (f .twitterCard).or (previewCard fun field => (f field).isSome)),
    (.named "name".toList "twitter:site".toList, (· .twitterSite)),
    (.named "name".toList "twitter:creator".toList, (· .twitterCreator)),
    (.named "name".toList "twitter:title".toList, (· .twitterTitle)),
    (.named "name".toList "twitter:description".toList, (· .twitterDescription)),
    (.named "name".toList "twitter:image".toList, (· .twitterImage))]

/-- The elements of fields. -/
def elements (fields : HeadField → Option Str) : List Element :=
  template.filterMap fun slot => (slot.2 fields).map slot.1.element

/-- What was put last into a field. -/
def lastPut (calls : List (HeadField × Str)) (field : HeadField) : Option Str :=
  (calls.reverse.find? (·.1 = field)).map Prod.snd

/-! ### Escaping -/

theorem decode_cons_of_ne {c : Char} (h : c ≠ '&') (rest : Str) : decode (c :: rest) = c :: decode rest := by
  rw [decode]
  all_goals
    rintro _ rfl
    exact absurd rfl h

theorem escapeMarkup_of_ne {c : Char} (h : c ∉ ['&', '<', '>', '"', '\'']) : escapeMarkup c = [c] := by
  simp only [List.mem_cons, List.not_mem_nil, or_false, not_or] at h
  obtain ⟨hamp, hlt, hgt, hquot, happ⟩ := h
  unfold escapeMarkup
  split <;> first | contradiction | rfl

/-- What a character is spelled as is read as that character. -/
theorem decode_escapeMarkup (c : Char) (rest : Str) : decode (escapeMarkup c ++ rest) = c :: decode rest := by
  by_cases h : c ∈ ['&', '<', '>', '"', '\'']
  · simp only [List.mem_cons, List.not_mem_nil, or_false] at h
    obtain rfl | rfl | rfl | rfl | rfl := h <;> rfl
  · rw [escapeMarkup_of_ne h, List.singleton_append]
    exact decode_cons_of_ne (fun heq => h (heq ▸ List.mem_cons_self)) rest

theorem decode_escapeSlow (raw : Str) : decode (escapeSlow raw) = raw := by
  induction raw with
  | nil => rfl
  | cons c raw ih => rw [escapeSlow, List.flatMap_cons, decode_escapeMarkup, ← escapeSlow, ih]

/-- No quote and no bracket is left. -/
theorem notMem_escapeSlow {d : Char} (hd : d ∈ ['"', '<']) (raw : Str) : d ∉ escapeSlow raw := by
  intro hmem
  obtain ⟨c, -, hc⟩ := List.mem_flatMap.mp hmem
  by_cases h : c ∈ ['&', '<', '>', '"', '\'']
  · simp only [List.mem_cons, List.not_mem_nil, or_false] at h hd
    obtain rfl | rfl := hd <;> obtain rfl | rfl | rfl | rfl | rfl := h <;> revert hc <;> decide
  · rw [escapeMarkup_of_ne h, List.mem_singleton] at hc
    subst hc
    have hsub : ['"', '<'] ⊆ ['&', '<', '>', '"', '\''] := by decide
    exact h (hsub hd)

/-- The fast path leaves texts as they are that the slow path would not change. -/
theorem escape_eq (raw : Str) : escape raw = escapeSlow raw := by
  unfold escape
  split_ifs with hplain
  · have hself : ∀ c ∈ raw, escapeMarkup c = [c] := by
      intro c hc
      refine escapeMarkup_of_ne fun hspecial => ?_
      have hbytes := fun b hb => List.all_eq_true.mp hplain b (List.mem_flatMap.mpr ⟨c, hc, hb⟩)
      simp only [List.mem_cons, List.not_mem_nil, or_false] at hspecial
      obtain rfl | rfl | rfl | rfl | rfl := hspecial <;> revert hbytes <;> decide
    rw [escapeSlow, List.flatMap_congr hself, List.flatMap_singleton']
  · rfl

theorem decode_escape (raw : Str) : decode (escape raw) = raw := by
  rw [escape_eq, decode_escapeSlow]

/-! ### What has been put into a head -/

theorem get_withField (head : Head) (field f : HeadField) (value : Str) :
    (head.withField field value).get f = if field = f then some (escape value) else head.get f := by
  cases field <;> cases f <;> rfl

/-- Each field holds what was put into it last. -/
theorem get_build (calls : List (HeadField × Str)) (f : HeadField) :
    (Head.build calls).get f = (lastPut calls f).map escape := by
  induction calls using List.reverseRecOn with
  | nil => cases f <;> rfl
  | append_singleton calls call ih =>
    obtain ⟨field, value⟩ := call
    rw [Head.build, List.foldl_append, ← Head.build, List.foldl_cons, List.foldl_nil, get_withField, ih]
    simp only [lastPut, List.reverse_append, List.reverse_cons, List.reverse_nil, List.nil_append, List.cons_append,
      List.find?_cons]
    by_cases h : field = f <;> simp [h]

/-! ### What is written -/

/-- An element is put behind the ones that are there. -/
theorem pushElement_document (es : List Element) (e : Element) :
    Head.pushElement (document (es.map Element.write)) e.write = document ((es ++ [e]).map Element.write) := by
  cases es with
  | nil => simp [document, Head.pushElement]
  | cons e' es =>
    have hne : document ((e' :: es).map Element.write) ≠ [] := by
      have hlen := length_le_document (e' :: es)
      exact List.ne_nil_of_length_pos (by rw [List.length_cons] at hlen; omega)
    rw [Head.pushElement, if_pos hne, List.map_append, List.map_singleton]
    exact (document_concat (List.cons_ne_nil _ _) e.write).symm

/-- An element that there may be is put behind the ones that are there. -/
def push (out : Str) (e : Option Element) : Str := e.elim out fun e => Head.pushElement out e.write

theorem pushMeta_eq (out attr key : Str) (value : Option Str) :
    Head.pushMeta out attr key value = push out (value.map (HeadTag.named attr key).element) := by
  cases value with
  | none => rfl
  | some value => simp [Head.pushMeta, push, HeadTag.element, Element.write, writeAttr]

theorem resolvedCard_eq (head : Head) :
    head.resolvedCard = (head.get .twitterCard).or (previewCard fun field => (head.get field).isSome) := by
  unfold Head.resolvedCard
  cases h : head.twitterCard with
  | some card => simp [Head.get, h]
  | none =>
    simp only [Head.get, h, previewCard, List.any_cons, List.any_nil, Bool.or_false, Option.none_or]
    generalize (head.twitterImage.isSome || head.ogImage.isSome) = hasImage
    cases hasImage with
    | true => rfl
    | false =>
      simp only [Bool.false_or, Bool.false_eq_true, if_false, Bool.or_assoc]
      cases head.title.isSome || (head.description.isSome || (head.ogTitle.isSome || (head.ogDescription.isSome ||
        (head.twitterTitle.isSome || head.twitterDescription.isSome)))) <;> rfl

/-- A head is written as the elements of the template. -/
theorem toHtml_eq (head : Head) : head.toHtml = document ((elements head.get).map Element.write) := by
  have htitle : ∀ out : Str, (match head.title with
      | some title => Head.pushElement out ("<title>".toList ++ title ++ "</title>".toList)
      | none => out) = push out (head.title.map HeadTag.title.element) := by
    intro out
    cases head.title with
    | none => rfl
    | some title => simp [push, HeadTag.element, Element.write]
  have hlink : ∀ out : Str, (match head.canonical with
      | some canonical =>
        Head.pushElement out ("<link rel=\x22canonical\x22 href=\x22".toList ++ canonical ++ "\x22 />".toList)
      | none => out) = push out (head.canonical.map HeadTag.link.element) := by
    intro out
    cases head.canonical with
    | none => rfl
    | some canonical => simp [push, HeadTag.element, Element.write, writeAttr]
  have hpushed : ∀ (slots : List (Option Element)) (es : List Element),
      slots.foldl push (document (es.map Element.write)) = document ((es ++ slots.reduceOption).map Element.write) := by
    intro slots
    induction slots with
    | nil => simp [List.reduceOption]
    | cons slot slots ih =>
      intro es
      cases slot with
      | none => exact ih es
      | some e =>
        rw [List.foldl_cons, push, Option.elim_some, pushElement_document, ih, List.append_assoc]
        rfl
  have hslots : elements head.get =
      (template.map fun slot => (slot.2 head.get).map slot.1.element).reduceOption := by
    rw [List.reduceOption, List.filterMap_map]
    rfl
  have hfold := hpushed (template.map fun slot => (slot.2 head.get).map slot.1.element) []
  rw [hslots, ← List.nil_append (List.reduceOption _), ← hfold]
  simp only [Head.toHtml, pushMeta_eq, htitle, hlink, resolvedCard_eq]
  rfl

/-! ### What is read -/

/-- A kind of element whose own attributes are read as they are spelled. -/
def HeadTag.Plain : HeadTag → Prop
  | .named attr key => IsName attr ∧ '"' ∉ key ∧ decode key = key
  | _ => True

theorem plain_of_mem_template : ∀ slot ∈ template, slot.1.Plain := by
  have hname : IsName "name".toList := by decide
  have hproperty : IsName "property".toList := by decide
  simp only [template, List.forall_mem_cons, HeadTag.Plain, hname, hproperty, true_and, List.not_mem_nil,
    false_implies, implies_true, and_true]
  and_intros <;> decide

theorem HeadTag.Plain.spelled {tag : HeadTag} (h : tag.Plain) (raw : Str) : (tag.element (escape raw)).Spelled := by
  have hquote : '"' ∉ escape raw := by
    rw [escape_eq]
    exact notMem_escapeSlow (by decide) raw
  have hopen : '<' ∉ escape raw := by
    rw [escape_eq]
    exact notMem_escapeSlow (by decide) raw
  cases tag with
  | title =>
    have hname : IsName "title".toList := by decide
    exact ⟨hname, fun _ hattr => absurd hattr List.not_mem_nil, fun _ htext => Option.some.inj htext ▸ hopen⟩
  | link =>
    have hname : IsName "link".toList := by decide
    have hrel : IsName "rel".toList ∧ '"' ∉ "canonical".toList := by decide
    have hhref : IsName "href".toList := by decide
    exact ⟨hname, List.forall_mem_cons.mpr ⟨hrel, List.forall_mem_singleton.mpr ⟨hhref, hquote⟩⟩,
      fun _ htext => nomatch htext⟩
  | named attr key =>
    have hname : IsName "meta".toList := by decide
    have hcontent : IsName "content".toList := by decide
    exact ⟨hname, List.forall_mem_cons.mpr ⟨⟨h.1, h.2.1⟩, List.forall_mem_singleton.mpr ⟨hcontent, hquote⟩⟩,
      fun _ htext => nomatch htext⟩

theorem HeadTag.Plain.decoded {tag : HeadTag} (h : tag.Plain) (raw : Str) :
    (tag.element (escape raw)).decoded = tag.element raw := by
  cases tag with
  | title => simp [HeadTag.element, Element.decoded, decode_escape]
  | link =>
    have hrel : decode "canonical".toList = "canonical".toList := by decide
    simp only [HeadTag.element, Element.decoded, List.map_cons, List.map_nil, Option.map_none, decode_escape, hrel]
  | named attr key => simp [HeadTag.element, Element.decoded, decode_escape, h.2.2]

/-- What is chosen of fields that are escaped is what is chosen of the fields, escaped. -/
theorem choose_escape (fields : HeadField → Option Str) :
    ∀ slot ∈ template, slot.2 (fun f => (fields f).map escape) = (slot.2 fields).map escape := by
  have hcard : ∀ isSet, (previewCard isSet).map escape = previewCard isSet := by
    intro isSet
    unfold previewCard
    split_ifs <;> decide
  simp only [template, List.forall_mem_cons, Option.map_or, hcard, Option.isSome_map]
  simp

/-- Escaped fields are written in elements that are read with the fields as they were. -/
theorem elements_escape (fields : HeadField → Option Str) :
    (∀ e ∈ elements fun f => (fields f).map escape, e.Spelled) ∧
      (elements fun f => (fields f).map escape).map Element.decoded = elements fields := by
  have hslots : (elements fun f => (fields f).map escape) =
      template.filterMap fun slot => (slot.2 fields).map fun raw => slot.1.element (escape raw) := by
    refine List.filterMap_congr fun slot hslot => ?_
    rw [choose_escape fields slot hslot, Option.map_map]
    rfl
  rw [hslots]
  constructor
  · intro e he
    obtain ⟨slot, hslot, hvalue⟩ := List.mem_filterMap.mp he
    obtain ⟨raw, -, rfl⟩ := Option.map_eq_some_iff.mp hvalue
    exact (plain_of_mem_template slot hslot).spelled raw
  · rw [List.map_filterMap]
    refine List.filterMap_congr fun slot hslot => ?_
    rw [Option.map_map]
    exact congrArg (slot.2 fields).map (funext fun raw => (plain_of_mem_template slot hslot).decoded raw)

/-! ### What an argument can change -/

/-- A value is the same, or it is one argument in the place of another. -/
def Replaced (value value' : Str) (o o' : Option Str) : Prop := o = o' ∨ o = some value ∧ o' = some value'

theorem Replaced.isSome {value value' : Str} {o o' : Option Str} (h : Replaced value value' o o') :
    o.isSome = o'.isSome := by
  obtain rfl | ⟨rfl, rfl⟩ := h <;> rfl

theorem Replaced.or {value value' : Str} {o o' u u' : Option Str} (ho : Replaced value value' o o')
    (hu : Replaced value value' u u') : Replaced value value' (o.or u) (o'.or u') := by
  obtain rfl | ⟨rfl, rfl⟩ := ho
  · cases o with
    | none => exact hu
    | some _ => exact .inl rfl
  · exact .inr ⟨rfl, rfl⟩

theorem lastPut_replaced (before after : List (HeadField × Str)) (field f : HeadField) (value value' : Str) :
    Replaced value value' (lastPut (before ++ (field, value) :: after) f)
      (lastPut (before ++ (field, value') :: after) f) := by
  simp only [lastPut, List.reverse_append, List.reverse_cons, List.append_assoc, List.singleton_append,
    List.find?_append, List.find?_cons]
  cases after.reverse.find? (·.1 = f) with
  | some _ => exact .inl rfl
  | none =>
    by_cases h : field = f
    · exact .inr (by simp [h])
    · exact .inl (by simp [h])

/-- Each slot of the template takes over what has changed, if anything. -/
theorem choose_replaced {value value' : Str} {fields fields' : HeadField → Option Str}
    (h : ∀ f, Replaced value value' (fields f) (fields' f)) :
    ∀ slot ∈ template, Replaced value value' (slot.2 fields) (slot.2 fields') := by
  have hcard : (previewCard fun f => (fields f).isSome) = previewCard fun f => (fields' f).isSome :=
    congrArg previewCard (funext fun f => (h f).isSome)
  simp only [template, List.forall_mem_cons, hcard]
  exact ⟨h _, h _, h _, (h _).or (h _), (h _).or (h _), h _, (h _).or (h _), h _, h _, h _, h _, (h _).or (.inl rfl),
    h _, h _, h _, h _, h _, fun _ hslot => absurd hslot List.not_mem_nil⟩

/-- With another argument, an element is the same or it is the same kind with the other argument in it. -/
theorem elements_replaced {value value' : Str} {fields fields' : HeadField → Option Str}
    (h : ∀ f, Replaced value value' (fields f) (fields' f)) :
    List.Forall₂ (fun e e' => e = e' ∨ ∃ tag : HeadTag, e = tag.element value ∧ e' = tag.element value')
      (elements fields) (elements fields') := by
  have hslots := choose_replaced h
  unfold elements
  generalize template = slots at hslots
  induction slots with
  | nil => exact .nil
  | cons slot slots ih =>
    obtain ⟨hslot, hrest⟩ := List.forall_mem_cons.mp hslots
    rw [List.filterMap_cons, List.filterMap_cons]
    obtain heq | ⟨hvalue, hvalue'⟩ := hslot
    · rw [heq]
      cases slot.2 fields' with
      | none => exact ih hrest
      | some v => exact .cons (.inl rfl) (ih hrest)
    · rw [hvalue, hvalue']
      exact .cons (.inr ⟨slot.1, rfl, rfl⟩) (ih hrest)

/-- A head that is written is read as the elements of the template with what was put last into each field. Another
    argument to a setter changes no element but the ones that hold it, and what `escape` leaves as it is has nothing
    to be escaped. -/
theorem head_faithful (calls : List (HeadField × Str)) :
    Html.read (Head.build calls).toHtml = some (elements (lastPut calls)) ∧
      (∀ before field after value value',
        List.Forall₂ (fun e e' => e = e' ∨ ∃ tag : HeadTag, e = tag.element value ∧ e' = tag.element value')
          (elements (lastPut (before ++ (field, value) :: after)))
          (elements (lastPut (before ++ (field, value') :: after)))) ∧
      ∀ raw, escape raw = escapeSlow raw := by
  have hget : (Head.build calls).get = fun f => (lastPut calls f).map escape := funext (get_build calls)
  obtain ⟨hspelled, hdecoded⟩ := elements_escape (lastPut calls)
  refine ⟨?_, fun before field after value value' => ?_, escape_eq⟩
  · rw [toHtml_eq, hget, read_document hspelled, hdecoded]
  · exact elements_replaced fun f => lastPut_replaced before after field f value value'

end Arcature.Inertia

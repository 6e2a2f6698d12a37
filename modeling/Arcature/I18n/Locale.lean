import Arcature.Lib.OrdMap
import Arcature.Lib.Text
import Mathlib.Data.Char

/-! Locale tags, and the registry of the locales an application has.

    A tag is checked for its length and its characters before the language library sees it, which renders it
    in its canonical form, so that a locale is one however it was spelled:

        en-us    en-US    EN-US        one locale, en-US, of the language en
        en-      e/n      en\0         refused before they are parsed

    The registry is gone through in the order of the tags, and has its default. The language library is a
    parameter: the canonical form of a tag, or none. -/

namespace Arcature.I18n
open Arcature.Lib

/-! ### Tags -/

/-- `MAX_TAG_LEN`, in bytes. -/
def maxTagLen : ℕ := 35

/-- `LocaleRejection`. -/
inductive LocaleRejection where
  | empty
  | tooLong
  | notWellFormed
  deriving DecidableEq

/-- `well_formed`. -/
def wellFormed (tag : Str) : Except LocaleRejection Unit :=
  if tag = [] then .error .empty
  else if tag.len > maxTagLen then .error .tooLong
  else if (tag.splitOn '-').any fun subtag => subtag = [] || Str.len subtag > 8 || !subtag.all Char.isAlphanum then
    .error .notWellFormed
  else .ok ()

section locale

variable (langid : Str → Option Str)

/-- `LocaleId`: a tag that the language library has rendered. -/
structure LocaleId where
  tag : Str
  parsed : ∃ text, wellFormed text = .ok () ∧ langid text = some tag

variable {langid}

namespace LocaleId

theorem tag_injective : Function.Injective (tag : LocaleId langid → Str) := by
  rintro ⟨a, _⟩ ⟨b, _⟩ h
  cases h
  rfl

instance : LinearOrder (LocaleId langid) := LinearOrder.lift' tag tag_injective

/-- `LocaleId::parse`. -/
def parse (langid : Str → Option Str) (text : Str) : Except LocaleRejection (LocaleId langid) :=
  match h : wellFormed text with
  | .error e => .error e
  | .ok () =>
    match hrender : langid text with
    | none => .error .notWellFormed
    | some tag => .ok ⟨tag, text, h, hrender⟩

/-- `language`: the first subtag. -/
def language (id : LocaleId langid) : Str := (id.tag.splitOn '-').headD id.tag

end LocaleId

/-! ### The registry -/

variable (langid)

/-- `Catalogs`: a catalog for each locale, one of which is the default. -/
structure Catalogs (γ : Type) where
  default : LocaleId langid
  byLocale : OrdMap (LocaleId langid) γ
  registered : (byLocale.get? default).isSome

variable {langid} {γ : Type}

namespace Catalogs

/-- `Catalogs::new`. -/
def new (default : LocaleId langid) (catalog : γ) : Catalogs langid γ where
  default := default
  byLocale := OrdMap.empty.alter default fun _ => catalog
  registered := by simp

/-- `with`: another catalog. -/
def withCatalog (catalogs : Catalogs langid γ) (id : LocaleId langid) (catalog : γ) : Catalogs langid γ where
  default := catalogs.default
  byLocale := catalogs.byLocale.insert id catalog
  registered := by
    rw [OrdMap.get?_insert]
    split_ifs
    · rfl
    · exact catalogs.registered

/-- `contains`. -/
def contains (catalogs : Catalogs langid γ) (id : LocaleId langid) : Bool := (catalogs.byLocale.get? id).isSome

/-- `locales`, in the order of the tags. -/
def locales (catalogs : Catalogs langid γ) : List (LocaleId langid) := catalogs.byLocale.entries.map Prod.fst

/-- A locale is listed exactly if it is registered. -/
theorem mem_locales {catalogs : Catalogs langid γ} {id : LocaleId langid} :
    id ∈ catalogs.locales ↔ catalogs.contains id = true := OrdMap.mem_keys_iff

theorem default_mem (catalogs : Catalogs langid γ) : catalogs.default ∈ catalogs.locales :=
  mem_locales.mpr catalogs.registered

end Catalogs

end locale

end Arcature.I18n

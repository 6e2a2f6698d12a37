import Arcature.Lib.Ascii
import Arcature.Lib.Lines

/-! The sanitizer of uploaded file names (`storage/filename.rs`) and the object keys made of them
    (`storage/path.rs`).

    Eight steps, each over what the one before left:

        filename ──▶ no fatal character ──▶ after the last / or \ ──▶ trimmed ──▶ NFC
                 ──▶ no dots and spaces at the end ──▶ no device name before the first dot
                 ──▶ stem . extension ──▶ stem repaired and trimmed ──▶ stem cut to 255 bytes

    Unicode normalization is a parameter, with what Unicode says of it in `IsNfc`. -/

namespace Arcature.Storage
open Arcature.Lib

/-- `FilenameError`. -/
inductive FilenameError where
  | empty
  | tooLong
  | controlChar
  | traversal
  | missingExtension
  | invalidExtension
  | extensionNotAllowed
  | emptyStem
  | reservedName
  deriving DecidableEq

/-! ### Extensions -/

/-- A lowercase ASCII letter or a digit. -/
def isExtensionChar (c : Char) : Bool := c.isLower || c.isDigit

/-- `MAX_EXTENSION_BYTES`. -/
def maxExtensionBytes : ℕ := 16

/-- `Extension`: one to sixteen lowercase ASCII alphanumerics. -/
structure Extension where
  str : Str
  ne_nil : str ≠ []
  short : str.length ≤ maxExtensionBytes
  chars : ∀ c ∈ str, isExtensionChar c = true

theorem Extension.ext' {a b : Extension} (h : a.str = b.str) : a = b := by
  cases a
  cases b
  cases h
  rfl

instance : DecidableEq Extension := fun a b =>
  decidable_of_iff (a.str = b.str) ⟨Extension.ext', congrArg Extension.str⟩

theorem isExtensionChar_toLower {c : Char} (h : c.isAlphanum = true) : isExtensionChar c.toLower = true := by
  rcases Ascii.toLower_of_isAlphanum h with h | h <;> simp [isExtensionChar, h]

theorem Extension.isAlphanum (extension : Extension) {c : Char} (hc : c ∈ extension.str) :
    c.isAlphanum = true := by
  rcases Bool.or_eq_true _ _ ▸ extension.chars c hc with h | h
  · exact Ascii.isAlphanum_of_isLower h
  · exact Ascii.isAlphanum_of_isDigit h

/-- `Extension::parse`. -/
def Extension.parse (extension : Str) : Except FilenameError Extension :=
  if hne : extension = [] then .error .missingExtension
  else if hshort : maxExtensionBytes < extension.len then .error .invalidExtension
  else if hchars : extension.all Char.isAlphanum = false then .error .invalidExtension
  else .ok
    { str := extension.map Char.toLower
      ne_nil := by simpa using hne
      short := by rw [List.length_map]; exact (Str.length_le_len extension).trans (not_lt.mp hshort)
      chars := by
        rintro c hc
        obtain ⟨d, hd, rfl⟩ := List.mem_map.mp hc
        exact isExtensionChar_toLower (List.all_eq_true.mp (Bool.not_eq_false _ ▸ hchars) d hd) }

/-- `AllowedExtensions`. -/
abbrev AllowedExtensions := Finset Extension

/-! ### Characters and names -/

/-- `is_fatal_char`. -/
def isFatalChar (c : Char) : Bool :=
  let n := c.toNat
  n ≤ 0x1f || (0x7f ≤ n && n ≤ 0x9f) || n == 0xad || n == 0x61c || n == 0x180e ||
    (0x200b ≤ n && n ≤ 0x200f) || (0x2028 ≤ n && n ≤ 0x202e) || (0x2060 ≤ n && n ≤ 0x2064) ||
    (0x2066 ≤ n && n ≤ 0x206f) || n == 0x3164 || n == 0xfeff || (0xfff9 ≤ n && n ≤ 0xfffb) ||
    (0xe0000 ≤ n && n ≤ 0xe007f)

/-- `is_repaired_char`. -/
def isRepairedChar (c : Char) : Bool := c ∈ ['.', '/', '\\', ':', '*', '?', '"', '<', '>', '|']

/-- `RESERVED_DEVICE_NAMES`. -/
def reservedDeviceNames : List Str :=
  ["CON", "PRN", "AUX", "NUL", "CONIN$", "CONOUT$", "COM0", "COM1", "COM2", "COM3", "COM4", "COM5", "COM6",
    "COM7", "COM8", "COM9", "LPT0", "LPT1", "LPT2", "LPT3", "LPT4", "LPT5", "LPT6", "LPT7", "LPT8",
    "LPT9"].map String.toList

/-- `is_reserved_device_name`: ASCII case is ignored. -/
def isReservedDeviceName (name : Str) : Bool :=
  reservedDeviceNames.any fun reserved => reserved.map Char.toLower == name.map Char.toLower

/-! ### Cutting -/

/-- The loop of `truncate_on_char_boundary`: the last character boundary at or before `budget`. -/
def lastBoundary (text : Str) : ℕ → ℕ
  | 0 => 0
  | k + 1 => if text.isCharBoundary (k + 1) then k + 1 else lastBoundary text k

/-- `truncate_on_char_boundary`. -/
def truncateOnCharBoundary (text : Str) (budget : ℕ) : Str :=
  if text.len ≤ budget then text else text.sliceTo (lastBoundary text budget)

/-- `rsplit_once`: the text before and after the last occurrence of a character. -/
def rsplitOnce (sep : Char) (s : Str) : Option (Str × Str) :=
  (Str.splitOnce sep s.reverse).map fun (after, before) => (before.reverse, after.reverse)

/-- The text after the last of some characters. -/
def afterLast (p : Char → Bool) (s : Str) : Str := (s.reverse.takeWhile (!p ·)).reverse

theorem lastBoundary_append {fit rest : Str} {c : Char} {k : ℕ} (hfit : fit.len ≤ k)
    (hover : k < fit.len + c.utf8Size) : lastBoundary (fit ++ c :: rest) k = fit.len :=
  Str.walkBack_append rfl (fun _ => rfl) hfit hover

theorem truncate_of_le {text : Str} {budget : ℕ} (h : text.len ≤ budget) :
    truncateOnCharBoundary text budget = text := if_pos h

/-- A text that does not fit is cut in front of the first character that does not. -/
theorem truncate_append {fit rest : Str} {c : Char} {budget : ℕ} (hfit : fit.len ≤ budget)
    (hover : budget < fit.len + c.utf8Size) : truncateOnCharBoundary (fit ++ c :: rest) budget = fit := by
  have hlong : ¬ (fit ++ c :: rest).len ≤ budget := by
    rw [Str.len_append, Str.len]
    omega
  rw [truncateOnCharBoundary, if_neg hlong, lastBoundary_append hfit hover, Str.sliceTo_append]

theorem truncate_prefix_self (text : Str) (budget : ℕ) : truncateOnCharBoundary text budget <+: text := by
  rcases Nat.lt_or_ge budget text.len with hlong | hshort
  · obtain ⟨fit, c, rest, rfl, hfit, hover⟩ := Str.exists_overflow hlong
    rw [truncate_append hfit hover]
    exact List.prefix_append _ _
  · rw [truncate_of_le hshort]

theorem len_truncate_le (text : Str) (budget : ℕ) : (truncateOnCharBoundary text budget).len ≤ budget := by
  rcases Nat.lt_or_ge budget text.len with hlong | hshort
  · obtain ⟨fit, c, rest, rfl, hfit, hover⟩ := Str.exists_overflow hlong
    rwa [truncate_append hfit hover]
  · rwa [truncate_of_le hshort]

/-- A cut loses less than one character's room. -/
theorem lt_len_truncate {text : Str} {budget : ℕ} (h : budget < text.len) :
    budget < (truncateOnCharBoundary text budget).len + 4 := by
  obtain ⟨fit, c, rest, rfl, hfit, hover⟩ := Str.exists_overflow h
  rw [truncate_append hfit hover]
  have := c.utf8Size_le_four
  omega

theorem rsplitOnce_eq_some {sep : Char} {s a b : Str} :
    rsplitOnce sep s = some (a, b) ↔ s = a ++ sep :: b ∧ sep ∉ b := by
  rw [rsplitOnce, Option.map_eq_some_iff]
  constructor
  · rintro ⟨⟨after, before⟩, hsplit, hpair⟩
    obtain ⟨rfl, rfl⟩ := Prod.mk.inj hpair
    obtain ⟨hs, hnot⟩ := Str.splitOnce_eq_some.mp hsplit
    have hrev := congrArg List.reverse hs
    simp only [List.reverse_reverse, List.reverse_append, List.reverse_cons, List.append_assoc,
      List.singleton_append] at hrev
    exact ⟨hrev, by simpa using hnot⟩
  · rintro ⟨rfl, hnot⟩
    refine ⟨(b.reverse, a.reverse), ?_, by simp⟩
    rw [List.reverse_append, List.reverse_cons, List.append_assoc, List.singleton_append]
    exact Str.splitOnce_append (by simpa using hnot)

theorem afterLast_suffix_self (p : Char → Bool) (s : Str) : afterLast p s <:+ s := by
  rw [afterLast, ← List.reverse_prefix, List.reverse_reverse]
  exact List.takeWhile_prefix _

theorem afterLast_of_forall {p : Char → Bool} {s : Str} (h : ∀ c ∈ s, p c = false) : afterLast p s = s := by
  rw [afterLast, List.takeWhile_eq_self_iff.mpr, List.reverse_reverse]
  rintro c hc
  rw [h c (List.mem_reverse.mp hc)]
  rfl

/-! ### The sanitizer -/

/-- `SafeFilename`. -/
structure SafeFilename where
  stem : Str
  extension : Extension
  deriving DecidableEq

/-- `Display` of a `SafeFilename`. -/
def SafeFilename.toStr (n : SafeFilename) : Str := n.stem ++ '.' :: n.extension.str

/-- `MAX_INPUT_BYTES`. -/
def maxInputBytes : ℕ := 4096

/-- `MAX_FILENAME_BYTES`. -/
def maxFilenameBytes : ℕ := 255

/-- The characters that Windows strips from the end of a name. -/
def isDotOrSpace (c : Char) : Bool := c == '.' || c == ' '

/-- Step 2: every directory component is discarded. -/
def lastComponent (filename : Str) : Str := Str.trim (afterLast (fun c => c == '/' || c == '\\') filename)

/-- Step 4: the dots and spaces at the end go, and the white space in front. -/
def stripEnds (base : Str) : Str := (base.rdropWhile isDotOrSpace).dropWhile Str.isWhiteSpace

/-- What the device check of step 5 looks at. -/
def leading (base : Str) : Str := (base.takeWhile (· != '.')).rdropWhile isDotOrSpace

/-- Step 7, one character. -/
def repair (c : Char) : Char := if isRepairedChar c then '_' else c

section Parse

variable (nfc : Str → Str)

/-- Steps 1 to 4 of `SafeFilename::parse`: the name without its directories, normalized and trimmed. -/
def baseName (filename : Str) : Except FilenameError Str :=
  if filename = [] then .error .empty
  else if maxInputBytes < filename.len then .error .tooLong
  else if filename.any isFatalChar then .error .controlChar
  else
    let base := lastComponent filename
    if base = [] then .error .empty
    else if base = ['.'] ∨ base = ['.', '.'] then .error .traversal
    else
      let base := stripEnds (nfc base)
      if base = [] then .error .empty else .ok base

/-- Steps 5 and 6: the device check, the split at the last dot and the whitelist. -/
def splitExtension (allowed : AllowedExtensions) (base : Str) : Except FilenameError (Str × Extension) :=
  if isReservedDeviceName (leading base) then .error .reservedName
  else
    match rsplitOnce '.' base with
    | none => .error .missingExtension
    | some (stem, raw) => do
      let extension ← Extension.parse raw
      if extension ∈ allowed then .ok (stem, extension) else .error .extensionNotAllowed

/-- Step 7: the stem with its dangerous characters replaced, trimmed. -/
def repairStem (raw : Str) : Except FilenameError Str :=
  let stem := Str.trim (raw.map repair)
  if stem = [] then .error .emptyStem
  else if isReservedDeviceName stem then .error .reservedName
  else .ok stem

/-- What the stem may have beside an extension. -/
def budget (extension : Extension) : ℕ := maxFilenameBytes - (extension.str.len + 1)

/-- Steps 1 to 7. -/
def prepare (filename : Str) (allowed : AllowedExtensions) : Except FilenameError (Str × Extension) := do
  let base ← baseName nfc filename
  let (stem, extension) ← splitExtension allowed base
  let stem ← repairStem stem
  return (stem, extension)

/-- `SafeFilename::parse`. -/
def SafeFilename.parse (filename : Str) (allowed : AllowedExtensions) : Except FilenameError SafeFilename := do
  let (stem, extension) ← prepare nfc filename allowed
  -- 8. the extension is never cut
  let stem := truncateOnCharBoundary stem (budget extension)
  if stem = [] then .error .emptyStem else .ok ⟨stem, extension⟩

end Parse

/-! ### What a step succeeds on -/

theorem Extension.parse_eq_ok {raw : Str} {extension : Extension} :
    Extension.parse raw = .ok extension ↔
      raw ≠ [] ∧ raw.len ≤ maxExtensionBytes ∧ (∀ c ∈ raw, c.isAlphanum = true) ∧
        extension.str = raw.map Char.toLower := by
  rw [Extension.parse]
  split_ifs with hne hlong hchars
  · simp [hne]
  · simp [hlong]
  · have hnot : ¬ ∀ c ∈ raw, c.isAlphanum = true := fun h => by
      rw [List.all_eq_true.mpr h] at hchars
      exact Bool.noConfusion hchars
    simp [hnot]
  · have hall : ∀ c ∈ raw, c.isAlphanum = true := List.all_eq_true.mp (Bool.not_eq_false _ ▸ hchars)
    simp only [Except.ok.injEq]
    constructor
    · rintro rfl
      exact ⟨hne, not_lt.mp hlong, hall, rfl⟩
    · rintro ⟨-, -, -, hstr⟩
      exact Extension.ext' hstr.symm

theorem baseName_eq_ok {nfc : Str → Str} {filename base : Str} :
    baseName nfc filename = .ok base ↔
      filename ≠ [] ∧ filename.len ≤ maxInputBytes ∧ (∀ c ∈ filename, isFatalChar c = false) ∧
        lastComponent filename ≠ [] ∧ lastComponent filename ≠ ['.'] ∧ lastComponent filename ≠ ['.', '.'] ∧
        stripEnds (nfc (lastComponent filename)) = base ∧ base ≠ [] := by
  rw [baseName]
  dsimp only
  split_ifs with hempty hlong hfatal hnone hdots hstripped
  · simp [hempty]
  · simp [hlong]
  · obtain ⟨c, hc, hbad⟩ := List.any_eq_true.mp hfatal
    have hnot : ¬ ∀ c ∈ filename, isFatalChar c = false := fun h => by simp [h c hc] at hbad
    simp [hnot]
  · simp [hnone]
  · rcases hdots with hdot | hdot <;> simp [hdot]
  · simp +contextual [← hstripped]
  · have hclean : ∀ c ∈ filename, isFatalChar c = false := fun c hc => by
      by_contra hbad
      exact hfatal (List.any_eq_true.mpr ⟨c, hc, by simpa using hbad⟩)
    obtain ⟨hdot, hdotdot⟩ := not_or.mp hdots
    simp only [Except.ok.injEq]
    constructor
    · rintro rfl
      exact ⟨hempty, not_lt.mp hlong, hclean, hnone, hdot, hdotdot, rfl, hstripped⟩
    · rintro ⟨-, -, -, -, -, -, hbase, -⟩
      exact hbase

theorem splitExtension_eq_ok {allowed : AllowedExtensions} {base stem : Str} {extension : Extension} :
    splitExtension allowed base = .ok (stem, extension) ↔
      isReservedDeviceName (leading base) = false ∧ extension ∈ allowed ∧
        ∃ raw, rsplitOnce '.' base = some (stem, raw) ∧ Extension.parse raw = .ok extension := by
  rw [splitExtension]
  split_ifs with hreserved
  · simp [hreserved]
  · have hfree := Bool.eq_false_of_not_eq_true hreserved
    cases hsplit : rsplitOnce '.' base with
    | none => simp
    | some pieces =>
      obtain ⟨front, raw⟩ := pieces
      cases hparse : Extension.parse raw with
      | error e => simp [hparse, bind, Except.bind]
      | ok found =>
        simp only [hparse, bind, Except.bind, Option.some.injEq, Prod.mk.injEq]
        split_ifs with hmem
        · rw [Except.ok.injEq, Prod.mk.injEq]
          constructor
          · rintro ⟨rfl, rfl⟩
            exact ⟨hfree, hmem, raw, ⟨rfl, rfl⟩, hparse⟩
          · rintro ⟨-, -, _, ⟨rfl, rfl⟩, hfound⟩
            exact ⟨rfl, Except.ok.inj (hparse.symm.trans hfound)⟩
        · simp only [false_iff]
          rintro ⟨-, hmem', _, ⟨rfl, rfl⟩, hfound⟩
          obtain rfl := Except.ok.inj (hparse.symm.trans hfound)
          exact hmem hmem'

theorem repairStem_eq_ok {raw stem : Str} :
    repairStem raw = .ok stem ↔
      Str.trim (raw.map repair) = stem ∧ stem ≠ [] ∧ isReservedDeviceName stem = false := by
  rw [repairStem]
  split_ifs with hempty hreserved
  · simp only [false_iff]
    rintro ⟨rfl, hne, -⟩
    exact hne hempty
  · simp only [false_iff]
    rintro ⟨rfl, -, hfree⟩
    simp [hfree] at hreserved
  · simp only [Except.ok.injEq]
    constructor
    · rintro rfl
      exact ⟨rfl, hempty, Bool.eq_false_of_not_eq_true hreserved⟩
    · rintro ⟨hstem, -, -⟩
      exact hstem

theorem prepare_eq_ok {nfc : Str → Str} {filename stem : Str} {allowed : AllowedExtensions}
    {extension : Extension} :
    prepare nfc filename allowed = .ok (stem, extension) ↔
      ∃ base raw, baseName nfc filename = .ok base ∧ splitExtension allowed base = .ok (raw, extension) ∧
        repairStem raw = .ok stem := by
  rw [prepare]
  cases hbase : baseName nfc filename with
  | error e => simp [bind, Except.bind]
  | ok base =>
    cases hsplit : splitExtension allowed base with
    | error e => simp [bind, Except.bind, hsplit]
    | ok pieces =>
      obtain ⟨raw, found⟩ := pieces
      cases hrepair : repairStem raw with
      | error e =>
        simp only [bind, Except.bind, hsplit, hrepair, reduceCtorEq, false_iff]
        rintro ⟨_, _, ⟨rfl⟩, hfound, hstem⟩
        cases hsplit.symm.trans hfound
        cases hrepair.symm.trans hstem
      | ok repaired =>
        simp only [bind, Except.bind, hsplit, hrepair, pure, Except.pure]
        constructor
        · rintro ⟨⟩
          exact ⟨base, raw, rfl, hsplit, hrepair⟩
        · rintro ⟨_, _, ⟨rfl⟩, hfound, hstem⟩
          cases hsplit.symm.trans hfound
          cases hrepair.symm.trans hstem
          rfl

/-- The extension leaves room for a stem. -/
theorem le_budget (extension : Extension) : 238 ≤ budget extension := by
  have hlen : extension.str.len ≤ maxExtensionBytes := by
    rw [Ascii.len_eq_length fun c hc => Ascii.toNat_lt_of_isAlphanum (extension.isAlphanum hc)]
    exact extension.short
  rw [maxExtensionBytes] at hlen
  rw [budget, maxFilenameBytes]
  omega

/-- No cut leaves nothing, so the last check of the sanitizer never fails. -/
theorem truncate_ne_nil {stem : Str} (h : stem ≠ []) (extension : Extension) :
    truncateOnCharBoundary stem (budget extension) ≠ [] := by
  have hroom := le_budget extension
  rcases Nat.lt_or_ge (budget extension) stem.len with hlong | hshort
  · rintro hnil
    have hcut := lt_len_truncate hlong
    rw [hnil, Str.len] at hcut
    omega
  · rwa [truncate_of_le hshort]

theorem parse_eq_ok {nfc : Str → Str} {filename : Str} {allowed : AllowedExtensions} {n : SafeFilename} :
    SafeFilename.parse nfc filename allowed = .ok n ↔
      ∃ stem, prepare nfc filename allowed = .ok (stem, n.extension) ∧
        n.stem = truncateOnCharBoundary stem (budget n.extension) := by
  rw [SafeFilename.parse]
  cases hprepare : prepare nfc filename allowed with
  | error e => simp [bind, Except.bind]
  | ok pieces =>
    obtain ⟨stem, extension⟩ := pieces
    obtain ⟨_, _, -, -, hstem⟩ := prepare_eq_ok.mp hprepare
    have hne := truncate_ne_nil (repairStem_eq_ok.mp hstem).2.1 extension
    simp only [bind, Except.bind, if_neg hne, Except.ok.injEq, Prod.mk.injEq]
    constructor
    · rintro rfl
      exact ⟨stem, ⟨rfl, rfl⟩, rfl⟩
    · rintro ⟨_, ⟨rfl, hext⟩, hn⟩
      cases n
      simp_all

end Arcature.Storage

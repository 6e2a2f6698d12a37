import Arcature.Storage.Filename

/-! Object keys (`storage/path.rs`).

    A key is segments between slashes, none of them empty or `..`; `validate` rejects and repairs
    nothing. `from_filename` puts the sanitizer in front of it:

        filename ──▶ SafeFilename::parse ──▶ stem . extension ──▶ validate ──▶ key

    What the sanitizer returns is one segment, so that the second check never fails (`parse_safe`). -/

namespace Arcature.Storage
open Arcature.Lib

/-- `StoragePathError`. -/
inductive StoragePathError where
  | empty
  | absolute
  | backslash
  | controlChar
  | traversal
  | emptySegment
  deriving DecidableEq

/-- The loop of `validate`. -/
def checkSegments : List Str → Except StoragePathError Unit
  | [] => .ok ()
  | segment :: rest =>
    if segment = ['.', '.'] then .error .traversal
    else if segment = [] then .error .emptySegment
    else checkSegments rest

/-- `validate`. One slash at the end is allowed. -/
def validate (key : Str) : Except StoragePathError Unit :=
  if key = [] then .error .empty
  else if key.head? = some '/' then .error .absolute
  else if '\\' ∈ key then .error .backslash
  else if key.bytes.any fun b => b < 0x20 || b == 0x7f then .error .controlChar
  else checkSegments (((key.dropSuffix? ['/']).getD key).splitOn '/')

/-- `StoragePath`: a validated key. -/
structure StoragePath where
  key : Str
  valid : validate key = .ok ()

/-- `StoragePath::new`. -/
def StoragePath.new (key : Str) : Except StoragePathError StoragePath :=
  match h : validate key with
  | .ok () => .ok ⟨key, h⟩
  | .error e => .error e

/-- `StoragePath::from_filename`. -/
def StoragePath.fromFilename (nfc : Str → Str) (filename : Str) (allowed : AllowedExtensions) :
    Except FilenameError StoragePath := do
  let safe ← SafeFilename.parse nfc filename allowed
  match StoragePath.new safe.toStr with
  | .ok path => .ok path
  | .error _ => .error .empty

theorem StoragePath.new_eq_ok {key : Str} (h : validate key = .ok ()) : StoragePath.new key = .ok ⟨key, h⟩ := by
  rw [StoragePath.new]
  split
  · rfl
  · next e he =>
    cases h.symm.trans he

/-- A control byte is the whole of a fatal character. -/
theorem isControl_eq_false {c : Char} (hc : isFatalChar c = false) {b : UInt8}
    (hb : b ∈ String.utf8EncodeChar c) : (decide (b < 0x20) || b == 0x7f) = false := by
  by_contra hcontrol
  have hlow : b.toNat < 0x20 ∨ b.toNat = 0x7f := by
    rcases Bool.or_eq_true _ _ ▸ Bool.eq_true_of_not_eq_false hcontrol with h | h
    · exact Or.inl (UInt8.lt_iff_toNat_lt.mp (decide_eq_true_eq.mp h))
    · exact Or.inr (congrArg UInt8.toNat (beq_iff_eq.mp h))
  have hvalid : (Char.ofNat b.toNat).toNat = b.toNat := by
    rw [Char.ofNat, dif_pos (Or.inl (by omega))]
    exact UInt32.toNat_ofNatLT ..
  have hself : Char.ofNat b.toNat = c := by
    refine (Str.eq_of_ascii_mem_utf8EncodeChar (by omega) ?_).symm
    rwa [hvalid, UInt8.ofNat_toNat]
  rw [← hself] at hc
  simp only [isFatalChar, hvalid, Bool.or_eq_false_iff, Bool.and_eq_false_iff, decide_eq_false_iff_not] at hc
  omega

/-- A segment that a key may have: no control character, no separator, and not `..`. -/
structure IsSegment (segment : Str) : Prop where
  ne_nil : segment ≠ []
  ne_dots : segment ≠ ['.', '.']
  slash : '/' ∉ segment
  backslash : '\\' ∉ segment
  clean : ∀ c ∈ segment, isFatalChar c = false

theorem checkSegments_eq_ok {segments : List Str} (h : ∀ s ∈ segments, IsSegment s) :
    checkSegments segments = .ok () := by
  induction segments with
  | nil => rfl
  | cons segment segments ih =>
    obtain ⟨hsegment, hrest⟩ := List.forall_mem_cons.mp h
    rw [checkSegments, if_neg hsegment.ne_dots, if_neg hsegment.ne_nil, ih hrest]

/-- Segments with slashes between them are a key. -/
theorem validate_segments {segments : List Str} (hne : segments ≠ []) (h : ∀ s ∈ segments, IsSegment s) :
    validate (['/'].intercalate segments) = .ok () := by
  have hsplit : (['/'].intercalate segments).splitOn '/' = segments :=
    List.splitOn_intercalate '/' (fun s hs => (h s hs).slash) hne
  generalize ['/'].intercalate segments = key at hsplit
  -- an empty piece would be an empty segment
  have hpiece : [] ∉ key.splitOn '/' := fun hmem => (h [] (hsplit ▸ hmem)).ne_nil rfl
  have hmem : ∀ c ∈ key, c = '/' ∨ ∃ s ∈ segments, c ∈ s := by
    intro c hc
    by_cases hslash : c = '/'
    · exact Or.inl hslash
    · rw [← hsplit]
      exact Or.inr ((Str.mem_splitOn hslash key).mpr hc)
  have hnil : key ≠ [] := by
    rintro rfl
    exact hpiece (by simp)
  have habsolute : key.head? ≠ some '/' := by
    intro hhead
    obtain ⟨rest, rfl⟩ := List.head?_eq_some_iff.mp hhead
    exact hpiece (by rw [List.splitOn_cons_eq_if_modifyHead]; simp)
  have hback : '\\' ∉ key := by
    intro hc
    rcases hmem _ hc with hc | ⟨s, hs, hc⟩
    · exact absurd hc (by decide)
    · exact (h s hs).backslash hc
  have hcontrol : ((Str.bytes key).any fun b => b < 0x20 || b == 0x7f) = false := by
    rw [List.any_eq_false]
    intro b hb
    obtain ⟨c, hc, hbyte⟩ := List.mem_flatMap.mp hb
    have hclean : isFatalChar c = false := by
      rcases hmem c hc with rfl | ⟨s, hs, hc⟩
      · decide
      · exact (h s hs).clean c hc
    exact Bool.not_eq_true _ ▸ isControl_eq_false hclean hbyte
  have hsuffix : key.dropSuffix? ['/'] = none := by
    rw [Option.eq_none_iff_forall_ne_some]
    intro front hfront
    obtain ⟨slash, rfl, hbeq⟩ := List.dropSuffix?_eq_some_iff.mp hfront
    rw [beq_iff_eq.mp hbeq, List.splitOn_append_cons_self] at hpiece
    exact hpiece (by simp)
  rw [validate, if_neg hnil, if_neg habsolute, if_neg hback, hcontrol, if_neg Bool.false_ne_true, hsuffix,
    Option.getD_none, hsplit, checkSegments_eq_ok h]

/-! ### What the sanitizer returns -/

section Sanitized

variable {nfc : Str → Str} {allowed : AllowedExtensions}

theorem clean_of_baseName (hfatal : ∀ s, (∀ c ∈ s, isFatalChar c = false) → ∀ c ∈ nfc s, isFatalChar c = false)
    {filename base : Str} (h : baseName nfc filename = .ok base) : ∀ c ∈ base, isFatalChar c = false := by
  obtain ⟨-, -, hclean, -, -, -, rfl, -⟩ := baseName_eq_ok.mp h
  intro c hc
  have hnormal : c ∈ nfc (lastComponent filename) :=
    (List.rdropWhile_prefix isDotOrSpace _).subset ((List.dropWhile_suffix _).subset hc)
  refine hfatal _ (fun d hd => hclean d ?_) c hnormal
  exact (afterLast_suffix_self _ _).subset ((Str.trim_infix_self _).subset hd)

theorem clean_of_repairStem {raw stem : Str} (h : repairStem raw = .ok stem)
    (hraw : ∀ c ∈ raw, isFatalChar c = false) :
    ∀ c ∈ stem, isRepairedChar c = false ∧ isFatalChar c = false := by
  obtain ⟨rfl, -, -⟩ := repairStem_eq_ok.mp h
  intro c hc
  obtain ⟨d, hd, rfl⟩ := List.mem_map.mp ((Str.trim_infix_self _).subset hc)
  rw [repair]
  split_ifs with hrepaired
  · decide
  · exact ⟨Bool.eq_false_of_not_eq_true hrepaired, hraw d hd⟩

/-- A device name is short. -/
theorem length_le_of_isReserved {name : Str} (h : isReservedDeviceName name = true) : name.length ≤ 7 := by
  obtain ⟨reserved, hmem, heq⟩ := List.any_eq_true.mp h
  have hlength := congrArg List.length (beq_iff_eq.mp heq)
  rw [List.length_map, List.length_map] at hlength
  have hshort : ∀ reserved ∈ reservedDeviceNames, reserved.length ≤ 7 := by decide
  exact hlength ▸ hshort reserved hmem

/-- A stem that was cut is too long to be a device name. -/
theorem isReserved_truncate {stem : Str} (h : isReservedDeviceName stem = false) (extension : Extension) :
    isReservedDeviceName (truncateOnCharBoundary stem (budget extension)) = false := by
  rcases Nat.lt_or_ge (budget extension) stem.len with hlong | hshort
  · rw [← Bool.not_eq_true]
    intro hreserved
    have hshort := length_le_of_isReserved hreserved
    have hbytes := Str.len_le_four_mul_length (truncateOnCharBoundary stem (budget extension))
    have hcut := lt_len_truncate hlong
    have hroom := le_budget extension
    omega
  · rwa [truncate_of_le hshort]

theorem isRepaired_eq_false_of_isAlphanum {c : Char} (h : c.isAlphanum = true) : isRepairedChar c = false :=
  Ascii.forall_alphanum (fun c => isRepairedChar c = false) (by decide +kernel) h

theorem isFatal_eq_false_of_isAlphanum {c : Char} (h : c.isAlphanum = true) : isFatalChar c = false :=
  Ascii.forall_alphanum (fun c => isFatalChar c = false) (by decide +kernel) h

/-- What is in a sanitized name: its stem, and behind a dot its extension. -/
theorem mem_toStr {n : SafeFilename} {c : Char} (h : c ∈ n.toStr) :
    c ∈ n.stem ∨ c = '.' ∨ c.isAlphanum = true := by
  rcases List.mem_append.mp h with h | h
  · exact Or.inl h
  · rcases List.mem_cons.mp h with h | h
    · exact Or.inr (Or.inl h)
    · exact Or.inr (Or.inr (n.extension.isAlphanum h))

/-- A name as the sanitizer leaves it. -/
structure Sanitized (allowed : AllowedExtensions) (n : SafeFilename) : Prop where
  listed : n.extension ∈ allowed
  ne_nil : n.stem ≠ []
  chars : ∀ c ∈ n.stem, isRepairedChar c = false ∧ isFatalChar c = false
  head : ∀ c, n.stem.head? = some c → Str.isWhiteSpace c = false
  unreserved : isReservedDeviceName n.stem = false
  fits : n.stem.len ≤ budget n.extension

theorem sanitized_of_parse
    (hfatal : ∀ s, (∀ c ∈ s, isFatalChar c = false) → ∀ c ∈ nfc s, isFatalChar c = false)
    {filename : Str} {n : SafeFilename} (h : SafeFilename.parse nfc filename allowed = .ok n) :
    Sanitized allowed n := by
  obtain ⟨stem, hprepare, hstem⟩ := parse_eq_ok.mp h
  obtain ⟨base, raw, hbase, hsplit, hrepair⟩ := prepare_eq_ok.mp hprepare
  obtain ⟨-, hallowed, rawExtension, hraw, -⟩ := splitExtension_eq_ok.mp hsplit
  obtain ⟨htrim, hne, hfree⟩ := repairStem_eq_ok.mp hrepair
  have hclean : ∀ c ∈ raw, isFatalChar c = false := by
    intro c hc
    refine clean_of_baseName hfatal hbase c ?_
    rw [(rsplitOnce_eq_some.mp hraw).1]
    exact List.mem_append_left _ hc
  refine ⟨hallowed, ?_, ?_, ?_, ?_, ?_⟩ <;> rw [hstem]
  · exact truncate_ne_nil hne n.extension
  · intro c hc
    exact clean_of_repairStem hrepair hclean c ((truncate_prefix_self _ _).subset hc)
  · intro c hc
    obtain ⟨cut, hcut⟩ := truncate_prefix_self stem (budget n.extension)
    refine Str.isWhiteSpace_head_trim (s := raw.map repair) ?_
    rw [htrim, ← hcut, List.head?_append, hc]
    rfl
  · exact isReserved_truncate hfree n.extension
  · exact len_truncate_le stem (budget n.extension)

variable {n : SafeFilename}

theorem Sanitized.len_le (h : Sanitized allowed n) : n.toStr.len ≤ maxFilenameBytes := by
  have hroom := le_budget n.extension
  have hfits := h.fits
  have hdot : '.'.utf8Size = 1 := rfl
  rw [budget] at hfits hroom
  rw [SafeFilename.toStr, Str.len_append, Str.len]
  omega

theorem Sanitized.isFatal_toStr (h : Sanitized allowed n) : ∀ c ∈ n.toStr, isFatalChar c = false := by
  intro c hc
  rcases mem_toStr hc with hc | rfl | hc
  · exact (h.chars c hc).2
  · decide
  · exact isFatal_eq_false_of_isAlphanum hc

/-- The only dot is the one in front of the extension, and of the other characters none is repaired. -/
theorem Sanitized.isRepaired_toStr (h : Sanitized allowed n) :
    ∀ c ∈ n.toStr, c = '.' ∨ isRepairedChar c = false := by
  intro c hc
  rcases mem_toStr hc with hc | hc | hc
  · exact Or.inr (h.chars c hc).1
  · exact Or.inl hc
  · exact Or.inr (isRepaired_eq_false_of_isAlphanum hc)

theorem Sanitized.slash_notMem (h : Sanitized allowed n) : '/' ∉ n.toStr := fun hc => by
  simpa [isRepairedChar] using h.isRepaired_toStr _ hc

theorem Sanitized.backslash_notMem (h : Sanitized allowed n) : '\\' ∉ n.toStr := fun hc => by
  simpa [isRepairedChar] using h.isRepaired_toStr _ hc

/-- The name starts with the stem, so not with a dot. -/
theorem Sanitized.head_toStr (h : Sanitized allowed n) :
    ∃ c, n.toStr.head? = some c ∧ Str.isWhiteSpace c = false ∧ c ≠ '.' := by
  obtain ⟨c, rest, hcons⟩ := List.exists_cons_of_ne_nil h.ne_nil
  refine ⟨c, by simp [SafeFilename.toStr, hcons], h.head c (by simp [hcons]), ?_⟩
  rintro rfl
  exact absurd (h.chars '.' (by simp [hcons])).1 (by decide)

theorem Sanitized.isSegment (h : Sanitized allowed n) : IsSegment n.toStr := by
  obtain ⟨c, hhead, -, hdot⟩ := h.head_toStr
  refine ⟨?_, ?_, h.slash_notMem, h.backslash_notMem, h.isFatal_toStr⟩
  · intro hnil
    simp [hnil] at hhead
  · intro hdots
    rw [hdots, List.head?_cons, Option.some.injEq] at hhead
    exact hdot hhead.symm

/-- So the key checks never fail behind the sanitizer. -/
theorem Sanitized.valid (h : Sanitized allowed n) : validate n.toStr = .ok () := by
  have hvalid := @validate_segments [n.toStr] (by simp) (by simpa using h.isSegment)
  rwa [List.intercalate_singleton] at hvalid

/-- The sanitizer's postcondition: a short, harmless name with an allowed extension, which is a key of
    one segment. Normalization is asked to bring no fatal character into a text that has none. -/
theorem parse_safe (hfatal : ∀ s, (∀ c ∈ s, isFatalChar c = false) → ∀ c ∈ nfc s, isFatalChar c = false)
    {filename : Str} (h : SafeFilename.parse nfc filename allowed = .ok n) :
    n.toStr.len ≤ 255 ∧
      (n.extension ∈ allowed ∧ 1 ≤ n.extension.str.length ∧ n.extension.str.length ≤ 16 ∧
        ∀ c ∈ n.extension.str, c.isLower = true ∨ c.isDigit = true) ∧
      (n.stem ≠ [] ∧ (∀ c ∈ n.stem, c ∉ ['.', '/', '\\', ':', '*', '?', '"', '<', '>', '|']) ∧
        (∀ c ∈ n.stem, isFatalChar c = false) ∧ isReservedDeviceName n.stem = false) ∧
      ∃ path, StoragePath.fromFilename nfc filename allowed = .ok path ∧ path.key = n.toStr ∧
        path.key.splitOn '/' = [n.toStr] := by
  have hsafe := sanitized_of_parse hfatal h
  have hpath : StoragePath.fromFilename nfc filename allowed = .ok ⟨n.toStr, hsafe.valid⟩ := by
    rw [StoragePath.fromFilename, h]
    simp only [bind, Except.bind, StoragePath.new_eq_ok hsafe.valid]
  have hextension : 1 ≤ n.extension.str.length := List.length_pos_of_ne_nil n.extension.ne_nil
  refine ⟨hsafe.len_le, ⟨hsafe.listed, hextension, n.extension.short, ?_⟩,
    ⟨hsafe.ne_nil, ?_, fun c hc => (hsafe.chars c hc).2, hsafe.unreserved⟩, ?_⟩
  · intro c hc
    exact Bool.or_eq_true _ _ ▸ n.extension.chars c hc
  · intro c hc
    exact of_decide_eq_false (hsafe.chars c hc).1
  · exact ⟨⟨n.toStr, hsafe.valid⟩, hpath, rfl, List.splitOn_eq_singleton hsafe.slash_notMem⟩

end Sanitized

/-- The extension `jpg`. -/
def jpg : Extension := ⟨"jpg".toList, by decide, by decide, by decide⟩

/-- A second extension behind a path. -/
theorem shell_php_safe :
    SafeFilename.parse id "C:\\Users\\me\\shell.php.JPG".toList {jpg} = .ok ⟨"shell_php".toList, jpg⟩ ∧
      ∃ path, StoragePath.fromFilename id "C:\\Users\\me\\shell.php.JPG".toList {jpg} = .ok path ∧
        path.key = "shell_php.jpg".toList := by
  have hparse : SafeFilename.parse id "C:\\Users\\me\\shell.php.JPG".toList {jpg} =
      .ok ⟨"shell_php".toList, jpg⟩ := by rfl
  obtain ⟨-, -, -, path, hpath, hkey, -⟩ := parse_safe (fun _ h => h) hparse
  exact ⟨hparse, path, hpath, hkey⟩

end Arcature.Storage

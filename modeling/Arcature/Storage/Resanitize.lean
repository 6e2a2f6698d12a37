import Arcature.Storage.Path

/-! Sanitizing a name that was sanitized (`SafeFilename::parse` on its own output).

    The eighth step cuts a long stem and checks nothing behind the cut:

        stem:      a a a … a ␣ b        trimmed, so it ends in no white space
        cut:       a a a … a ␣          and now it does
        again:     a a a … a            the seventh step trims it

    Everything else of the output stays as it is, so that this cut is the only way to get another
    name (`parse_idempotent_iff`). -/

namespace Arcature.Storage
open Arcature.Lib

/-- What Unicode says of normalization form C. -/
structure IsNfc (nfc : Str → Str) : Prop where
  idem : ∀ s, nfc (nfc s) = nfc s
  /-- A part of a normalized text is normalized. -/
  part : ∀ {s t}, nfc s = s → t <:+: s → nfc t = t
  ascii : ∀ {s}, (∀ c ∈ s, c.toNat < 128) → nfc s = s
  /-- An ASCII character combines with nothing in front of it. -/
  boundary : ∀ s {c} t, c.toNat < 128 → nfc (s ++ c :: t) = nfc s ++ nfc (c :: t)
  /-- The underscore combines with nothing behind it. -/
  underscore : ∀ t, nfc ('_' :: t) = '_' :: nfc t
  fatal : ∀ s, (∀ c ∈ s, isFatalChar c = false) → ∀ c ∈ nfc s, isFatalChar c = false

/-- The identity has these properties: it is what normalization does on ASCII. -/
theorem isNfc_id : IsNfc id where
  idem _ := rfl
  part _ _ := rfl
  ascii _ := rfl
  boundary _ _ _ _ := rfl
  underscore _ := rfl
  fatal _ h := h

/-- The stem is too long, and the last character that fits is white space. -/
def CutAfterSpace (nfc : Str → Str) (filename : Str) (allowed : AllowedExtensions) : Prop :=
  ∃ fit c d rest extension, prepare nfc filename allowed = .ok (fit ++ c :: d :: rest, extension) ∧
    Str.isWhiteSpace c = true ∧ Str.len (fit ++ [c]) ≤ budget extension ∧
    budget extension < Str.len (fit ++ [c, d])

section Again

variable {nfc : Str → Str} {allowed : AllowedExtensions} {filename : Str} {n : SafeFilename}

/-! ### The name is normalized -/

theorem IsNfc.map_repair (hnfc : IsNfc nfc) {raw : Str} (h : nfc raw = raw) :
    nfc (raw.map repair) = raw.map repair := by
  suffices hfront : ∀ front, nfc (front ++ raw) = front ++ raw →
      nfc (front ++ raw.map repair) = front ++ raw.map repair from hfront [] h
  clear h
  induction raw with
  | nil => exact fun _ h => h
  | cons c raw ih =>
    intro front h
    rw [List.map_cons]
    by_cases hc : isRepairedChar c = true
    · -- the underscore parts the text in two
      have hrest : nfc raw = raw := hnfc.part h ⟨front ++ [c], [], by simp⟩
      have hstart : nfc front = front := hnfc.part h ⟨[], c :: raw, by simp⟩
      have hmapped : nfc (raw.map repair) = raw.map repair := ih [] hrest
      rw [repair, if_pos hc, hnfc.boundary _ _ (by decide), hnfc.underscore, hstart, hmapped]
    · have hlonger := ih (front ++ [c]) (by simpa using h)
      rw [repair, if_neg hc]
      simpa using hlonger

theorem IsNfc.stem (hnfc : IsNfc nfc) {stem : Str} {extension : Extension}
    (h : prepare nfc filename allowed = .ok (stem, extension)) : nfc stem = stem := by
  obtain ⟨base, raw, hbase, hsplit, hrepair⟩ := prepare_eq_ok.mp h
  obtain ⟨-, -, -, -, -, -, rfl, -⟩ := baseName_eq_ok.mp hbase
  obtain ⟨-, -, _, hraw, -⟩ := splitExtension_eq_ok.mp hsplit
  obtain ⟨rfl, -, -⟩ := repairStem_eq_ok.mp hrepair
  have hinfix : raw <:+: nfc (lastComponent filename) := by
    have hend := (List.rdropWhile_prefix isDotOrSpace (nfc (lastComponent filename))).isInfix
    refine List.IsInfix.trans ?_ ((List.dropWhile_suffix Str.isWhiteSpace).isInfix.trans hend)
    rw [← stripEnds, (rsplitOnce_eq_some.mp hraw).1]
    exact (List.prefix_append _ _).isInfix
  exact hnfc.part (hnfc.map_repair (hnfc.part (hnfc.idem _) hinfix)) (Str.trim_infix_self _)

theorem IsNfc.toStr (hnfc : IsNfc nfc) (h : SafeFilename.parse nfc filename allowed = .ok n) :
    nfc n.toStr = n.toStr := by
  obtain ⟨stem, hprepare, hstem⟩ := parse_eq_ok.mp h
  have hnormal : nfc n.stem = n.stem := by
    rw [hstem]
    exact hnfc.part (hnfc.stem hprepare) (truncate_prefix_self _ _).isInfix
  have hextension : nfc ('.' :: n.extension.str) = '.' :: n.extension.str := by
    refine hnfc.ascii fun c hc => ?_
    rcases List.mem_cons.mp hc with rfl | hc
    · decide
    · exact Ascii.toNat_lt_of_isAlphanum (n.extension.isAlphanum hc)
  rw [SafeFilename.toStr, hnfc.boundary _ _ (by decide), hnormal, hextension]

end Again

/-! ### The steps before the cut -/

section Sanitized

variable {nfc : Str → Str} {allowed : AllowedExtensions} {n : SafeFilename}

theorem getLast_toStr (n : SafeFilename) : ∃ c, n.toStr.getLast? = some c ∧ c.isAlphanum = true := by
  refine ⟨n.extension.str.getLast n.extension.ne_nil, ?_, n.extension.isAlphanum (List.getLast_mem _)⟩
  rw [SafeFilename.toStr, List.getLast?_append_of_ne_nil _ (List.cons_ne_nil _ _), List.getLast?_cons,
    List.getLast?_eq_some_getLast n.extension.ne_nil]
  rfl

theorem isDotOrSpace_of_isAlphanum {c : Char} (h : c.isAlphanum = true) : isDotOrSpace c = false :=
  Ascii.forall_alphanum (fun c => isDotOrSpace c = false) (by decide +kernel) h

theorem Sanitized.lastComponent_toStr (h : Sanitized allowed n) : lastComponent n.toStr = n.toStr := by
  have hsep : ∀ c ∈ n.toStr, (c == '/' || c == '\\') = false := by
    intro c hc
    rw [Bool.or_eq_false_iff, beq_eq_false_iff_ne, beq_eq_false_iff_ne]
    exact ⟨fun heq => h.slash_notMem (heq ▸ hc), fun heq => h.backslash_notMem (heq ▸ hc)⟩
  obtain ⟨first, hfirst, hblank, -⟩ := h.head_toStr
  obtain ⟨last, hlast, halnum⟩ := getLast_toStr n
  rw [lastComponent, afterLast_of_forall hsep]
  exact Str.trim_eq_self hfirst hlast hblank (Ascii.isWhiteSpace_of_isAlphanum halnum)

theorem rdropWhile_of_getLast {p : Char → Bool} {s : Str} {c : Char} (h : s.getLast? = some c)
    (hc : p c = false) : s.rdropWhile p = s := by
  rw [List.rdropWhile_eq_self_iff]
  intro hne
  rw [List.getLast?_eq_some_getLast hne, Option.some.injEq] at h
  rw [h, hc]
  exact Bool.false_ne_true

theorem Sanitized.stripEnds_toStr (h : Sanitized allowed n) : stripEnds n.toStr = n.toStr := by
  obtain ⟨first, hfirst, hblank, -⟩ := h.head_toStr
  obtain ⟨last, hlast, halnum⟩ := getLast_toStr n
  rw [stripEnds, rdropWhile_of_getLast hlast (isDotOrSpace_of_isAlphanum halnum)]
  cases hcons : n.toStr with
  | nil => rfl
  | cons c rest =>
    rw [hcons, List.head?_cons, Option.some.injEq] at hfirst
    rw [List.dropWhile_cons_of_neg (by simp [hfirst, hblank])]

theorem Sanitized.baseName_toStr (h : Sanitized allowed n) (hnormal : nfc n.toStr = n.toStr) :
    baseName nfc n.toStr = .ok n.toStr := by
  obtain ⟨c, hhead, -, hdot⟩ := h.head_toStr
  have hne : n.toStr ≠ [] := fun hnil => by simp [hnil] at hhead
  have hdots : ∀ rest, n.toStr ≠ '.' :: rest := by
    intro rest hcons
    rw [hcons, List.head?_cons, Option.some.injEq] at hhead
    exact hdot hhead.symm
  have hlen : n.toStr.len ≤ maxInputBytes := h.len_le.trans (by decide)
  rw [baseName_eq_ok, h.lastComponent_toStr, hnormal]
  exact ⟨hne, hlen, h.isFatal_toStr, hne, hdots [], hdots ['.'], h.stripEnds_toStr, hne⟩

theorem Sanitized.dot_notMem (h : Sanitized allowed n) : '.' ∉ n.stem := fun hc =>
  absurd (h.chars '.' hc).1 (by decide)

theorem Sanitized.leading_toStr (h : Sanitized allowed n) : leading n.toStr = n.stem.rdropWhile isDotOrSpace := by
  rw [leading, SafeFilename.toStr, List.takeWhile_append_of_pos, List.takeWhile_cons_of_neg, List.append_nil]
  · decide
  · intro c hc
    have hdot : c ≠ '.' := fun heq => h.dot_notMem (heq ▸ hc)
    simpa using hdot

theorem rsplitOnce_toStr (n : SafeFilename) : rsplitOnce '.' n.toStr = some (n.stem, n.extension.str) := by
  refine rsplitOnce_eq_some.mpr ⟨rfl, fun hdot => ?_⟩
  exact absurd (n.extension.chars '.' hdot) (by decide)

theorem Extension.parse_str (extension : Extension) : Extension.parse extension.str = .ok extension := by
  refine Extension.parse_eq_ok.mpr ⟨extension.ne_nil, ?_, fun c hc => extension.isAlphanum hc, ?_⟩
  · rw [Ascii.len_eq_length fun c hc => Ascii.toNat_lt_of_isAlphanum (extension.isAlphanum hc)]
    exact extension.short
  · refine (List.map_congr_left fun c hc => ?_).trans (List.map_id _) |>.symm
    rcases Bool.or_eq_true _ _ ▸ extension.chars c hc with hlower | hdigit
    · exact Ascii.toLower_of_isLower hlower
    · exact Ascii.toLower_of_isDigit hdigit

theorem Sanitized.map_repair (h : Sanitized allowed n) : n.stem.map repair = n.stem := by
  refine (List.map_congr_left fun c hc => ?_).trans (List.map_id _)
  rw [repair, (h.chars c hc).1]
  rfl

/-- On a sanitized name the first seven steps come down to the device check and the trimming. -/
theorem Sanitized.prepare_toStr (h : Sanitized allowed n) (hnormal : nfc n.toStr = n.toStr) {stem : Str} :
    prepare nfc n.toStr allowed = .ok (stem, n.extension) ↔
      isReservedDeviceName (n.stem.rdropWhile isDotOrSpace) = false ∧ Str.trim n.stem = stem ∧ stem ≠ [] ∧
        isReservedDeviceName stem = false := by
  rw [prepare_eq_ok]
  constructor
  · rintro ⟨base, raw, hbase, hsplit, hrepair⟩
    obtain rfl := Except.ok.inj ((h.baseName_toStr hnormal).symm.trans hbase)
    obtain ⟨hleading, -, _, hraw, -⟩ := splitExtension_eq_ok.mp hsplit
    obtain ⟨rfl, -⟩ := Prod.mk.inj (Option.some.inj ((rsplitOnce_toStr n).symm.trans hraw))
    rw [h.leading_toStr] at hleading
    rw [repairStem_eq_ok, h.map_repair] at hrepair
    exact ⟨hleading, hrepair⟩
  · rintro ⟨hleading, htrim⟩
    refine ⟨n.toStr, n.stem, h.baseName_toStr hnormal, ?_, ?_⟩
    · rw [splitExtension_eq_ok, h.leading_toStr]
      exact ⟨hleading, h.listed, n.extension.str, rsplitOnce_toStr n, n.extension.parse_str⟩
    · rw [repairStem_eq_ok, h.map_repair]
      exact htrim

/-- A sanitized name comes out as it is, unless its stem ends in white space. -/
theorem Sanitized.parse_toStr (h : Sanitized allowed n) (hnormal : nfc n.toStr = n.toStr) :
    SafeFilename.parse nfc n.toStr allowed = .ok n ↔
      ∀ c, n.stem.getLast? = some c → Str.isWhiteSpace c = false := by
  rw [parse_eq_ok]
  constructor
  · rintro ⟨stem, hprepare, hstem⟩ c hlast
    obtain ⟨-, htrim, -, -⟩ := (h.prepare_toStr hnormal).mp hprepare
    -- trimming and cutting only take away, and nothing is gone
    have hcut : n.stem <+: Str.trim n.stem := by
      rw [htrim]
      conv_lhs => rw [hstem]
      exact truncate_prefix_self _ _
    have hself : n.stem = Str.trim n.stem := hcut.eq_of_length_le (Str.trim_infix_self n.stem).length_le
    rw [hself] at hlast
    exact Str.isWhiteSpace_getLast_trim hlast
  · intro hend
    obtain ⟨d, hlast⟩ : ∃ d, n.stem.getLast? = some d := ⟨_, List.getLast?_eq_some_getLast h.ne_nil⟩
    obtain ⟨c, hhead⟩ : ∃ c, n.stem.head? = some c := ⟨_, List.head?_eq_some_head h.ne_nil⟩
    have hd : isDotOrSpace d = false := by
      rw [isDotOrSpace, Bool.or_eq_false_iff, beq_eq_false_iff_ne, beq_eq_false_iff_ne]
      refine ⟨fun heq => h.dot_notMem (heq ▸ List.mem_of_mem_getLast? hlast), ?_⟩
      rintro rfl
      exact absurd (hend ' ' hlast) (by decide)
    refine ⟨n.stem, (h.prepare_toStr hnormal).mpr ⟨?_, ?_, h.ne_nil, h.unreserved⟩, ?_⟩
    · rw [rdropWhile_of_getLast hlast hd]
      exact h.unreserved
    · exact Str.trim_eq_self hhead hlast (h.head c hhead) (hend d hlast)
    · exact (truncate_of_le h.fits).symm

end Sanitized

/-! ### The cut -/

section Again

variable {nfc : Str → Str} {allowed : AllowedExtensions} {filename : Str} {n : SafeFilename}

/-- The stem of the result ends in white space exactly when it was cut behind some. -/
theorem cutAfterSpace_iff (h : SafeFilename.parse nfc filename allowed = .ok n) :
    CutAfterSpace nfc filename allowed ↔ ∃ c, n.stem.getLast? = some c ∧ Str.isWhiteSpace c = true := by
  obtain ⟨stem, hprepare, hstem⟩ := parse_eq_ok.mp h
  constructor
  · rintro ⟨fit, c, d, rest, extension, hlong, hspace, hfit, hover⟩
    obtain ⟨rfl, rfl⟩ := Prod.mk.inj (Except.ok.inj (hprepare.symm.trans hlong))
    have hover' : budget n.extension < Str.len (fit ++ [c]) + d.utf8Size := by
      simpa [Str.len, Nat.add_assoc] using hover
    have hcut : n.stem = fit ++ [c] := by
      rw [hstem, List.append_cons, truncate_append hfit hover']
    exact ⟨c, by simp [hcut], hspace⟩
  · rintro ⟨c, hlast, hspace⟩
    obtain ⟨_, raw, -, -, hrepair⟩ := prepare_eq_ok.mp hprepare
    obtain ⟨htrim, -, -⟩ := repairStem_eq_ok.mp hrepair
    have hlong : budget n.extension < stem.len := by
      by_contra hshort
      rw [hstem, truncate_of_le (not_lt.mp hshort), ← htrim] at hlast
      rw [Str.isWhiteSpace_getLast_trim hlast] at hspace
      exact Bool.noConfusion hspace
    obtain ⟨fit, d, rest, rfl, hfit, hover⟩ := Str.exists_overflow hlong
    rw [hstem, truncate_append hfit hover] at hlast
    obtain ⟨front, rfl⟩ := List.getLast?_eq_some_iff.mp hlast
    refine ⟨front, c, d, rest, n.extension, ?_, hspace, hfit, ?_⟩
    · rw [hprepare, List.append_assoc, List.singleton_append]
    · simpa [Str.len, Nat.add_assoc] using hover

/-- Sanitizing is idempotent exactly where no stem is cut behind white space. -/
theorem parse_idempotent_iff (hnfc : IsNfc nfc) (filename : Str) (allowed : AllowedExtensions) :
    (∀ n, SafeFilename.parse nfc filename allowed = .ok n → SafeFilename.parse nfc n.toStr allowed = .ok n) ↔
      ¬ CutAfterSpace nfc filename allowed := by
  constructor
  · intro hagain hcut
    have ⟨fit, c, d, rest, extension, hprepare, _⟩ := hcut
    obtain ⟨n, hn⟩ : ∃ n, SafeFilename.parse nfc filename allowed = .ok n :=
      ⟨⟨truncateOnCharBoundary _ (budget extension), extension⟩, parse_eq_ok.mpr ⟨_, hprepare, rfl⟩⟩
    obtain ⟨c, hlast, hspace⟩ := (cutAfterSpace_iff hn).mp hcut
    have hend := ((sanitized_of_parse hnfc.fatal hn).parse_toStr (hnfc.toStr hn)).mp (hagain n hn)
    rw [hend c hlast] at hspace
    exact Bool.noConfusion hspace
  · intro hcut n hn
    refine ((sanitized_of_parse hnfc.fatal hn).parse_toStr (hnfc.toStr hn)).mpr fun c hlast => ?_
    by_contra hspace
    exact hcut ((cutAfterSpace_iff hn).mpr ⟨c, hlast, Bool.eq_true_of_not_eq_false hspace⟩)

end Again

/-- A name of 250 letters, a space and one more letter. -/
def spaceAtTheCut : Str := List.replicate 250 'a' ++ " b.jpg".toList

/-- The cut leaves the space at the end, and the second time it is trimmed. -/
theorem spaceAtTheCut_shrinks :
    ¬ ∀ nfc, IsNfc nfc → ∀ filename allowed n, SafeFilename.parse nfc filename allowed = .ok n →
      SafeFilename.parse nfc n.toStr allowed = .ok n := by
  intro hagain
  have hfirst : SafeFilename.parse id spaceAtTheCut {jpg} = .ok ⟨List.replicate 250 'a' ++ [' '], jpg⟩ := by
    decide +kernel
  have hsecond : SafeFilename.parse id (SafeFilename.toStr ⟨List.replicate 250 'a' ++ [' '], jpg⟩) {jpg} =
      .ok ⟨List.replicate 250 'a', jpg⟩ := by
    decide +kernel
  have hsame := Except.ok.inj ((hagain id isNfc_id _ _ _ hfirst).symm.trans hsecond)
  have hlength := congrArg (fun n => n.stem.length) hsame
  rw [List.length_append, List.length_replicate] at hlength
  exact absurd hlength (by decide)

/-- A short name is left alone: nothing is cut. -/
theorem holiday_idempotent :
    SafeFilename.parse id "holiday photo.JPG".toList {jpg} = .ok ⟨"holiday photo".toList, jpg⟩ ∧
      SafeFilename.parse id "holiday photo.jpg".toList {jpg} = .ok ⟨"holiday photo".toList, jpg⟩ := by
  have hparse : SafeFilename.parse id "holiday photo.JPG".toList {jpg} = .ok ⟨"holiday photo".toList, jpg⟩ := by
    rfl
  refine ⟨hparse, (parse_idempotent_iff isNfc_id _ _).mpr ?_ _ hparse⟩
  rintro ⟨fit, c, d, rest, extension, hprepare, -, -, hover⟩
  have hshort : prepare id "holiday photo.JPG".toList {jpg} = .ok ("holiday photo".toList, jpg) := by rfl
  obtain ⟨hstem, rfl⟩ := Prod.mk.inj (Except.ok.inj (hshort.symm.trans hprepare))
  have hprefix : fit ++ [c, d] <+: "holiday photo".toList := ⟨rest, by rw [hstem]; simp⟩
  have hlen : budget jpg < Str.len "holiday photo".toList := hover.trans_le (Str.len_le_of_sublist hprefix.sublist)
  exact absurd hlen (by decide)

end Arcature.Storage

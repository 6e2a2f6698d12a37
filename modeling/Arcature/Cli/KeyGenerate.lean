import Arcature.Lib.Dotenv
import Arcature.Lib.FileTree

/-! The application's key in `.env` (`cli/commands/key_generate.rs`).

    `upsert` takes a line for one of the key by how it begins, and the reader of the file takes others
    as well:

        line                        upsert         the reader
        APP_KEY=old                 rewrites it    APP_KEY
        export APP_KEY=old          leaves it      APP_KEY
        APP_KEY =old                leaves it      APP_KEY
        APP_KEY=old, in a value     rewrites it    a part of the value

    An assignment that is left counts if it comes first, and then the old key stays
    (`rotates_when`). -/

namespace Arcature.Cli.KeyGenerate
open Arcature.Lib Arcature.Lib.Str Arcature.Lib.Dotenv Arcature.Lib.FileTree

/-- `KEY_VARIABLE`. -/
def keyVariable : Str := "APP_KEY".toList

/-- `assignment` in `upsert`. -/
def keyLine (hex : Str) : Str := keyVariable ++ '=' :: hex

/-- The test that `upsert` makes of a line. -/
def isKeyLine (line : Str) : Bool := (keyVariable ++ ['=']).isPrefixOf (trimStart line)

/-- What `upsert` makes of a line. -/
def rekey (hex line : Str) : Str := if isKeyLine line then keyLine hex else line

/-- `upsert`. -/
def upsert (existing hex : Str) : Str :=
  let replaced := (lines existing).any isKeyLine
  let ls := (lines existing).map (rekey hex)
  let ls := if replaced then ls
    else (if ls.getLast?.any fun last => trim last ≠ [] then ls ++ [[]] else ls) ++ [keyLine hex]
  trimEnd (joinLines ls) ++ ['\n']

/-- `to_hex`. -/
def toHex (bytes : Bytes) : Str :=
  bytes.flatMap fun byte => [Nat.digitChar (byte.toNat / 16), Nat.digitChar (byte.toNat % 16)]

/-- `KeyGenerateError`. -/
inductive KeyGenerateError where
  | rng
  | noEnvFile (path : Path)
  | io (path : Path)
  deriving DecidableEq

/-- `env_path`. -/
def envPath (root : Path) : Path := root ++ [".env".toList]

/-- `generate`, with what `SessionKey::generate` has drawn. -/
def generate (printed : Bool) (key : Option (ByteArr 64)) (d : Disk) (root : Path) :
    Except KeyGenerateError Str × Disk :=
  match key with
  | none => (.error .rng, d)
  | some key =>
    let hex := toHex key.val
    if printed then (.ok hex, d)
    else
      match d.tree.node (envPath root) with
      | none => (.error (.noEnvFile (envPath root)), d)
      | some .dir => (.error (.io (envPath root)), d)
      | some (.file existing) =>
        match d.write (envPath root) (upsert existing hex) with
        | (true, d) => (.ok hex, d)
        | (false, d) => (.error (.io (envPath root)), d)

/-- The digits of a key, in either case. -/
def hexDigits : Str := "0123456789abcdefABCDEF".toList

/-- A key of 128 hexadecimal digits. -/
def IsKey (hex : Str) : Prop := hex.length = 128 ∧ ∀ c ∈ hex, c ∈ hexDigits

/-! ### A line of the key -/

theorem isKeyLine_iff {line : Str} : isKeyLine line = true ↔ ∃ rest, trimStart line = keyLine rest := by
  rw [isKeyLine, List.isPrefixOf_iff_prefix]
  constructor
  · rintro ⟨rest, hrest⟩
    exact ⟨rest, by rw [← hrest, keyLine, List.append_assoc, List.singleton_append]⟩
  · rintro ⟨rest, hrest⟩
    exact ⟨rest, by rw [hrest, keyLine, List.append_assoc, List.singleton_append]⟩

theorem trimStart_keyLine (hex : Str) : trimStart (keyLine hex) = keyLine hex := rfl

theorem isKeyLine_keyLine (hex : Str) : isKeyLine (keyLine hex) = true :=
  isKeyLine_iff.mpr ⟨hex, trimStart_keyLine hex⟩

theorem isBlankLine_keyLine (hex : Str) : isBlankLine (keyLine hex) = false := rfl

theorem named_keyLine (hex : Str) : named (keyLine hex) = some (keyVariable, trim hex) := rfl

/-- What the reader makes of a line of the key. -/
theorem assignment_of_isKeyLine {line : Str} (h : isKeyLine line = true) :
    ∃ value, assignment line = some (keyVariable, value) := by
  obtain ⟨rest, hrest⟩ := isKeyLine_iff.mp h
  refine ⟨trim rest, ?_⟩
  rw [assignment, hrest, named_keyLine]
  rfl

theorem isBlankLine_of_isKeyLine {line : Str} (h : isKeyLine line = true) : isBlankLine line = false := by
  obtain ⟨rest, hrest⟩ := isKeyLine_iff.mp h
  rw [isBlankLine, List.all_eq_false]
  refine ⟨'A', ?_, by decide⟩
  have hmem : 'A' ∈ trimStart line := by
    rw [hrest]
    exact List.mem_cons_self
  exact (List.dropWhile_suffix isWhiteSpace).subset hmem

/-- White space at the end of a line does not matter to the test. -/
theorem isKeyLine_concat_space {w : Char} (hw : isWhiteSpace w = true) (line : Str) :
    isKeyLine (line ++ [w]) = isKeyLine line := by
  have hlast : keyVariable ++ ['='] ≠ trimStart line ++ [w] := by
    intro heq
    have hequals : w = '=' := (List.singleton_injective (List.append_inj' heq rfl).2).symm
    rw [hequals] at hw
    exact absurd hw (by decide)
  rw [isKeyLine, isKeyLine, trimStart_concat_space hw, Bool.eq_iff_iff, List.isPrefixOf_iff_prefix,
    List.isPrefixOf_iff_prefix]
  split_ifs with hempty
  · rw [hempty]
  · rw [List.prefix_concat_iff, or_iff_right hlast]

theorem isKeyLine_stripCr (line : Str) : isKeyLine (stripCr line) = isKeyLine line := by
  rw [stripCr]
  split_ifs with h
  · obtain ⟨front, rfl⟩ := List.getLast?_eq_some_iff.mp h
    rw [List.dropLast_concat, isKeyLine_concat_space (by decide)]
  · rfl

theorem isKeyLine_trimEnd (line : Str) : isKeyLine (trimEnd line) = isKeyLine line := by
  induction line using List.reverseRecOn with
  | nil => rfl
  | append_singleton line w ih =>
    by_cases hw : isWhiteSpace w = true
    · rw [trimEnd, List.rdropWhile_concat_pos _ _ _ hw, ← trimEnd, ih, isKeyLine_concat_space hw]
    · rw [trimEnd, List.rdropWhile_concat_neg _ _ _ hw]

theorem rekey_pos {line : Str} (h : isKeyLine line = true) (hex : Str) : rekey hex line = keyLine hex := if_pos h

theorem rekey_neg {line : Str} (h : isKeyLine line = false) (hex : Str) : rekey hex line = line :=
  if_neg (Bool.eq_false_iff.mp h)

/-- Lines that are none of the key's stay as they are. -/
theorem map_rekey {ls : List Str} (h : ∀ l ∈ ls, isKeyLine l = false) (hex : Str) : ls.map (rekey hex) = ls :=
  (List.map_congr_left fun l hl => rekey_neg (h l hl) hex).trans (List.map_id ls)

theorem isKeyLine_rekey (hex line : Str) : isKeyLine (rekey hex line) = isKeyLine line := by
  by_cases h : isKeyLine line = true
  · rw [rekey_pos h, isKeyLine_keyLine, h]
  · rw [rekey_neg (Bool.eq_false_of_not_eq_true h)]

theorem isBlankLine_rekey (hex line : Str) : isBlankLine (rekey hex line) = isBlankLine line := by
  by_cases h : isKeyLine line = true
  · rw [rekey_pos h, isBlankLine_keyLine, isBlankLine_of_isKeyLine h]
  · rw [rekey_neg (Bool.eq_false_of_not_eq_true h)]

/-- A line that is written with another key is the line with this key. -/
theorem rekey_stripCr_rekey (old hex line : Str) : rekey hex (stripCr (rekey old line)) = rekey hex (stripCr line) := by
  by_cases h : isKeyLine line = true
  · rw [rekey_pos h, rekey_pos (by rw [isKeyLine_stripCr, isKeyLine_keyLine]), rekey_pos (by rwa [isKeyLine_stripCr])]
  · rw [rekey_neg (Bool.eq_false_of_not_eq_true h)]

theorem trimEnd_rekey (old hex line : Str) :
    trimEnd (rekey hex (trimEnd (rekey old line))) = trimEnd (rekey hex line) := by
  by_cases h : isKeyLine line = true
  · rw [rekey_pos h, rekey_pos (by rw [isKeyLine_trimEnd, isKeyLine_keyLine]), rekey_pos h]
  · have hnot := Bool.eq_false_of_not_eq_true h
    rw [rekey_neg hnot, rekey_neg (by rwa [isKeyLine_trimEnd]), rekey_neg hnot, trimEnd_trimEnd]

/-! ### The lines that are written -/

/-- The lines of a text, with one of the key among them. -/
def keyed (t : Str) : List Str :=
  if (lines t).any isKeyLine then lines t
  else (if (lines t).getLast?.any fun last => trim last ≠ [] then lines t ++ [[]] else lines t) ++ [keyLine []]

theorem keyed_cases (t : Str) :
    ((lines t).any isKeyLine = true ∧ keyed t = lines t) ∨
      ((lines t).any isKeyLine = false ∧ ∃ gap, (∀ l ∈ gap, l = []) ∧ keyed t = lines t ++ gap ++ [keyLine []]) := by
  rw [keyed]
  by_cases h : (lines t).any isKeyLine = true
  · exact .inl ⟨h, if_pos h⟩
  · rw [if_neg h]
    refine .inr ⟨Bool.eq_false_of_not_eq_true h, ?_⟩
    split_ifs
    · exact ⟨[[]], by simp, rfl⟩
    · exact ⟨[], by simp, by rw [List.append_nil]⟩

theorem upsert_eq (t hex : Str) : upsert t hex = trimEnd (joinLines ((keyed t).map (rekey hex))) ++ ['\n'] := by
  rw [upsert, keyed]
  by_cases h : (lines t).any isKeyLine = true
  · rw [if_pos h, if_pos h]
  · have hmap : (lines t).map (rekey hex) = lines t :=
      map_rekey (fun l hl => Bool.eq_false_of_not_eq_true fun hkey => h (List.any_eq_true.mpr ⟨l, hl, hkey⟩)) hex
    have hlast : rekey hex (keyLine []) = keyLine hex := rekey_pos (isKeyLine_keyLine []) hex
    rw [if_neg h, if_neg h, hmap, List.map_append, List.map_singleton, hlast]
    congr 3
    split_ifs
    · rw [List.map_append, hmap]
      rfl
    · rw [hmap]

theorem exists_mem_keyed (t : Str) : ∃ l ∈ keyed t, isKeyLine l = true := by
  obtain ⟨h, hkeyed⟩ | ⟨-, gap, -, hkeyed⟩ := keyed_cases t
  · rw [hkeyed]
    exact List.any_eq_true.mp h
  · rw [hkeyed]
    exact ⟨keyLine [], by simp, isKeyLine_keyLine []⟩

theorem newline_notMem_keyed {t l : Str} (h : l ∈ keyed t) : '\n' ∉ l := by
  obtain ⟨-, hkeyed⟩ | ⟨-, gap, hgap, hkeyed⟩ := keyed_cases t
  · rw [hkeyed] at h
    exact newline_notMem_lines h
  · rw [hkeyed, List.mem_append, List.mem_append, List.mem_singleton] at h
    obtain (h | h) | rfl := h
    · exact newline_notMem_lines h
    · rw [hgap l h]
      exact List.not_mem_nil
    · decide

/-- The lines before the last that is not blank, or all of them if the key's is put behind. -/
def leading (t : Str) : List Str :=
  if (lines t).any isKeyLine then ((lines t).rdropWhile isBlankLine).dropLast else lines t

theorem keyed_split (t : Str) : ∃ front last blanks, keyed t = front ++ last :: blanks ∧ isBlankLine last = false ∧
    (∀ b ∈ blanks, isBlankLine b = true) ∧ (∀ l ∈ front, l ∈ leading t ∨ l = []) ∧ ∀ l ∈ leading t, l ∈ front := by
  obtain ⟨h, hkeyed⟩ | ⟨h, gap, hgap, hkeyed⟩ := keyed_cases t
  · rw [leading, if_pos h, hkeyed]
    obtain ⟨key, hkey, hisKey⟩ := List.any_eq_true.mp h
    obtain ⟨last, blanks, heq, hlast, hblanks⟩ := exists_last ⟨key, hkey, isBlankLine_of_isKeyLine hisKey⟩
    exact ⟨_, last, blanks, heq, hlast, hblanks, fun l hl => .inl hl, fun l hl => hl⟩
  · rw [leading, if_neg (Bool.eq_false_iff.mp h), hkeyed]
    refine ⟨lines t ++ gap, keyLine [], [], rfl, isBlankLine_keyLine [], by simp, ?_, ?_⟩
    · exact fun l hl => (List.mem_append.mp hl).imp_right (hgap l)
    · exact fun l hl => List.mem_append_left _ hl

/-! ### One key after another -/

/-- A key has no white space and no quote in it. -/
def Plain (hex : Str) : Prop := ∀ c ∈ hex, isWhiteSpace c = false ∧ c ≠ '"' ∧ c ≠ '\''

theorem IsKey.plain {hex : Str} (h : IsKey hex) : Plain hex := by
  have hdigits : ∀ c ∈ hexDigits, isWhiteSpace c = false ∧ c ≠ '"' ∧ c ≠ '\'' := by decide
  exact fun c hc => hdigits c (h.2 c hc)

theorem Plain.keyLine {hex : Str} (h : Plain hex) : Plain (keyLine hex) := by
  have hname : Plain (keyVariable ++ ['=']) := by
    rw [Plain]
    decide
  intro c hc
  rw [KeyGenerate.keyLine, ← List.singleton_append, ← List.append_assoc] at hc
  exact (List.mem_append.mp hc).elim (hname c) (h c)

theorem Plain.newline_notMem {line : Str} (h : Plain line) : '\n' ∉ line :=
  fun hmem => absurd (h _ hmem).1 (by decide)

theorem Plain.trimEnd {line : Str} (h : Plain line) : trimEnd line = line := by
  rw [Str.trimEnd, List.rdropWhile_eq_self_iff]
  exact fun hne => Bool.eq_false_iff.mp (h _ (List.getLast_mem hne)).1

theorem newline_notMem_rekey {hex : Str} (h : Plain hex) {line : Str} (hline : '\n' ∉ line) :
    '\n' ∉ rekey hex line := by
  rw [rekey]
  split_ifs
  · exact h.keyLine.newline_notMem
  · exact hline

theorem upsert_split {t : Str} {front blanks : List Str} {last : Str} (ht : keyed t = front ++ last :: blanks)
    (hlast : isBlankLine last = false) (hblanks : ∀ b ∈ blanks, isBlankLine b = true) (hex : Str) :
    upsert t hex = joinLines (front.map (rekey hex) ++ [trimEnd (rekey hex last)]) ++ ['\n'] := by
  rw [upsert_eq, ht, List.map_append, List.map_cons, trimEnd_joinLines]
  · rwa [isBlankLine_rekey]
  · rw [List.forall_mem_map]
    exact fun b hb => (isBlankLine_rekey hex b).trans (hblanks b hb)

/-- The lines of what is written. -/
theorem lines_upsert {t hex : Str} (hhex : Plain hex) {front blanks : List Str} {last : Str}
    (ht : keyed t = front ++ last :: blanks) (hlast : isBlankLine last = false)
    (hblanks : ∀ b ∈ blanks, isBlankLine b = true) :
    lines (upsert t hex) = front.map (fun l => stripCr (rekey hex l)) ++ [trimEnd (rekey hex last)] := by
  have hfree : ∀ l ∈ front.map (rekey hex) ++ [trimEnd (rekey hex last)], '\n' ∉ l := by
    rw [List.forall_mem_append, List.forall_mem_singleton, List.forall_mem_map]
    constructor
    · exact fun l hl => newline_notMem_rekey hhex (newline_notMem_keyed (ht ▸ List.mem_append_left _ hl))
    · have hnot := newline_notMem_rekey hhex (newline_notMem_keyed (t := t) (l := last) (by simp [ht]))
      exact fun hmem => hnot ((List.rdropWhile_prefix _ _).subset hmem)
  rw [upsert_split ht hlast hblanks, lines_concat_newline, joinLines, List.splitOn_intercalate '\n' hfree (by simp),
    List.map_append, List.map_map, List.map_singleton, stripCr_trimEnd]
  rfl

/-- What is written has a line of the key. -/
theorem keyed_upsert {t hex : Str} (hhex : Plain hex) : keyed (upsert t hex) = lines (upsert t hex) := by
  obtain ⟨front, last, blanks, ht, hlast, hblanks, -⟩ := keyed_split t
  obtain ⟨key, hkey, hisKey⟩ := exists_mem_keyed t
  rw [keyed, if_pos]
  rw [lines_upsert hhex ht hlast hblanks, List.any_append, List.any_map, Bool.or_eq_true]
  rw [ht, List.mem_append, List.mem_cons] at hkey
  obtain hkey | rfl | hkey := hkey
  · refine .inl (List.any_eq_true.mpr ⟨key, hkey, ?_⟩)
    rw [Function.comp_apply, isKeyLine_stripCr, isKeyLine_rekey, hisKey]
  · refine .inr (List.any_eq_true.mpr ⟨_, List.mem_singleton_self _, ?_⟩)
    rw [isKeyLine_trimEnd, isKeyLine_rekey, hisKey]
  · exact absurd ((isBlankLine_of_isKeyLine hisKey).symm.trans (hblanks key hkey)) Bool.false_ne_true

/-- Lines are written with another key as they would have been before, but for a carriage return at the end. -/
theorem upsert_upsert {t old : Str} (hold : Plain old) {front blanks : List Str} {last : Str}
    (ht : keyed t = front ++ last :: blanks) (hlast : isBlankLine last = false)
    (hblanks : ∀ b ∈ blanks, isBlankLine b = true) (hex : Str) :
    upsert (upsert t old) hex =
      joinLines (front.map (fun l => rekey hex (stripCr l)) ++ [trimEnd (rekey hex last)]) ++ ['\n'] := by
  have hkeyed := (keyed_upsert hold).trans (lines_upsert hold ht hlast hblanks)
  rw [upsert_split hkeyed (by rw [isBlankLine_trimEnd, isBlankLine_rekey, hlast]) (by simp), List.map_map,
    trimEnd_rekey]
  have hfront : front.map (rekey hex ∘ fun l => stripCr (rekey old l)) = front.map fun l => rekey hex (stripCr l) :=
    List.map_congr_left fun l _ => rekey_stripCr_rekey old hex l
  rw [hfront]

theorem rekey_stripCr_iff {hex line : Str} :
    rekey hex (stripCr line) = rekey hex line ↔ isKeyLine line = true ∨ line.getLast? ≠ some '\r' := by
  by_cases h : isKeyLine line = true
  · rw [rekey_pos h, rekey_pos (by rwa [isKeyLine_stripCr])]
    exact iff_of_true rfl (.inl h)
  · have hnot := Bool.eq_false_of_not_eq_true h
    rw [rekey_neg hnot, rekey_neg (by rwa [isKeyLine_stripCr]), stripCr_eq_self_iff, or_iff_right h]

/-- A second key takes the place of the first if and only if no line that stays loses a carriage return. -/
theorem upsert_idem_iff {t old hex : Str} (hold : Plain old) (hhex : Plain hex) :
    upsert (upsert t old) hex = upsert t hex ↔ ∀ l ∈ leading t, isKeyLine l = true ∨ l.getLast? ≠ some '\r' := by
  obtain ⟨front, last, blanks, ht, hlast, hblanks, hleading, hfront⟩ := keyed_split t
  have hfree : ∀ l ∈ keyed t, '\n' ∉ rekey hex l ∧ '\n' ∉ rekey hex (stripCr l) := by
    intro l hl
    have hnot := newline_notMem_keyed hl
    refine ⟨newline_notMem_rekey hhex hnot, newline_notMem_rekey hhex ?_⟩
    rw [stripCr]
    split_ifs
    · exact fun hmem => hnot (List.mem_of_mem_dropLast hmem)
    · exact hnot
  have hend : '\n' ∉ trimEnd (rekey hex last) :=
    fun hmem => (hfree last (by simp [ht])).1 ((List.rdropWhile_prefix _ _).subset hmem)
  rw [upsert_upsert hold ht hlast hblanks, upsert_split ht hlast hblanks, List.append_left_inj,
    joinLines_inj (by simp) (by simp), List.append_left_inj, List.map_inj_left]
  · constructor
    · exact fun h l hl => rekey_stripCr_iff.mp (h l (hfront l hl))
    · intro h l hl
      obtain hl | rfl := hleading l hl
      · exact rekey_stripCr_iff.mpr (h l hl)
      · rfl
  · rw [List.forall_mem_append, List.forall_mem_singleton, List.forall_mem_map]
    exact ⟨fun l hl => (hfree l (by simp [ht, hl])).2, hend⟩
  · rw [List.forall_mem_append, List.forall_mem_singleton, List.forall_mem_map]
    exact ⟨fun l hl => (hfree l (by simp [ht, hl])).1, hend⟩

/-! ### What is read -/

/-- The lines of the key begin outside quoted values, and close the quotes they open. -/
def Outside (t : Str) : Prop :=
  Along (fun q line => isKeyLine line = true → q = none ∧ scan q line = none) none (lines t)

/-- Where a line of the key is put behind, no quote is open. -/
def Ends (t : Str) : Prop := (lines t).any isKeyLine = true ∨ (lines t).foldl scan none = none

/-- No line before the first that is rewritten assigns the key. -/
def First (t : Str) : Prop := value (read none [] ((lines t).takeWhile (!isKeyLine ·))) keyVariable = none

/-- No line that stays loses a carriage return at the next run. -/
def Settled (t : Str) : Prop := ∀ l ∈ leading t, isKeyLine l = true ∨ l.getLast? ≠ some '\r'

/-- A new key takes effect and changes nothing else, and a second takes the place of the first. -/
def Rotates (t : Str) : Prop :=
  (∀ hex, IsKey hex → value (readEnv (upsert t hex)) keyVariable = some hex ∧
    ∀ name ≠ keyVariable, value (readEnv (upsert t hex)) name = value (readEnv t) name) ∧
  ∀ old hex, IsKey old → IsKey hex → upsert (upsert t old) hex = upsert t hex

theorem scan_keyLine {hex : Str} (h : Plain hex) (q : Option Quote) : scan q (keyLine hex) = q :=
  scan_of_notMem (fun hmem => (h.keyLine _ hmem).2.1 rfl) (fun hmem => (h.keyLine _ hmem).2.2 rfl) q

theorem trim_of_plain {hex : Str} (h : Plain hex) : trim hex = hex := by
  have hstart : hex.dropWhile isWhiteSpace = hex := by
    rw [List.dropWhile_eq_self_iff]
    exact fun hlen => Bool.eq_false_iff.mp (h _ (List.getElem_mem hlen)).1
  have htrim : trim hex = trimEnd (hex.dropWhile isWhiteSpace) := rfl
  rw [htrim, hstart, h.trimEnd]

/-- The line that is written gives the key. -/
theorem read_keyLine {hex : Str} (h : Plain hex) (ls : List Str) :
    read none [] (keyLine hex :: ls) = (keyVariable, hex) :: read none [] ls := by
  have hassignment : assignment (keyLine hex) = some (keyVariable, hex) := by
    rw [assignment, trimStart_keyLine, named_keyLine, trim_of_plain h]
    rfl
  rw [Dotenv.read, scan_keyLine h]
  simp [hassignment]

theorem readEnv_upsert {hex : Str} (h : Plain hex) (t : Str) :
    readEnv (upsert t hex) = read none [] ((keyed t).map (rekey hex)) := by
  have hfree : ∀ l ∈ (keyed t).map (rekey hex), '\n' ∉ l := by
    rw [List.forall_mem_map]
    exact fun l hl => newline_notMem_rekey h (newline_notMem_keyed hl)
  have hne : (keyed t).map (rekey hex) ≠ [] := by
    obtain ⟨l, hl, -⟩ := exists_mem_keyed t
    exact List.ne_nil_of_mem (List.mem_map_of_mem hl)
  rw [upsert_eq, readEnv_concat_space (by decide), readEnv_trimEnd, readEnv, joinLines,
    List.splitOn_intercalate '\n' hfree hne]

theorem along_keyed {t : Str} (h : Outside t) (hends : Ends t) :
    Along (fun q line => isKeyLine line = true → q = none ∧ scan q line = none) none (keyed t) := by
  obtain ⟨-, hkeyed⟩ | ⟨hnone, gap, hgap, hkeyed⟩ := keyed_cases t
  · rwa [hkeyed]
  · have hopen := hends.resolve_left (Bool.eq_false_iff.mp hnone)
    have hplain : Plain [] := by simp [Plain]
    have hbetween : Along (fun q line => isKeyLine line = true → q = none ∧ scan q line = none) none gap ∧
        gap.foldl scan none = none := by
      clear hkeyed
      induction gap with
      | nil => exact ⟨trivial, rfl⟩
      | cons l gap ih =>
        obtain ⟨rfl, hrest⟩ := List.forall_mem_cons.mp hgap
        exact ⟨⟨fun _ => ⟨rfl, rfl⟩, (ih hrest).1⟩, (ih hrest).2⟩
    rw [hkeyed, along_append, along_append, List.foldl_append, hopen, hbetween.2]
    exact ⟨⟨h, hbetween.1⟩, fun _ => ⟨rfl, scan_keyLine hplain none⟩, trivial⟩

/-- Another key changes no other variable. -/
theorem filter_read_rekey {hex : Str} (hhex : Plain hex) {q : Option Quote} {ls : List Str}
    (h : Along (fun q line => isKeyLine line = true → q = none ∧ scan q line = none) q ls) (buffer : Str) :
    (read q buffer (ls.map (rekey hex))).filter (·.1 ≠ keyVariable) =
      (read q buffer ls).filter (·.1 ≠ keyVariable) := by
  induction ls generalizing q buffer with
  | nil => rfl
  | cons line ls ih =>
    obtain ⟨hline, hls⟩ := h
    rw [List.map_cons]
    by_cases hkey : isKeyLine line = true
    · obtain ⟨rfl, hscan⟩ := hline hkey
      obtain ⟨old, hold⟩ := assignment_of_isKeyLine hkey
      rw [hscan] at hls
      rw [rekey_pos hkey, read_none, read_keyLine hhex, Dotenv.read, hscan, if_pos rfl, hold]
      simpa using ih hls []
    · rw [rekey_neg (Bool.eq_false_of_not_eq_true hkey), Dotenv.read, Dotenv.read]
      cases hscan : scan q line with
      | some quote => exact ih (hscan ▸ hls) _
      | none =>
        rw [hscan] at hls
        dsimp only
        rw [List.filter_append, List.filter_append, ih hls]

/-- Nor does the line that is put behind. -/
theorem filter_read_keyed {t : Str} (hends : Ends t) :
    (read none [] (keyed t)).filter (·.1 ≠ keyVariable) = (read none [] (lines t)).filter (·.1 ≠ keyVariable) := by
  obtain ⟨-, hkeyed⟩ | ⟨hnone, gap, hgap, hkeyed⟩ := keyed_cases t
  · rw [hkeyed]
  · have hopen := hends.resolve_left (Bool.eq_false_iff.mp hnone)
    have hplain : Plain [] := by simp [Plain]
    have hlast : read none [] (gap ++ [keyLine []]) = [(keyVariable, [])] := by
      clear hkeyed
      induction gap with
      | nil => exact read_keyLine hplain []
      | cons l gap ih =>
        obtain ⟨rfl, hrest⟩ := List.forall_mem_cons.mp hgap
        exact ih hrest
    rw [hkeyed, List.append_assoc, read_append hopen, hlast]
    simp

/-- The lines before the first of the key stay as they are. -/
theorem exists_keyed (t : Str) : ∃ gap key rest, (∀ l ∈ gap, l = []) ∧ isKeyLine key = true ∧
    keyed t = (lines t).takeWhile (!isKeyLine ·) ++ gap ++ key :: rest ∧ ∀ hex,
      (keyed t).map (rekey hex) =
        (lines t).takeWhile (!isKeyLine ·) ++ gap ++ keyLine hex :: rest.map (rekey hex) := by
  have hbefore : ∀ l ∈ (lines t).takeWhile (!isKeyLine ·), isKeyLine l = false := fun l hl => by
    simpa using List.mem_takeWhile_imp hl
  suffices ∃ gap key rest, (∀ l ∈ gap, l = []) ∧ isKeyLine key = true ∧
      keyed t = (lines t).takeWhile (!isKeyLine ·) ++ gap ++ key :: rest by
    obtain ⟨gap, key, rest, hgap, hkey, hkeyed⟩ := this
    refine ⟨gap, key, rest, hgap, hkey, hkeyed, fun hex => ?_⟩
    have hgap' : ∀ l ∈ gap, isKeyLine l = false := fun l hl => by
      rw [hgap l hl]
      rfl
    rw [hkeyed, List.map_append, List.map_append, map_rekey hbefore, map_rekey hgap', List.map_cons, rekey_pos hkey]
  obtain ⟨h, hkeyed⟩ | ⟨h, gap, hgap, hkeyed⟩ := keyed_cases t
  · have hne : (lines t).dropWhile (!isKeyLine ·) ≠ [] := by
      rw [ne_eq, List.dropWhile_eq_nil_iff]
      obtain ⟨l, hl, hkey⟩ := List.any_eq_true.mp h
      exact fun hall => by simpa [hkey] using hall l hl
    obtain ⟨key, rest, hrest⟩ := List.exists_cons_of_ne_nil hne
    have hkey := List.head_dropWhile_not _ hne
    simp only [hrest, List.head_cons] at hkey
    refine ⟨[], key, rest, by simp, by simpa using hkey, ?_⟩
    rw [hkeyed, List.append_nil, ← hrest, List.takeWhile_append_dropWhile]
  · have hall : (lines t).takeWhile (!isKeyLine ·) = lines t := by
      rw [List.takeWhile_eq_self_iff]
      exact fun l hl => by simpa using List.any_eq_false.mp h l hl
    exact ⟨gap, keyLine [], [], hgap, isKeyLine_keyLine [], by rw [hall, hkeyed]⟩

theorem value_cons (name v : Str) (l : List (Str × Str)) : value ((name, v) :: l) name = some v := by
  simp [value]

/-- Two keys. -/
theorem exists_isKey : ∃ a b, IsKey a ∧ IsKey b ∧ a ≠ b := by
  refine ⟨List.replicate 128 '0', List.replicate 128 '1', ⟨List.length_replicate, ?_⟩, ⟨List.length_replicate, ?_⟩, ?_⟩
  · exact fun c hc => by rw [List.eq_of_mem_replicate hc]; decide
  · exact fun c hc => by rw [List.eq_of_mem_replicate hc]; decide
  · exact fun h => absurd (List.replicate_inj.mp h) (by decide)

/-- A value that does not depend on the key is not the key. -/
theorem Rotates.varies {t : Str} (h : Rotates t) (v : Option Str) :
    ∃ hex, IsKey hex ∧ value (readEnv (upsert t hex)) keyVariable ≠ v := by
  obtain ⟨a, b, ha, hb, hne⟩ := exists_isKey
  by_contra hnone
  push Not at hnone
  have heq := (h.1 a ha).1.symm.trans ((hnone a ha).trans ((hnone b hb).symm.trans (h.1 b hb).1))
  exact hne (Option.some.inj heq)

theorem Rotates.first {t : Str} (h : Rotates t) : First t := by
  rw [First, Option.eq_none_iff_forall_ne_some]
  intro v hv
  obtain ⟨hex, hkey, hne⟩ := h.varies (some v)
  obtain ⟨gap, key, rest, -, -, -, hmap⟩ := exists_keyed t
  refine hne ?_
  obtain ⟨more, hmore⟩ := read_prefix_append none [] ((lines t).takeWhile (!isKeyLine ·))
    (gap ++ keyLine hex :: rest.map (rekey hex))
  rw [readEnv_upsert hkey.plain, hmap, List.append_assoc, ← hmore, value_append, hv, Option.some_or]

theorem Rotates.ends {t : Str} (h : Rotates t) : Ends t := by
  by_contra hopen
  rw [Ends, not_or, Bool.not_eq_true] at hopen
  obtain ⟨hany, hquote⟩ := hopen
  obtain ⟨quote, hquote⟩ := Option.ne_none_iff_exists'.mp hquote
  obtain ⟨hsome, -⟩ | ⟨-, gap, hgap, hkeyed⟩ := keyed_cases t
  · exact absurd (hany.symm.trans hsome) Bool.false_ne_true
  obtain ⟨hex, hkey, hne⟩ := h.varies (value (read none [] (lines t)) keyVariable)
  have hstay : ∀ l ∈ lines t ++ gap, isKeyLine l = false := by
    intro l hl
    obtain hl | hl := List.mem_append.mp hl
    · exact Bool.eq_false_of_not_eq_true (List.any_eq_false.mp hany l hl)
    · rw [hgap l hl]
      rfl
  have hquiet : ∀ l ∈ gap ++ [keyLine hex], scan (some quote) l = some quote := by
    rw [List.forall_mem_append, List.forall_mem_singleton]
    exact ⟨fun l hl => by rw [hgap l hl]; rfl, scan_keyLine hkey.plain _⟩
  refine hne ?_
  rw [readEnv_upsert hkey.plain, hkeyed, List.map_append, map_rekey hstay, List.map_singleton,
    rekey_pos (isKeyLine_keyLine []), List.append_assoc, read_append_open hquote hquiet]

theorem Rotates.settled {t : Str} (h : Rotates t) : Settled t := by
  obtain ⟨a, b, ha, hb, -⟩ := exists_isKey
  exact (upsert_idem_iff ha.plain hb.plain).mp (h.2 a b ha hb)

theorem value_upsert_key {t hex : Str} (hhex : Plain hex) (houtside : Outside t) (hends : Ends t) (hfirst : First t) :
    value (readEnv (upsert t hex)) keyVariable = some hex := by
  obtain ⟨gap, key, rest, hgap, hkey, hkeyed, hmap⟩ := exists_keyed t
  have halong := along_keyed houtside hends
  rw [hkeyed, along_append] at halong
  obtain ⟨hclosed, -⟩ := halong.2.1 hkey
  rw [readEnv_upsert hhex, hmap, read_append hclosed, read_keyLine hhex, value_append,
    read_append_nils none [] _ hgap, hfirst, Option.none_or, value_cons]

theorem value_upsert_other {t hex : Str} (hhex : Plain hex) (houtside : Outside t) (hends : Ends t)
    (hbare : BareEnds t) {name : Str} (hname : name ≠ keyVariable) :
    value (readEnv (upsert t hex)) name = value (readEnv t) name := by
  rw [readEnv_upsert hhex, ← value_filter_ne hname, filter_read_rekey hhex (along_keyed houtside hends),
    filter_read_keyed hends, value_filter_ne hname, read_lines hbare]

/-- A key rotates if no line of it is in a quoted value or opens one, no quoted value goes over a carriage return or
    to where the key is put behind, no assignment of the key comes before what is rewritten, and no line that stays
    ends with two carriage returns. Only the first two can be otherwise. -/
theorem rotates_when (t : Str) :
    (Outside t ∧ BareEnds t ∧ Ends t ∧ First t ∧ Settled t → Rotates t) ∧
      (Rotates t → Ends t ∧ First t ∧ Settled t) := by
  refine ⟨fun ⟨houtside, hbare, hends, hfirst, hsettled⟩ => ⟨fun hex hkey => ⟨?_, fun name hname => ?_⟩, ?_⟩, ?_⟩
  · exact value_upsert_key hkey.plain houtside hends hfirst
  · exact value_upsert_other hkey.plain houtside hends hbare hname
  · exact fun old hex hold hkey => (upsert_idem_iff hold.plain hkey.plain).mpr hsettled
  · exact fun h => ⟨h.ends, h.first, h.settled⟩

/-- An exported key stays in force. -/
theorem exported_stays : ¬ Rotates "export APP_KEY=old\n".toList :=
  fun h => by
    have hfirst := h.first
    rw [First] at hfirst
    exact absurd hfirst (by decide)

/-! ### The command -/

/-- What is drawn is written as a key. -/
theorem isKey_toHex (key : ByteArr 64) : IsKey (toHex key.val) := by
  have hdigit : ∀ n : Fin 16, Nat.digitChar n.val ∈ hexDigits := by decide
  constructor
  · rw [toHex, List.length_flatMap]
    simp [key.property]
  · intro c hc
    obtain ⟨byte, -, hc⟩ := List.mem_flatMap.mp hc
    have hbyte := byte.toNat_lt
    obtain rfl | hc := List.mem_cons.mp hc
    · exact hdigit ⟨byte.toNat / 16, by omega⟩
    · rw [List.mem_singleton.mp hc]
      exact hdigit ⟨byte.toNat % 16, by omega⟩

/-- A key that is printed is not written. -/
theorem generate_printed (key : Option (ByteArr 64)) (d : Disk) (root : Path) : (generate true key d root).2 = d := by
  cases key <;> rfl

theorem generate_file {d : Disk} {root : Path} {existing : Str} (h : d.tree.node (envPath root) = some (.file existing))
    (key : ByteArr 64) :
    generate false (some key) d root =
      (if (d.write (envPath root) (upsert existing (toHex key.val))).1 = true then .ok (toHex key.val)
        else .error (.io (envPath root)),
        (d.write (envPath root) (upsert existing (toHex key.val))).2) := by
  rw [generate, h]
  dsimp only
  rw [if_neg Bool.false_ne_true]
  rcases d.write (envPath root) (upsert existing (toHex key.val)) with ⟨wrote, d'⟩
  cases wrote <;> rfl

/-- Where no file is there, nothing is written. -/
theorem generate_no_file {d : Disk} {root : Path} (h : ∀ existing, d.tree.node (envPath root) ≠ some (.file existing))
    (key : ByteArr 64) : ∃ e, generate false (some key) d root = (.error e, d) := by
  rw [generate]
  cases hnode : d.tree.node (envPath root) with
  | none => exact ⟨_, rfl⟩
  | some node =>
    cases node with
    | dir => exact ⟨_, rfl⟩
    | file existing => exact absurd hnode (h existing)

/-- A key that is returned is in the file, and in force where keys rotate. -/
theorem generate_ok {key : Option (ByteArr 64)} {d : Disk} {root : Path} {hex : Str}
    (h : (generate false key d root).1 = .ok hex) :
    ∃ existing contents, d.tree.node (envPath root) = some (.file existing) ∧
      (generate false key d root).2.tree.node (envPath root) = some (.file contents) ∧
      (Rotates existing → value (readEnv contents) keyVariable = some hex) := by
  cases key with
  | none => exact absurd h (by simp [generate])
  | some key =>
    by_cases hfile : ∃ existing, d.tree.node (envPath root) = some (.file existing)
    · obtain ⟨existing, hnode⟩ := hfile
      rw [generate_file hnode] at h ⊢
      split_ifs at h with hwrite
      obtain rfl := Except.ok.inj h
      refine ⟨existing, upsert existing (toHex key.val), hnode, ?_, fun hrotates => ?_⟩
      · rw [Disk.node_write, if_pos rfl, Disk.written_of_write hwrite]
      · exact (hrotates.1 _ (isKey_toHex key)).1
    · obtain ⟨e, he⟩ := generate_no_file (not_exists.mp hfile) key
      rw [he] at h
      exact absurd h (by simp)

/-- No other file is touched. -/
theorem generate_frame (printed : Bool) (key : Option (ByteArr 64)) (d : Disk) (root : Path) {q : Path}
    (hq : q ≠ envPath root) : (generate printed key d root).2.tree.node q = d.tree.node q := by
  cases printed with
  | true => rw [generate_printed]
  | false =>
    cases key with
    | none => rfl
    | some key =>
      by_cases hfile : ∃ existing, d.tree.node (envPath root) = some (.file existing)
      · obtain ⟨existing, hnode⟩ := hfile
        rw [generate_file hnode, Disk.node_write, if_neg hq]
      · obtain ⟨e, he⟩ := generate_no_file (not_exists.mp hfile) key
        rw [he]

end Arcature.Cli.KeyGenerate

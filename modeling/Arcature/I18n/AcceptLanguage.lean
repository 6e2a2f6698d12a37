import Arcature.Lib.Single
import Arcature.Lib.Sort
import Arcature.Lib.Text

/-! What a request says of languages.

    A header lists language ranges with weights, the best of which is to be served. It is read within two
    bounds, 512 bytes and sixteen entries, and an entry that refuses its language is left out:

        fr;q=0.8, en, de;q=0    en 1000    fr 800

    Weights are thousandths. They are read as singles, and a single times a thousand may come out below the
    thousandth it stands for, so that of the weights with three decimals five are read as one less
    (`thousandthsOf_decimal`). And the bytes are counted before the entries are looked at: the entry at
    the bound may lose the weight that refuses it, or a part of its tag. Every candidate is an entry as it
    was sent exactly if neither happens (`candidates_faithful_iff`). -/

namespace Arcature.I18n
open Arcature.Lib

/-! ### Weights -/

/-- The text of a weight, if a parameter is one. -/
def qualityText (parameter : Str) : Option Str :=
  let parameter := parameter.trim
  (((Str.stripPrefix "q=".toList parameter).orElse fun _ => Str.stripPrefix "Q=".toList parameter).orElse fun _ =>
    Str.stripPrefix "q =".toList parameter).map Str.trim

/-- The thousandths of a weight from zero to one. -/
def thousandthsOf (weight : F32) : Option ℕ :=
  if (F32.ofNat 0).le weight && weight.le (F32.ofNat 1) then some (weight.mul (F32.ofNat 1000)).toU16 else none

/-- The thousandths that are read of a text. -/
def readThousandths (text : Str) : Option ℕ := (F32.parse text).bind thousandthsOf

/-- The thousandths that a text says. -/
def exactThousandths (text : Str) : Option ℕ :=
  let (negative, magnitude) := splitSign text
  (parseDecimal magnitude).bind fun (p, q) => if (negative = true → p = 0) ∧ p ≤ q then some (1000 * p / q) else none

/-- The weight of an entry: that of the first parameter that has one, and else a thousand. -/
def weightOf (thousandths : Str → Option ℕ) (entry : Str) : ℕ :=
  ((entry.splitOn ';').tail.findSome? fun parameter => (qualityText parameter).bind thousandths).getD 1000

/-- The weight that an entry was sent with. -/
def exactWeight (entry : Str) : ℕ := weightOf exactThousandths entry

/-- Of the decimals from zero to one with three places, five are read as one less. -/
theorem thousandthsOf_decimal : ∀ q ∈ [1, 10, 100, 1000], ∀ p ∈ List.range (q + 1),
    thousandthsOf ⟨false, nearestSingle p q⟩ =
      some (if q = 1000 ∧ p ∈ [251, 253, 502, 506, 511] then p - 1 else 1000 * p / q) := by
  decide +kernel

/-! ### Candidates -/

/-- `MAX_ACCEPT_LANGUAGE_LEN`, in bytes. -/
def maxAcceptLanguageLen : ℕ := 512

/-- `MAX_CANDIDATES`. -/
def maxCandidates : ℕ := 16

/-- The range of an entry. -/
def rangeOf (entry : Str) : Str := Str.trim ((entry.splitOn ';').headD [])

/-- The loop of `accept_language_candidates` over the entries: a range with its weight, or none. -/
def readEntry (entry : Str) : Option (Str × ℕ) :=
  let range := rangeOf entry
  if range = [] ∨ range = ['*'] then none
  else
    let quality := weightOf readThousandths entry
    if quality = 0 then none else some (range, quality)

/-- The first bytes of a header. A slice panics if it ends within a character. -/
def sliceHeader (header : Str) : Option Str :=
  let bound := min header.len maxAcceptLanguageLen
  if header.isCharBoundary bound then some (header.sliceTo bound) else none

/-- `accept_language_candidates`, the heaviest first; `none` is a panic. -/
def acceptLanguageCandidates (header : Str) : Option (List (Str × ℕ)) :=
  (sliceHeader header).map fun header =>
    sortByKey (fun candidate => OrderDual.toDual candidate.2)
      (((header.splitOn ',').take maxCandidates).filterMap readEntry)

/-- The candidates, each with the place of the entry that it was read of. -/
def placedCandidates (header : Str) : Option (List ((Str × ℕ) × ℕ)) :=
  (sliceHeader header).map fun header =>
    sortByKey (fun candidate => OrderDual.toDual candidate.1.2)
      (((header.splitOn ',').take maxCandidates).zipIdx.filterMap fun (entry, i) => (readEntry entry).map (·, i))

/-- The places are left out of the candidates. -/
theorem candidates_eq_placed (header : Str) :
    acceptLanguageCandidates header = (placedCandidates header).map fun candidates => candidates.map Prod.fst := by
  have hread : ∀ entries : List Str, entries.filterMap readEntry =
      (entries.zipIdx.filterMap fun (entry, i) => (readEntry entry).map (·, i)).map Prod.fst := by
    intro entries
    conv_lhs => rw [← List.zipIdx_map_fst 0 entries, List.filterMap_map]
    rw [List.map_filterMap]
    refine List.filterMap_congr fun entry _ => ?_
    rw [Option.map_map, Function.comp_apply]
    exact (Option.map_id' (x := readEntry entry.1)).symm
  rw [acceptLanguageCandidates, placedCandidates, Option.map_map]
  refine congrArg (fun f => (sliceHeader header).map f) (funext fun kept => ?_)
  rw [Function.comp_apply, hread, sortByKey_map]
  rfl

/-! ### What is claimed of them -/

/-- The candidates are entries as they were sent, with their weights, and none is refused; the heavier come
    first, and of equal ones the earlier. -/
structure Faithful (header : Str) (candidates : List ((Str × ℕ) × ℕ)) : Prop where
  returned : acceptLanguageCandidates header = some (candidates.map Prod.fst)
  placed : placedCandidates header = some candidates
  sent : ∀ candidate ∈ candidates, ∃ entry, (header.splitOn ',')[candidate.2]? = some entry ∧
    candidate.1 = (rangeOf entry, exactWeight entry) ∧ exactWeight entry ≠ 0
  order : candidates.Pairwise fun a b => b.1.2 < a.1.2 ∨ (b.1.2 = a.1.2 ∧ a.2 < b.2)

/-- An entry with a weight that is read as another, and as no refusal. -/
def Misread (entry : Str) : Prop :=
  (readEntry entry).isSome ∧ weightOf readThousandths entry ≠ exactWeight entry

/-- What is left of an entry is read as the entry was sent, or not at all. -/
def StandsFor (left full : Str) : Prop :=
  ∀ candidate, readEntry left = some candidate → candidate = (rangeOf full, exactWeight full)

/-- The bound falls between two characters, no entry before the one at the bound is misread, and what is left of
    that one stands for it, unless sixteen come before. -/
def WellCut (header : Str) : Prop :=
  ∃ kept lost, header = kept ++ lost ∧ kept.len = min header.len maxAcceptLanguageLen ∧
    (∀ entry ∈ (kept.splitOn ',').dropLast.take maxCandidates, ¬ Misread entry) ∧
    ((kept.splitOn ',').length ≤ maxCandidates → StandsFor ((kept.splitOn ',').getLastD [])
      ((kept.splitOn ',').getLastD [] ++ (lost.splitOn ',').headD []))

/-! ### The bound -/

theorem exists_of_isCharBoundary {s : Str} {k : ℕ} (h : s.isCharBoundary k = true) :
    ∃ a b, s = a ++ b ∧ a.len = k := by
  induction s generalizing k with
  | nil =>
    cases k with
    | zero => exact ⟨[], [], rfl, rfl⟩
    | succ k => cases h
  | cons c s ih =>
    cases k with
    | zero => exact ⟨[], c :: s, rfl, rfl⟩
    | succ k =>
      rw [Str.isCharBoundary, Bool.and_eq_true, decide_eq_true_eq] at h
      obtain ⟨a, b, rfl, hlen⟩ := ih h.2
      refine ⟨c :: a, b, rfl, ?_⟩
      rw [Str.len, hlen]
      omega

/-- What is kept of a header ends where a character does. -/
theorem sliceHeader_eq_some {header kept : Str} : sliceHeader header = some kept ↔
    ∃ lost, header = kept ++ lost ∧ kept.len = min header.len maxAcceptLanguageLen := by
  rw [sliceHeader]
  constructor
  · intro h
    split_ifs at h with hbound
    obtain ⟨a, b, hsplit, hlen⟩ := exists_of_isCharBoundary hbound
    refine ⟨b, ?_⟩
    have hkept : header.sliceTo (min header.len maxAcceptLanguageLen) = a := by
      rw [← hlen]
      conv_lhs => rw [hsplit]
      exact Str.sliceTo_append a b
    rw [hkept] at h
    obtain rfl := Option.some.inj h
    exact ⟨hsplit, hlen⟩
  · rintro ⟨lost, hsplit, hlen⟩
    have hbound : header.isCharBoundary (min header.len maxAcceptLanguageLen) = true := by
      rw [← hlen]
      conv_lhs => rw [hsplit]
      exact (Str.isCharBoundary_append kept lost 0).trans (by cases lost <;> rfl)
    rw [if_pos hbound, ← hlen]
    conv_lhs => rw [hsplit]
    rw [Str.sliceTo_append]

/-- The pieces of a text and of what follows it meet in one piece. -/
theorem splitOn_append (sep : Char) (a b : Str) : (a ++ b).splitOn sep = (a.splitOn sep).dropLast ++
    ((a.splitOn sep).getLastD [] ++ (b.splitOn sep).headD []) :: (b.splitOn sep).tail := by
  induction a with
  | nil =>
    obtain ⟨piece, rest, hsplit⟩ := List.exists_cons_of_ne_nil (List.splitOn_ne_nil sep b)
    simp [hsplit]
  | cons c a ih =>
    obtain ⟨piece, rest, hsplit⟩ := List.exists_cons_of_ne_nil (List.splitOn_ne_nil sep a)
    rw [List.cons_append, List.splitOn_cons_eq_if_modifyHead, List.splitOn_cons_eq_if_modifyHead, ih, hsplit]
    split_ifs with hsep
    · rfl
    · cases rest with
      | nil => rfl
      | cons next rest => rfl

section entries

variable {kept lost : Str} {i : ℕ}

/-- An entry before the bound is one of the header. -/
theorem getElem?_entry_before (h : i + 1 < (kept.splitOn ',').length) :
    ((kept ++ lost).splitOn ',')[i]? = (kept.splitOn ',')[i]? := by
  have hlt : i < (kept.splitOn ',').dropLast.length := by
    rw [List.length_dropLast]
    omega
  rw [splitOn_append, List.getElem?_append_left hlt, List.getElem?_dropLast, if_pos (by omega)]

variable (kept lost) in
/-- The last entry that is kept is the first part of one. -/
theorem getElem?_entry_at (h : i + 1 = (kept.splitOn ',').length) :
    (kept.splitOn ',')[i]? = some ((kept.splitOn ',').getLastD []) ∧
    ((kept ++ lost).splitOn ',')[i]? = some ((kept.splitOn ',').getLastD [] ++ (lost.splitOn ',').headD []) := by
  have hlen : (kept.splitOn ',').dropLast.length = i := by
    rw [List.length_dropLast]
    omega
  refine ⟨?_, ?_⟩
  · rw [List.getLastD_eq_getLast?, List.getLast?_eq_getElem?, ← h, Nat.add_sub_cancel]
    rw [List.getElem?_eq_getElem (by omega)]
    rfl
  · rw [splitOn_append, List.getElem?_append_right (by omega), hlen, Nat.sub_self]
    rfl

end entries

/-! ### The candidates of a header -/

theorem readEntry_eq_some {entry range : Str} {quality : ℕ} (h : readEntry entry = some (range, quality)) :
    range = rangeOf entry ∧ quality = weightOf readThousandths entry ∧ quality ≠ 0 := by
  rw [readEntry] at h
  split_ifs at h with hrange
  dsimp only at h
  split_ifs at h with hzero
  obtain ⟨rfl, rfl⟩ := Prod.mk.inj (Option.some.inj h)
  exact ⟨rfl, rfl, hzero⟩

/-- An entry that is not misread stands for itself. -/
theorem standsFor_self {entry : Str} : StandsFor entry entry ↔ ¬ Misread entry := by
  constructor
  · rintro h ⟨hread, hweight⟩
    obtain ⟨⟨range, quality⟩, hcandidate⟩ := Option.isSome_iff_exists.mp hread
    obtain ⟨-, hquality⟩ := Prod.mk.inj (h _ hcandidate)
    exact hweight ((readEntry_eq_some hcandidate).2.1.symm.trans hquality)
  · rintro h ⟨range, quality⟩ hcandidate
    obtain ⟨rfl, rfl, -⟩ := readEntry_eq_some hcandidate
    by_contra hne
    exact h ⟨by rw [hcandidate]; rfl, fun heq => hne (by rw [heq])⟩

section placed

variable {header kept : Str} {candidates : List ((Str × ℕ) × ℕ)}

/-- The candidates are the entries that are read, of the first sixteen that are kept. -/
theorem mem_placed (hkept : sliceHeader header = some kept) (h : placedCandidates header = some candidates)
    {candidate : (Str × ℕ) × ℕ} : candidate ∈ candidates ↔ ∃ entry, (kept.splitOn ',')[candidate.2]? = some entry ∧
      candidate.2 < maxCandidates ∧ readEntry entry = some candidate.1 := by
  rw [placedCandidates, hkept, Option.map_some, Option.some.injEq] at h
  rw [← h, (perm_sortByKey _ _).mem_iff, List.mem_filterMap]
  constructor
  · rintro ⟨⟨entry, i⟩, hmem, hread⟩
    obtain ⟨read, hcandidate, rfl⟩ := Option.map_eq_some_iff.mp hread
    have hget := List.mk_mem_zipIdx_iff_getElem?.mp hmem
    rw [List.getElem?_take] at hget
    split_ifs at hget with hlt
    exact ⟨entry, hget, hlt, hcandidate⟩
  · rintro ⟨entry, hget, hlt, hread⟩
    refine ⟨(entry, candidate.2), List.mk_mem_zipIdx_iff_getElem?.mpr ?_, Option.map_eq_some_iff.mpr ⟨_, hread, rfl⟩⟩
    rw [List.getElem?_take, if_pos hlt, hget]

/-- The heavier come first, and of equal ones the earlier. -/
theorem order_placed (h : placedCandidates header = some candidates) :
    candidates.Pairwise fun a b => b.1.2 < a.1.2 ∨ (b.1.2 = a.1.2 ∧ a.2 < b.2) := by
  obtain ⟨kept, -, rfl⟩ := Option.map_eq_some_iff.mp h
  have hplaces : (((kept.splitOn ',').take maxCandidates).zipIdx.filterMap fun (entry, i) =>
      (readEntry entry).map (·, i)).Pairwise fun a b => a.2 < b.2 := by
    have hzip : ((kept.splitOn ',').take maxCandidates).zipIdx.Pairwise fun a b => a.2 < b.2 := by
      rw [← List.pairwise_map (f := Prod.snd) (R := (· < ·)), List.zipIdx_map_snd]
      exact List.pairwise_lt_range'
    refine List.pairwise_filterMap.mpr (hzip.imp fun hlt b hb b' hb' => ?_)
    obtain ⟨read, -, rfl⟩ := Option.map_eq_some_iff.mp hb
    obtain ⟨read', -, rfl⟩ := Option.map_eq_some_iff.mp hb'
    exact hlt
  refine (pairwise_sortByKey_stable _ hplaces).imp fun hab => ?_
  exact hab.imp OrderDual.toDual_lt_toDual.mp fun ⟨hkey, hplace⟩ => ⟨(OrderDual.toDual_inj.mp hkey).symm, hplace⟩

end placed

/-- A claim on the candidates is one on the entries that are read. -/
theorem wellCut_of_faithful {header : Str} {candidates : List ((Str × ℕ) × ℕ)} (h : Faithful header candidates) :
    WellCut header := by
  obtain ⟨kept, hkept, -⟩ := Option.map_eq_some_iff.mp h.placed
  obtain ⟨lost, rfl, hlen⟩ := sliceHeader_eq_some.mp hkept
  have hsent : ∀ i left full, (kept.splitOn ',')[i]? = some left → i < maxCandidates →
      ((kept ++ lost).splitOn ',')[i]? = some full → StandsFor left full := by
    intro i left full hleft hi hfull candidate hread
    obtain ⟨entry, hentry, heq, -⟩ := h.sent (candidate, i) ((mem_placed hkept h.placed).mpr ⟨left, hleft, hi, hread⟩)
    obtain rfl := Option.some.inj (hfull.symm.trans hentry)
    exact heq
  refine ⟨kept, lost, rfl, hlen, fun entry hentry => ?_, fun hfew => ?_⟩
  · obtain ⟨i, hget⟩ := List.mem_iff_getElem?.mp hentry
    rw [List.getElem?_take] at hget
    split_ifs at hget with hi
    have hbefore : i + 1 < (kept.splitOn ',').length := by
      have hlt := (List.getElem?_eq_some_iff.mp hget).1
      rw [List.length_dropLast] at hlt
      omega
    rw [List.getElem?_dropLast, if_pos (by omega)] at hget
    exact standsFor_self.mp (hsent i entry entry hget hi ((getElem?_entry_before hbefore).trans hget))
  · have hpos := List.length_pos_of_ne_nil (List.splitOn_ne_nil ',' kept)
    obtain ⟨hleft, hfull⟩ := getElem?_entry_at kept lost (Nat.sub_add_cancel (Nat.succ_le_of_lt hpos))
    exact hsent _ _ _ hleft (by omega) hfull

theorem faithful_of_wellCut {header : Str} (h : WellCut header) : ∃ candidates, Faithful header candidates := by
  obtain ⟨kept, lost, rfl, hlen, hbefore, hlast⟩ := h
  have hkept : sliceHeader (kept ++ lost) = some kept := sliceHeader_eq_some.mpr ⟨lost, rfl, hlen⟩
  obtain ⟨candidates, hplaced⟩ : ∃ candidates, placedCandidates (kept ++ lost) = some candidates :=
    ⟨_, by rw [placedCandidates, hkept]; rfl⟩
  refine ⟨candidates, by rw [candidates_eq_placed, hplaced]; rfl, hplaced, fun candidate hcandidate => ?_,
    order_placed hplaced⟩
  obtain ⟨left, hleft, hi, hread⟩ := (mem_placed hkept hplaced).mp hcandidate
  have hlt := (List.getElem?_eq_some_iff.mp hleft).1
  -- before the entry at the bound an entry is whole
  obtain ⟨full, hfull, hstands⟩ : ∃ full, ((kept ++ lost).splitOn ',')[candidate.2]? = some full ∧
      StandsFor left full := by
    rcases Nat.lt_or_ge (candidate.2 + 1) (kept.splitOn ',').length with hwhole | hend
    · refine ⟨left, (getElem?_entry_before hwhole).trans hleft, standsFor_self.mpr (hbefore left ?_)⟩
      refine List.mem_of_getElem? (i := candidate.2) ?_
      rw [List.getElem?_take, if_pos hi, List.getElem?_dropLast, if_pos (by omega), hleft]
    · obtain ⟨hleft', hfull⟩ := getElem?_entry_at kept lost (i := candidate.2) (by omega)
      obtain rfl := Option.some.inj (hleft'.symm.trans hleft)
      exact ⟨_, hfull, hlast (by omega)⟩
  have heq := hstands candidate.1 hread
  refine ⟨full, hfull, heq, ?_⟩
  have hweight : candidate.1.2 = exactWeight full := congrArg Prod.snd heq
  exact hweight ▸ (readEntry_eq_some hread).2.2

/-- Whatever the header: it is read, and every candidate is an entry as it was sent, exactly if the bound on its
    bytes leaves the entries as they are and no weight is misread. -/
theorem candidates_faithful_iff (header : Str) : (∃ candidates, Faithful header candidates) ↔ WellCut header :=
  ⟨fun ⟨_, h⟩ => wellCut_of_faithful h, faithful_of_wellCut⟩

/-- A header of 516 bytes, the last entry of which refuses French. -/
def refusedFrench : Str := List.replicate 509 'x' ++ ",fr;q=0".toList

/-- The refusal lies behind the bound, and French is a candidate of full weight. -/
theorem french_promoted : (∃ candidates, acceptLanguageCandidates refusedFrench = some candidates ∧
      ("fr".toList, 1000) ∈ candidates) ∧
    ∀ entry ∈ refusedFrench.splitOn ',', rangeOf entry = "fr".toList → exactWeight entry = 0 := by
  have hread : acceptLanguageCandidates refusedFrench =
      some [(List.replicate 509 'x', 1000), ("fr".toList, 1000)] := by decide +kernel
  exact ⟨⟨_, hread, List.mem_cons_of_mem _ List.mem_cons_self⟩, by decide +kernel⟩

end Arcature.I18n

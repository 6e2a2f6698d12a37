import Arcature.Lib.Text

/-! Percent-encoding of bytes, and what reading `+` as a space changes.

    Whatever set of characters an encoder leaves alone, what it writes decodes to what it was given,
    as long as the set is of ASCII characters other than `%` (`percentDecode_encode`).

    Two readers of one text differ when one of them turns `+` into a space before it decodes and the
    other does not. Decoding commutes with that: the second reader's bytes are the first's with some
    `+` replaced by spaces (`percentDecode_plusToSpace`), as many as stood in the text undecoded
    (`count_plus_percentDecode`), and what was valid UTF-8 stays so. -/

namespace Arcature.Lib

/-- `+` as a byte. -/
def plusByte : UInt8 := 0x2b

/-- The value of a hexadecimal digit of either case. -/
def hexValue (b : UInt8) : Option UInt8 :=
  if 0x30 ≤ b ∧ b ≤ 0x39 then some (b - 0x30)
  else if 0x41 ≤ b ∧ b ≤ 0x46 then some (b - 0x37)
  else if 0x61 ≤ b ∧ b ≤ 0x66 then some (b - 0x57)
  else none

/-- `percent_decode`: a `%` without two digits after it stands for itself. -/
def percentDecode : Bytes → Bytes
  | a :: h :: l :: rest =>
    if a = 0x25 then
      match hexValue h, hexValue l with
      | some x, some y => (16 * x + y) :: percentDecode rest
      | _, _ => a :: percentDecode (h :: l :: rest)
    else a :: percentDecode (h :: l :: rest)
  | short => short

/-- Every `+` as a space. -/
def plusToSpace (b : Bytes) : Bytes := b.map fun x => if x = plusByte then 0x20 else x

/-- The unreserved characters of a URL: letters, digits, `-`, `_`, `.`, `~`. -/
def isUnreserved (b : UInt8) : Bool :=
  (0x30 ≤ b && b ≤ 0x39) || (0x41 ≤ b && b ≤ 0x5a) || (0x61 ≤ b && b ≤ 0x7a) || b == 0x2d ||
    b == 0x5f || b == 0x2e || b == 0x7e

/-- A hexadecimal digit, upper case. -/
def hexDigit (n : UInt8) : Char := Char.ofNat (if n < 10 then 0x30 + n.toNat else 0x37 + n.toNat)

/-- `utf8_percent_encode` outside the unreserved set. -/
def percentEncode (b : Bytes) : Str :=
  b.flatMap fun x =>
    if isUnreserved x then [Char.ofNat x.toNat] else ['%', hexDigit (x / 16), hexDigit (x % 16)]

/-! ### Bytes that differ by `+` read as a space -/

/-- The same byte, or `+` read as a space. -/
def SameButPlus (x y : UInt8) : Prop := x = y ∨ (x = plusByte ∧ y = 0x20)

theorem hexValue_swap (x : UInt8) :
    hexValue (if x = plusByte then 0x20 else x) = hexValue x := by
  split_ifs with h
  · subst h
    decide
  · rfl

theorem plus_not_hex {x y : UInt8} (h : hexValue x = some y) : x ≠ plusByte := by
  rintro rfl
  have hnone : hexValue plusByte = none := by decide
  simp [hnone] at h

theorem length_percentDecode_le (b : Bytes) : (percentDecode b).length ≤ b.length := by
  fun_induction percentDecode b with
  | case1 rest h l x y hx hy ih =>
    simp only [List.length_cons]
    omega
  | case2 rest h l hnot ih => simpa using ih
  | case3 a h l rest ha ih => simpa using ih
  | case4 b _ => exact le_rfl

theorem percentDecode_short {b : Bytes} (h : ∀ x y z rest, b ≠ x :: y :: z :: rest) :
    percentDecode b = b := by
  match b, h with
  | [], _ => rfl
  | [_], _ => rfl
  | [_, _], _ => rfl
  | x :: y :: z :: rest, h => exact absurd rfl (h x y z rest)

theorem plusToSpace_short {b : Bytes} (h : ∀ x y z rest, b ≠ x :: y :: z :: rest) :
    ∀ x y z rest, plusToSpace b ≠ x :: y :: z :: rest := by
  match b, h with
  | [], _ => simp [plusToSpace]
  | [_], _ => simp [plusToSpace]
  | [_, _], _ => simp [plusToSpace]
  | x :: y :: z :: rest, h => exact absurd rfl (h x y z rest)

/-- Reading `+` as a space first changes an escape into nothing else and an undecoded `+` into a
    space. -/
theorem percentDecode_plusToSpace_cons (a h l : UInt8) (rest : Bytes) :
    percentDecode (plusToSpace (a :: h :: l :: rest)) =
      if a = 0x25 then
        match hexValue h, hexValue l with
        | some x, some y => (16 * x + y) :: percentDecode (plusToSpace rest)
        | _, _ => a :: percentDecode (plusToSpace (h :: l :: rest))
      else (if a = plusByte then 0x20 else a) :: percentDecode (plusToSpace (h :: l :: rest)) := by
  simp only [plusToSpace, List.map_cons, percentDecode, hexValue_swap]
  by_cases ha : a = 0x25
  · subst ha
    have hne : (0x25 : UInt8) ≠ plusByte := by decide
    simp [hne]
  · have hne : (if a = plusByte then 0x20 else a) ≠ 0x25 := by
      split_ifs
      · decide
      · exact ha
    simp [ha, hne]

theorem sameButPlus_swap (b : Bytes) : List.Forall₂ SameButPlus b (plusToSpace b) := by
  induction b with
  | nil => exact List.Forall₂.nil
  | cons x b ih =>
    refine List.Forall₂.cons ?_ ih
    by_cases hx : x = plusByte
    · exact Or.inr ⟨hx, if_pos hx⟩
    · exact Or.inl (if_neg hx).symm

theorem percentDecode_plusToSpace (b : Bytes) :
    List.Forall₂ SameButPlus (percentDecode b) (percentDecode (plusToSpace b)) := by
  fun_induction percentDecode b with
  | case1 rest h l x y hx hy ih =>
    rw [percentDecode_plusToSpace_cons]
    simp only [if_true, hx, hy]
    exact List.Forall₂.cons (Or.inl rfl) ih
  | case2 rest h l hnot ih =>
    rw [percentDecode_plusToSpace_cons, if_pos rfl]
    split
    · rename_i x y hx hy
      exact absurd hy (hnot x y hx)
    · exact List.Forall₂.cons (Or.inl rfl) ih
  | case3 a h l rest ha ih =>
    rw [percentDecode_plusToSpace_cons, if_neg ha]
    refine List.Forall₂.cons ?_ ih
    by_cases hp : a = plusByte
    · exact Or.inr ⟨hp, if_pos hp⟩
    · exact Or.inl (if_neg hp).symm
  | case4 b hshort =>
    rw [percentDecode_short (plusToSpace_short hshort)]
    exact sameButPlus_swap b

theorem count_plusToSpace (b : Bytes) : (plusToSpace b).count plusByte = 0 := by
  rw [List.count_eq_zero]
  intro h
  obtain ⟨x, _, hx⟩ := List.mem_map.mp h
  split_ifs at hx with hp
  · exact absurd hx (by decide)
  · exact hp hx

/-- The `+` that reading them as spaces loses are those that stood in the text undecoded. -/
theorem count_plus_percentDecode (b : Bytes) :
    (percentDecode b).count plusByte =
      (percentDecode (plusToSpace b)).count plusByte + b.count plusByte := by
  fun_induction percentDecode b with
  | case1 rest h l x y hx hy ih =>
    have hpercent : (0x25 : UInt8) ≠ plusByte := by decide
    rw [percentDecode_plusToSpace_cons]
    simp only [if_true, hx, hy, List.count_cons, beq_iff_eq, plus_not_hex hx, plus_not_hex hy,
      hpercent, if_false]
    omega
  | case2 rest h l hnot ih =>
    have hpercent : (0x25 : UInt8) ≠ plusByte := by decide
    rw [percentDecode_plusToSpace_cons, if_pos rfl]
    split
    · rename_i x y hx hy
      exact absurd hy (hnot x y hx)
    · rw [List.count_cons_of_ne hpercent, List.count_cons_of_ne hpercent,
        List.count_cons_of_ne hpercent, ih]
  | case3 a h l rest ha ih =>
    rw [percentDecode_plusToSpace_cons, if_neg ha]
    by_cases hp : a = plusByte
    · have hspace : (0x20 : UInt8) ≠ plusByte := by decide
      rw [if_pos hp, hp, List.count_cons_self, List.count_cons_self, List.count_cons_of_ne hspace, ih]
      omega
    · rw [if_neg hp, List.count_cons_of_ne hp, List.count_cons_of_ne hp, List.count_cons_of_ne hp, ih]
  | case4 b hshort =>
    rw [percentDecode_short (plusToSpace_short hshort), count_plusToSpace, zero_add]

/-! ### Text that differs by `+` read as a space -/

theorem plusByte_mem_utf8EncodeChar {c : Char} (h : plusByte ∈ String.utf8EncodeChar c) : c = '+' :=
  Str.eq_of_ascii_mem_utf8EncodeChar (by decide) h

theorem sameButPlus_append {xs ys zs : Bytes} (h : List.Forall₂ SameButPlus (xs ++ ys) zs) :
    ∃ us vs, zs = us ++ vs ∧ List.Forall₂ SameButPlus xs us ∧ List.Forall₂ SameButPlus ys vs := by
  induction xs generalizing zs with
  | nil => exact ⟨[], zs, rfl, List.Forall₂.nil, h⟩
  | cons x xs ih =>
    obtain ⟨z, zs', hz, hrest, rfl⟩ := List.forall₂_cons_left_iff.mp h
    obtain ⟨us, vs, rfl, hus, hvs⟩ := ih hrest
    exact ⟨z :: us, vs, rfl, List.Forall₂.cons hz hus, hvs⟩

theorem eq_of_sameButPlus {xs ys : Bytes} (h : List.Forall₂ SameButPlus xs ys)
    (hplus : plusByte ∉ xs) : ys = xs := by
  induction h with
  | nil => rfl
  | cons hxy _ ih =>
    rw [List.mem_cons, not_or] at hplus
    rcases hxy with rfl | ⟨rfl, _⟩
    · rw [ih hplus.2]
    · exact absurd rfl hplus.1

theorem eq_of_sameButPlus_of_no_space {xs ys : Bytes} (h : List.Forall₂ SameButPlus xs ys)
    (hspace : 0x20 ∉ ys) : xs = ys := by
  induction h with
  | nil => rfl
  | cons hxy _ ih =>
    rw [List.mem_cons, not_or] at hspace
    rcases hxy with rfl | ⟨_, rfl⟩
    · rw [ih hspace.2]
    · exact absurd rfl hspace.1

/-- Text stays text when some of its `+` become spaces. -/
theorem exists_bytes_of_sameButPlus {s : Str} {b : Bytes} (h : List.Forall₂ SameButPlus s.bytes b) :
    ∃ t : Str, b = t.bytes := by
  induction s generalizing b with
  | nil => exact ⟨[], List.forall₂_nil_left_iff.mp h⟩
  | cons c s ih =>
    rw [Str.bytes_cons] at h
    obtain ⟨us, vs, rfl, hus, hvs⟩ := sameButPlus_append h
    obtain ⟨t, rfl⟩ := ih hvs
    by_cases hplus : plusByte ∈ String.utf8EncodeChar c
    · obtain rfl := plusByte_mem_utf8EncodeChar hplus
      obtain ⟨u, us', hu, hnil, rfl⟩ := List.forall₂_cons_left_iff.mp hus
      obtain rfl := List.forall₂_nil_left_iff.mp hnil
      rcases hu with rfl | ⟨_, rfl⟩
      · exact ⟨'+' :: t, by rw [Str.bytes_cons]; rfl⟩
      · exact ⟨' ' :: t, by rw [Str.bytes_cons]; rfl⟩
    · exact ⟨c :: t, by rw [Str.bytes_cons, eq_of_sameButPlus hus hplus]⟩

theorem plusByte_mem_bytes {s : Str} : plusByte ∈ s.bytes ↔ '+' ∈ s := by
  constructor
  · intro h
    obtain ⟨c, hc, hb⟩ := List.mem_flatMap.mp h
    exact plusByte_mem_utf8EncodeChar hb ▸ hc
  · intro h
    exact List.mem_flatMap.mpr ⟨'+', h, by decide⟩

/-! ### What is encoded decodes -/

/-- `percent_encode` outside the set of bytes `keep`. -/
def percentEncodeExcept (keep : UInt8 → Bool) (b : Bytes) : Str :=
  b.flatMap fun x =>
    if keep x then [Char.ofNat x.toNat] else ['%', hexDigit (x / 16), hexDigit (x % 16)]

theorem percentEncodeExcept_cons (keep : UInt8 → Bool) (x : UInt8) (b : Bytes) :
    percentEncodeExcept keep (x :: b) =
      (if keep x then [Char.ofNat x.toNat] else ['%', hexDigit (x / 16), hexDigit (x % 16)]) ++
        percentEncodeExcept keep b := by
  rw [percentEncodeExcept, List.flatMap_cons]
  rfl

/-- A digit is written as one byte, which reads as the digit. -/
theorem hexDigit_facts : ∀ n : Fin 16, hexValue (UInt8.ofNat (hexDigit (UInt8.ofNat n)).toNat) =
      some (UInt8.ofNat n) ∧
    String.utf8EncodeChar (hexDigit (UInt8.ofNat n)) =
      [UInt8.ofNat (hexDigit (UInt8.ofNat n)).toNat] := by
  decide +kernel

theorem ascii_facts : ∀ n : Fin 128, String.utf8EncodeChar (Char.ofNat n) = [UInt8.ofNat n] ∧
    (Char.ofNat n).toNat = n := by
  decide +kernel

theorem percentDecode_cons_of_ne {a : UInt8} (ha : a ≠ 0x25) (rest : Bytes) :
    percentDecode (a :: rest) = a :: percentDecode rest := by
  match rest with
  | [] => rfl
  | [_] => rfl
  | h :: l :: rest => rw [percentDecode, if_neg ha]

/-- ASCII without a `%` in front of a text is left as it is. -/
theorem ofBytes?_percentDecode_append {opening : Str} (h : opening.all fun c => c.toNat < 0x80 ∧ c ≠ '%')
    (s : Str) : Str.ofBytes? (percentDecode (opening ++ s).bytes) =
      (Str.ofBytes? (percentDecode s.bytes)).map (opening ++ ·) := by
  induction opening with
  | nil => simp
  | cons c opening ih =>
    rw [List.all_cons, Bool.and_eq_true, decide_eq_true_iff] at h
    obtain ⟨⟨hascii, hc⟩, hopening⟩ := h
    have hpercent : UInt8.ofNat c.toNat ≠ 0x25 := by
      intro heq
      have hnat := congrArg UInt8.toNat heq
      rw [UInt8.toNat_ofNat_of_lt' (hascii.trans (by decide))] at hnat
      exact hc (Char.toNat_inj.mp hnat)
    rw [List.cons_append, Str.bytes_cons, Str.utf8EncodeChar_ascii hascii, List.singleton_append,
      percentDecode_cons_of_ne hpercent, Str.ofBytes?_cons hascii, ih hopening, Option.map_map]
    rfl

/-- A text without a `%` is left as it is. -/
theorem percentDecode_bytes {s : Str} (h : '%' ∉ s) : percentDecode s.bytes = s.bytes := by
  have hnone : ∀ x ∈ s.bytes, x ≠ 0x25 := by
    rintro x hx rfl
    obtain ⟨c, hc, hmem⟩ := List.mem_flatMap.mp hx
    exact h (@Str.eq_of_ascii_mem_utf8EncodeChar '%' c (by decide) hmem ▸ hc)
  generalize s.bytes = b at hnone
  induction b with
  | nil => rfl
  | cons x b ih =>
    rw [List.forall_mem_cons] at hnone
    rw [percentDecode_cons_of_ne hnone.1, ih hnone.2]

/-- An escape is the byte it names. -/
theorem percentDecode_escape (x : UInt8) (rest : Bytes) :
    percentDecode (Str.bytes ['%', hexDigit (x / 16), hexDigit (x % 16)] ++ rest) =
      x :: percentDecode rest := by
  have hx := x.toNat_lt
  have hhigh : x / 16 = UInt8.ofNat (x / 16).toNat := UInt8.ofNat_toNat.symm
  have hlow : x % 16 = UInt8.ofNat (x % 16).toNat := UInt8.ofNat_toNat.symm
  obtain ⟨hvalue, hbytes⟩ := hexDigit_facts ⟨(x / 16).toNat, by simp; omega⟩
  obtain ⟨hvalue', hbytes'⟩ := hexDigit_facts ⟨(x % 16).toNat, by simp; omega⟩
  simp only [← hhigh] at hvalue hbytes
  simp only [← hlow] at hvalue' hbytes'
  have hpercent : String.utf8EncodeChar '%' = [0x25] := by decide
  simp only [Str.bytes_cons, Str.bytes_nil, hpercent, hbytes, hbytes', List.cons_append,
    List.nil_append, percentDecode, if_true, hvalue, hvalue']
  congr 1
  apply UInt8.toNat_inj.mp
  simp
  omega

section Encode

variable {keep : UInt8 → Bool} (hkeep : ∀ x, keep x = true → x.toNat < 0x80 ∧ x ≠ 0x25)

include hkeep

theorem percentDecode_encode (b : Bytes) : percentDecode (percentEncodeExcept keep b).bytes = b := by
  induction b with
  | nil => rfl
  | cons x b ih =>
    rw [percentEncodeExcept_cons, Str.bytes_append]
    split_ifs with hx
    · obtain ⟨hascii, hne⟩ := hkeep x hx
      have hbyte := (ascii_facts ⟨x.toNat, hascii⟩).1
      simp only [UInt8.ofNat_toNat] at hbyte
      rw [Str.bytes_cons, Str.bytes_nil, hbyte, List.append_nil, List.singleton_append,
        percentDecode_cons_of_ne hne, ih]
    · rw [percentDecode_escape, ih]

/-- What an encoder writes for bytes it does not keep is escaped. -/
theorem notMem_percentEncodeExcept {c : Char} (hc : keep (UInt8.ofNat c.toNat) = false)
    (hescape : c ≠ '%' ∧ ∀ n : Fin 16, c ≠ hexDigit (UInt8.ofNat n)) (b : Bytes) :
    c ∉ percentEncodeExcept keep b := by
  intro hmem
  obtain ⟨x, -, hx⟩ := List.mem_flatMap.mp hmem
  have hdigit : ∀ y : UInt8, y.toNat < 16 → c ≠ hexDigit y := by
    intro y hy
    simpa using hescape.2 ⟨y.toNat, hy⟩
  split_ifs at hx with hk
  · obtain ⟨hascii, -⟩ := hkeep x hk
    obtain rfl := List.mem_singleton.mp hx
    rw [(ascii_facts ⟨x.toNat, hascii⟩).2, UInt8.ofNat_toNat] at hc
    exact absurd hk (by simp [hc])
  · simp only [List.mem_cons, List.not_mem_nil, or_false] at hx
    have := x.toNat_lt
    rcases hx with rfl | rfl | rfl
    · exact hescape.1 rfl
    · exact hdigit (x / 16) (by simp; omega) rfl
    · exact hdigit (x % 16) (by simp; omega) rfl

/-- The characters an encoder leaves alone. -/
def Kept (keep : UInt8 → Bool) (c : Char) : Prop := c.toNat < 0x80 ∧ keep (UInt8.ofNat c.toNat) = true

instance (keep : UInt8 → Bool) (c : Char) : Decidable (Kept keep c) := inferInstanceAs (Decidable (_ ∧ _))

omit hkeep in
theorem length_percentEncodeExcept_ge (b : Bytes) : b.length ≤ (percentEncodeExcept keep b).length := by
  induction b with
  | nil => exact Nat.le_refl 0
  | cons x b ih =>
    rw [percentEncodeExcept_cons, List.length_append, List.length_cons]
    split_ifs <;> simp <;> omega

omit hkeep in
theorem percentEncodeExcept_append (a b : Bytes) :
    percentEncodeExcept keep (a ++ b) = percentEncodeExcept keep a ++ percentEncodeExcept keep b :=
  List.flatMap_append

omit hkeep in
theorem percentEncodeExcept_kept {c : Char} (hc : Kept keep c) :
    percentEncodeExcept keep (String.utf8EncodeChar c) = [c] := by
  obtain ⟨hascii, hk⟩ := hc
  have hbyte := (ascii_facts ⟨c.toNat, hascii⟩).1
  simp only [Char.ofNat_toNat] at hbyte
  have hnat : (UInt8.ofNat c.toNat).toNat = c.toNat := by simp; omega
  rw [hbyte, percentEncodeExcept_cons, if_pos hk, hnat, Char.ofNat_toNat]
  rfl

/-- A character that is written as one is left alone. -/
theorem kept_of_length {c : Char}
    (h : (percentEncodeExcept keep (String.utf8EncodeChar c)).length = 1) : Kept keep c := by
  have hsize := @length_percentEncodeExcept_ge keep (String.utf8EncodeChar c)
  have hpos := c.utf8Size_pos
  rw [h, String.length_utf8EncodeChar] at hsize
  obtain ⟨x, hx⟩ : ∃ x, String.utf8EncodeChar c = [x] :=
    List.length_eq_one_iff.mp (by rw [String.length_utf8EncodeChar]; omega)
  have hk : keep x = true := by
    by_contra hnot
    rw [hx, percentEncodeExcept_cons, if_neg hnot] at h
    simp [percentEncodeExcept] at h
  obtain ⟨hascii, -⟩ := hkeep x hk
  -- the byte is the character's own
  have hbyte := (ascii_facts ⟨x.toNat, hascii⟩).1
  have hchar : [c] = [Char.ofNat x.toNat] := by
    apply Str.bytes_injective
    rw [Str.bytes_cons, Str.bytes_cons, hx, hbyte, UInt8.ofNat_toNat]
  obtain rfl := List.singleton_inj.mp hchar
  have hnat : (Char.ofNat x.toNat).toNat = x.toNat := (ascii_facts ⟨x.toNat, hascii⟩).2
  refine ⟨by omega, ?_⟩
  rw [hnat, UInt8.ofNat_toNat]
  exact hk

omit hkeep in
theorem length_le_percentEncodeExcept (s : Str) : s.length ≤ (percentEncodeExcept keep s.bytes).length :=
  calc s.length ≤ s.len := Str.length_le_len s
    _ = s.bytes.length := (Str.length_bytes s).symm
    _ ≤ (percentEncodeExcept keep s.bytes).length := length_percentEncodeExcept_ge _

omit hkeep in
theorem percentEncodeExcept_of_kept {s : Str} (h : ∀ c ∈ s, Kept keep c) :
    percentEncodeExcept keep s.bytes = s := by
  induction s with
  | nil => rfl
  | cons c s ih =>
    rw [Str.bytes_cons, percentEncodeExcept_append, percentEncodeExcept_kept (h c List.mem_cons_self),
      List.singleton_append, ih fun d hd => h d (List.mem_cons_of_mem _ hd)]

/-- Text is written as long as it is only if all of it is left alone. -/
theorem kept_of_length_eq {s : Str} (h : (percentEncodeExcept keep s.bytes).length = s.length) :
    ∀ c ∈ s, Kept keep c := by
  induction s with
  | nil => simp
  | cons c s ih =>
    intro d hd
    have hhead := @length_percentEncodeExcept_ge keep (String.utf8EncodeChar c)
    have htail := @length_le_percentEncodeExcept keep s
    have hpos := c.utf8Size_pos
    rw [String.length_utf8EncodeChar] at hhead
    rw [Str.bytes_cons, percentEncodeExcept_append, List.length_append, List.length_cons] at h
    rcases List.mem_cons.mp hd with rfl | hd
    · exact kept_of_length hkeep (by omega)
    · exact ih (by omega) d hd

end Encode

theorem isUnreserved_ascii (x : UInt8) (h : isUnreserved x = true) : x.toNat < 0x80 ∧ x ≠ 0x25 := by
  have hall : ∀ n : Fin 256, isUnreserved (UInt8.ofNat n) = true →
      n.val < 0x80 ∧ UInt8.ofNat n ≠ 0x25 := by decide +kernel
  simpa using hall ⟨x.toNat, x.toNat_lt⟩ (by simpa using h)

end Arcature.Lib

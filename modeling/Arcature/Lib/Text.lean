import Mathlib.Tactic

/-! Text as the list of its Unicode scalar values, with the operations of a UTF-8 string type:
    byte length, character boundaries, slices, the byte view and its partial inverse. -/

namespace Arcature.Lib

/-- A statement about the members of a list is decided along the list, not over the whole type. -/
instance (priority := high) decidableForallMem {α : Type} (p : α → Prop) [DecidablePred p] (l : List α) :
    Decidable (∀ a ∈ l, p a) := List.decidableBAll p l

/-- A string, as the list of its characters. -/
abbrev Str := List Char

instance : LawfulBEq Str := inferInstance

/-- A byte string. -/
abbrev Bytes := List UInt8

/-- A byte array of fixed length. -/
abbrev ByteArr (n : ℕ) := { b : Bytes // b.length = n }

/-- The array of one repeated byte. -/
def ByteArr.fill (n : ℕ) (b : UInt8) : ByteArr n := ⟨List.replicate n b, List.length_replicate⟩

namespace Str

/-- The UTF-8 bytes of a string. -/
def bytes (s : Str) : Bytes := s.flatMap String.utf8EncodeChar

/-- The length of a string in bytes. -/
def len : Str → ℕ
  | [] => 0
  | c :: s => c.utf8Size + len s

@[simp] theorem bytes_nil : bytes [] = [] := rfl

@[simp] theorem bytes_cons (c : Char) (s : Str) :
    bytes (c :: s) = String.utf8EncodeChar c ++ bytes s := by
  simp [bytes]

@[simp] theorem bytes_append (s t : Str) : bytes (s ++ t) = bytes s ++ bytes t := by
  simp [bytes]

@[simp] theorem length_bytes : ∀ s : Str, (bytes s).length = len s
  | [] => rfl
  | c :: s => by rw [bytes_cons, List.length_append, String.length_utf8EncodeChar, length_bytes s, len]

/-- UTF-8 names the text. -/
theorem bytes_injective : Function.Injective bytes := by
  intro s t h
  have hbytes : s.utf8Encode = t.utf8Encode := congrArg List.toByteArray h
  have hdecode := congrArg ByteArray.utf8Decode? hbytes
  rw [List.utf8Decode?_utf8Encode, List.utf8Decode?_utf8Encode] at hdecode
  exact List.toArray_inj (Option.some.inj hdecode)

/-- `from_utf8`: the text of a byte string, if it is valid UTF-8. -/
def ofBytes? (b : Bytes) : Option Str := b.toByteArray.utf8Decode?.map Array.toList

@[simp] theorem ofBytes?_bytes (s : Str) : ofBytes? s.bytes = some s := by
  have hdecode : s.bytes.toByteArray.utf8Decode? = some s.toArray := List.utf8Decode?_utf8Encode
  rw [ofBytes?, hdecode]
  rfl

/-- Only the bytes of a text are read as it. -/
theorem ofBytes?_eq_some {b : Bytes} {s : Str} : ofBytes? b = some s ↔ b = s.bytes := by
  constructor
  · intro h
    obtain ⟨cs, hcs, rfl⟩ := Option.map_eq_some_iff.mp h
    have hencode := ByteArray.utf8Encode_get_utf8Decode? (b := b.toByteArray) (h := by rw [hcs]; rfl)
    simp only [hcs, Option.get_some] at hencode
    have := congrArg (fun a => a.data.toList) hencode
    simpa [bytes, List.utf8Encode] using this.symm
  · rintro rfl
    exact ofBytes?_bytes s

/-- A byte of ASCII is the whole of a character. -/
theorem eq_of_ascii_mem_utf8EncodeChar {c d : Char} (hc : c.toNat < 0x80)
    (h : UInt8.ofNat c.toNat ∈ String.utf8EncodeChar d) : d = c := by
  have hnat : c.toNat = c.val.toNat := rfl
  have hnat' : d.toNat = d.val.toNat := rfl
  have hval : d.val.toNat = c.val.toNat := by
    unfold String.utf8EncodeChar at h
    simp only at h
    split_ifs at h with h1 h2 h3
    all_goals
      simp only [List.mem_cons, List.not_mem_nil, or_false, ← UInt8.toNat_inj,
        UInt8.toNat_ofNat'] at h
      norm_num at h
      omega
  exact Char.ext (UInt32.toNat_inj.mp hval)

theorem utf8EncodeChar_ascii {c : Char} (hc : c.toNat < 0x80) : String.utf8EncodeChar c = [UInt8.ofNat c.toNat] := by
  have hval : c.val.toNat ≤ 0x7f := Nat.le_of_lt_succ hc
  simp only [String.utf8EncodeChar, hval, if_true]
  rfl

/-- ASCII in front of bytes is read by itself. -/
theorem ofBytes?_cons {c : Char} (hc : c.toNat < 0x80) (b : Bytes) :
    ofBytes? (UInt8.ofNat c.toNat :: b) = (ofBytes? b).map (c :: ·) := by
  ext s
  rw [ofBytes?_eq_some, Option.map_eq_some_iff]
  constructor
  · intro h
    cases s with
    | nil => cases h
    | cons d t =>
      have hmem : UInt8.ofNat c.toNat ∈ String.utf8EncodeChar d := by
        have hhead := congrArg List.head? h
        rw [bytes_cons, List.head?_append_of_ne_nil _ String.utf8EncodeChar_ne_nil] at hhead
        exact List.mem_of_mem_head? hhead.symm
      obtain rfl := eq_of_ascii_mem_utf8EncodeChar hc hmem
      rw [bytes_cons, utf8EncodeChar_ascii hc, List.singleton_append, List.cons.injEq] at h
      exact ⟨t, ofBytes?_eq_some.mpr h.2, rfl⟩
  · rintro ⟨t, ht, rfl⟩
    rw [ofBytes?_eq_some.mp ht, bytes_cons, utf8EncodeChar_ascii hc, List.singleton_append]

/-- The Unicode `White_Space` property. -/
def isWhiteSpace (c : Char) : Bool :=
  let n := c.toNat
  (9 ≤ n && n ≤ 13) || n == 0x20 || n == 0x85 || n == 0xa0 || n == 0x1680 ||
    (0x2000 ≤ n && n ≤ 0x200a) || n == 0x2028 || n == 0x2029 || n == 0x202f || n == 0x205f ||
    n == 0x3000

/-- `trim`: without the white space at either end. -/
def trim (s : Str) : Str :=
  ((s.dropWhile isWhiteSpace).reverse.dropWhile isWhiteSpace).reverse

/-! ### Slices at character boundaries -/

/-- Whether byte offset `k` falls between two characters. -/
def isCharBoundary : Str → ℕ → Bool
  | _, 0 => true
  | [], _ + 1 => false
  | c :: s, k + 1 => c.utf8Size ≤ k + 1 && isCharBoundary s (k + 1 - c.utf8Size)

/-- The characters of the first `k` bytes, for a `k` on a boundary. -/
def sliceTo : Str → ℕ → Str
  | _, 0 => []
  | [], _ + 1 => []
  | c :: s, k + 1 => if c.utf8Size ≤ k + 1 then c :: sliceTo s (k + 1 - c.utf8Size) else []

/-! ### Lengths -/

@[simp] theorem len_append (s t : Str) : (s ++ t).len = s.len + t.len := by
  rw [← length_bytes, bytes_append, List.length_append, length_bytes, length_bytes]

theorem length_le_len : ∀ s : Str, s.length ≤ s.len
  | [] => le_rfl
  | c :: s => by
    have hpos := c.utf8Size_pos
    have hrest := length_le_len s
    rw [List.length_cons, len]
    omega

theorem len_le_four_mul_length : ∀ s : Str, s.len ≤ 4 * s.length
  | [] => le_rfl
  | c :: s => by
    have hsize := c.utf8Size_le_four
    have hrest := len_le_four_mul_length s
    rw [List.length_cons, len]
    omega

theorem len_le_of_sublist {s t : Str} (h : s.Sublist t) : s.len ≤ t.len := by
  rw [← length_bytes, ← length_bytes]
  exact (h.flatMap fun c => String.utf8EncodeChar c).length_le

/-! ### Boundaries in a longer text -/

theorem isCharBoundary_append (s t : Str) (k : ℕ) :
    isCharBoundary (s ++ t) (len s + k) = isCharBoundary t k := by
  induction s with
  | nil => simp [len]
  | cons c s ih =>
    obtain ⟨m, hm⟩ := Nat.exists_eq_succ_of_ne_zero c.utf8Size_pos.ne'
    have hsplit : len (c :: s) + k = (m + (len s + k)) + 1 := by
      rw [len]
      omega
    have hrest : m + (len s + k) + 1 - c.utf8Size = len s + k := by omega
    have hle : c.utf8Size ≤ m + (len s + k) + 1 := by omega
    rw [hsplit, List.cons_append, isCharBoundary, hrest, ih, decide_eq_true hle, Bool.true_and]

theorem sliceTo_append (s t : Str) : sliceTo (s ++ t) (len s) = s := by
  induction s with
  | nil => cases t <;> rfl
  | cons c s ih =>
    obtain ⟨m, hm⟩ := Nat.exists_eq_succ_of_ne_zero c.utf8Size_pos.ne'
    have hsplit : len (c :: s) = (m + len s) + 1 := by
      rw [len]
      omega
    have hrest : m + len s + 1 - c.utf8Size = len s := by omega
    have hle : c.utf8Size ≤ m + len s + 1 := by omega
    rw [hsplit, List.cons_append, sliceTo, if_pos hle, hrest, ih]

/-- A text that is too long has a first character that does not fit. -/
theorem exists_overflow {s : Str} {k : ℕ} (h : k < len s) :
    ∃ fit c rest, s = fit ++ c :: rest ∧ len fit ≤ k ∧ k < len fit + c.utf8Size := by
  induction s generalizing k with
  | nil => simp [len] at h
  | cons c s ih =>
    rw [len] at h
    by_cases hc : k < c.utf8Size
    · exact ⟨[], c, s, rfl, Nat.zero_le k, by simpa [len] using hc⟩
    · obtain ⟨fit, d, rest, rfl, hfit, hover⟩ := ih (k := k - c.utf8Size) (by omega)
      have hlen : len (c :: fit) = c.utf8Size + len fit := rfl
      exact ⟨c :: fit, d, rest, rfl, by omega, by omega⟩

/-- A walk back from a bound to a boundary stops where the first character begins that does not fit. -/
theorem walkBack_append {walk : ℕ → ℕ} {fit rest : Str} {c : Char} (hzero : walk 0 = 0)
    (hstep : ∀ k, walk (k + 1) = if (fit ++ c :: rest).isCharBoundary (k + 1) then k + 1 else walk k) {k : ℕ}
    (hfit : fit.len ≤ k) (hover : k < fit.len + c.utf8Size) : walk k = fit.len := by
  obtain ⟨j, rfl⟩ := Nat.exists_eq_add_of_le hfit
  induction j with
  | zero =>
    have hboundary := isCharBoundary_append fit (c :: rest) 0
    rw [Nat.add_zero] at hboundary ⊢
    cases hlen : fit.len with
    | zero => exact hzero
    | succ m =>
      rw [hlen] at hboundary
      rw [hstep, hboundary]
      rfl
  | succ j ih =>
    -- behind the first byte of `c` and before its last there is no boundary
    have hboundary : isCharBoundary (fit ++ c :: rest) (fit.len + (j + 1)) = false := by
      have hinside : ¬ c.utf8Size ≤ j + 1 := by omega
      rw [isCharBoundary_append, isCharBoundary, decide_eq_false hinside, Bool.false_and]
    rw [← Nat.add_assoc] at hboundary ⊢
    rw [hstep, hboundary]
    exact ih (Nat.le_add_right _ _) (by omega)
/-! ### Splitting -/

/-- The text after an opening, if the string starts with it. -/
def stripPrefix (opening s : Str) : Option Str := s.dropPrefix? opening

/-- The text before and after the first occurrence of a character. -/
def splitOnce (sep : Char) : Str → Option (Str × Str)
  | [] => none
  | c :: s => if c = sep then some ([], s) else (splitOnce sep s).map fun (a, b) => (c :: a, b)

@[simp] theorem stripPrefix_append (opening s : Str) :
    stripPrefix opening (opening ++ s) = some s :=
  List.dropPrefix?_append_of_beq s (by simp)

theorem stripPrefix_eq_some {opening s rest : Str} :
    stripPrefix opening s = some rest ↔ s = opening ++ rest := by
  rw [stripPrefix, List.dropPrefix?_eq_some_iff]
  simp

/-- The first occurrence is where the text before it has none. -/
theorem splitOnce_eq_some {sep : Char} : ∀ {s a b : Str},
    splitOnce sep s = some (a, b) ↔ s = a ++ sep :: b ∧ sep ∉ a
  | [], a, b => by simp [splitOnce]
  | c :: s, a, b => by
    by_cases hc : c = sep
    · subst hc
      cases a with
      | nil => simp [splitOnce]
      | cons d a => simp +contextual [splitOnce]
    · cases a with
      | nil => simp [splitOnce, hc, Option.map_eq_some_iff]
      | cons d a =>
        simp only [splitOnce, if_neg hc, Option.map_eq_some_iff, Prod.exists, Prod.mk.injEq,
          List.cons.injEq, List.cons_append, List.mem_cons, not_or]
        constructor
        · rintro ⟨a', b', h, ⟨rfl, rfl⟩, rfl⟩
          obtain ⟨rfl, hn⟩ := splitOnce_eq_some.mp h
          exact ⟨⟨rfl, rfl⟩, Ne.symm hc, hn⟩
        · rintro ⟨⟨rfl, rfl⟩, _, hn⟩
          exact ⟨a, b, splitOnce_eq_some.mpr ⟨rfl, hn⟩, ⟨rfl, rfl⟩, rfl⟩

theorem splitOnce_eq_none {sep : Char} {s : Str} : splitOnce sep s = none ↔ sep ∉ s := by
  induction s with
  | nil => simp [splitOnce]
  | cons c s ih =>
    by_cases hc : c = sep
    · simp [splitOnce, hc]
    · simp [splitOnce, hc, ih, Ne.symm hc]

theorem splitOnce_append {sep : Char} {a b : Str} (h : sep ∉ a) :
    splitOnce sep (a ++ sep :: b) = some (a, b) :=
  splitOnce_eq_some.mpr ⟨rfl, h⟩

/-- The text up to the first occurrence of a character is known, and what follows it. -/
theorem append_sep_inj {sep : Char} {a b s t : Str} (ha : sep ∉ a) (hb : sep ∉ b)
    (h : a ++ sep :: s = b ++ sep :: t) : a = b ∧ s = t := by
  have hsplit := congrArg (splitOnce sep) h
  rw [splitOnce_append ha, splitOnce_append hb, Option.some_inj, Prod.mk.injEq] at hsplit
  exact hsplit

/-- Of texts that start with pieces of one length, the pieces decide the order if they differ. -/
theorem append_lt_append {a b : Str} (s t : Str) (hlen : a.length = b.length) (h : a < b) :
    a ++ s < b ++ t := by
  induction a generalizing b with
  | nil =>
    rw [List.eq_nil_of_length_eq_zero hlen.symm] at h
    exact absurd h (List.lt_irrefl [])
  | cons c a ih =>
    cases b with
    | nil => cases hlen
    | cons d b =>
      rw [List.cons_append, List.cons_append]
      rw [List.cons_lt_cons_iff] at h ⊢
      rcases h with h | ⟨rfl, h⟩
      · exact Or.inl h
      · exact Or.inr ⟨rfl, ih (Nat.succ.inj hlen) h⟩

/-- The pieces of a split hold every character of the text but the separators. -/
theorem mem_splitOn {α : Type} [BEq α] [LawfulBEq α] {sep c : α} (hc : c ≠ sep) (s : List α) :
    (∃ p ∈ s.splitOn sep, c ∈ p) ↔ c ∈ s := by
  induction s with
  | nil => simp
  | cons d s ih =>
    rw [List.splitOn_cons_eq_if_modifyHead]
    split_ifs with hd
    · have hne : c ≠ d := fun h => hc (h.trans (beq_iff_eq.mp hd))
      simp [ih, hne]
    · obtain ⟨p, ps, hps⟩ := List.exists_cons_of_ne_nil (List.splitOn_ne_nil sep s)
      rw [hps] at ih ⊢
      simp only [List.modifyHead_cons, List.mem_cons, exists_eq_or_imp] at ih ⊢
      rw [or_assoc, ih]

theorem intercalate_append {α : Type} {sep : α} {l m : List (List α)} (hl : l ≠ []) (hm : m ≠ []) :
    [sep].intercalate (l ++ m) = [sep].intercalate l ++ sep :: [sep].intercalate m := by
  induction l with
  | nil => exact absurd rfl hl
  | cons p l ih =>
    rw [List.cons_append, List.intercalate_cons_of_ne_nil (by simp [hm])]
    cases l with
    | nil => simp
    | cons q l =>
      rw [ih (by simp), List.intercalate_cons_cons]
      simp

theorem mem_intercalate {sep c : Char} {l : List Str} (h : c ∈ [sep].intercalate l) :
    c = sep ∨ ∃ p ∈ l, c ∈ p := by
  induction l with
  | nil => simp at h
  | cons p l ih =>
    cases l with
    | nil => exact Or.inr ⟨p, by simp, by simpa using h⟩
    | cons q l =>
      rw [List.intercalate_cons_cons, List.mem_append, List.mem_append, List.mem_singleton] at h
      rcases h with (h | h) | h
      · exact Or.inr ⟨p, by simp, h⟩
      · exact Or.inl h
      · obtain h | ⟨r, hr, hc⟩ := ih h
        · exact Or.inl h
        · exact Or.inr ⟨r, List.mem_cons_of_mem _ hr, hc⟩

/-- A piece of a longer text is one of the text, to which a character in front may have been added. -/
theorem exists_of_mem_splitOn_cons {α : Type} [BEq α] {sep d : α} {s p : List α} (hd : ¬ (d == sep) = true)
    (h : p ∈ (d :: s).splitOn sep) : ∃ q ∈ s.splitOn sep, p = d :: q ∨ p = q := by
  obtain ⟨q, ps, hps⟩ := List.exists_cons_of_ne_nil (List.splitOn_ne_nil sep s)
  rw [List.splitOn_cons_eq_if_modifyHead, if_neg hd, hps, List.modifyHead_cons] at h
  rw [hps]
  rcases List.mem_cons.mp h with rfl | h
  · exact ⟨q, List.mem_cons_self, .inl rfl⟩
  · exact ⟨p, List.mem_cons_of_mem q h, .inr rfl⟩

theorem sublist_of_mem_splitOn {α : Type} [BEq α] {sep : α} {s p : List α} (h : p ∈ s.splitOn sep) :
    p.Sublist s := by
  induction s generalizing p with
  | nil => simp_all
  | cons d s ih =>
    by_cases hd : (d == sep) = true
    · rw [List.splitOn_cons_eq_if_modifyHead, if_pos hd] at h
      rcases List.mem_cons.mp h with rfl | h
      · exact List.nil_sublist _
      · exact (ih h).cons d
    · obtain ⟨q, hq, rfl | rfl⟩ := exists_of_mem_splitOn_cons hd h
      · exact (ih hq).cons_cons d
      · exact (ih hq).cons d

theorem sep_notMem_splitOn {sep : Char} {s p : Str} (h : p ∈ s.splitOn sep) : sep ∉ p := by
  induction s generalizing p with
  | nil => simp_all
  | cons d s ih =>
    by_cases hd : (d == sep) = true
    · rw [List.splitOn_cons_eq_if_modifyHead, if_pos hd] at h
      rcases List.mem_cons.mp h with rfl | h
      · simp
      · exact ih h
    · obtain ⟨q, hq, rfl | rfl⟩ := exists_of_mem_splitOn_cons hd h
      · have hne : sep ≠ d := fun heq => hd (beq_iff_eq.mpr heq.symm)
        simp [hne, ih hq]
      · exact ih hq

/-- A map that keeps the separator apart can be made before the split or after it. -/
theorem splitOn_map {α β : Type} [BEq α] [BEq β] {f : α → β} {sep : α} {sep' : β} {s : List α}
    (h : ∀ x ∈ s, (f x == sep') = (x == sep)) :
    (s.map f).splitOn sep' = (s.splitOn sep).map (List.map f) := by
  induction s with
  | nil => simp
  | cons d s ih =>
    rw [List.map_cons, List.splitOn_cons_eq_if_modifyHead, List.splitOn_cons_eq_if_modifyHead,
      ih fun x hx => h x (List.mem_cons_of_mem _ hx), h d List.mem_cons_self]
    split_ifs with hd
    · rfl
    · obtain ⟨q, ps, hps⟩ := List.exists_cons_of_ne_nil (List.splitOn_ne_nil sep s)
      simp [hps]

theorem splitOn_intercalate_flatMap {sep : Char} {l : List Str} (hl : l ≠ []) :
    ([sep].intercalate l).splitOn sep = l.flatMap fun p => p.splitOn sep := by
  induction l with
  | nil => exact absurd rfl hl
  | cons p l ih =>
    cases l with
    | nil => simp
    | cons q l =>
      rw [List.intercalate_cons_cons, List.append_assoc, List.singleton_append,
        List.splitOn_append_cons_self, ih (by simp)]
      rfl

theorem length_intercalate (sep : Char) (l : List Str) :
    ([sep].intercalate l).length = (l.map List.length).sum + (l.length - 1) := by
  induction l with
  | nil => rfl
  | cons p l ih =>
    cases l with
    | nil => simp
    | cons q l =>
      rw [List.intercalate_cons_cons, List.length_append, List.length_append, ih]
      simp only [List.map_cons, List.sum_cons, List.length_cons, List.length_nil]
      omega

/-- If no piece is longer than its counterpart and the joined texts are as long, all are as long. -/
theorem length_eq_of_intercalate_length {α : Type} (sep : Char) {l : List α} {f g : α → Str}
    (hle : ∀ a ∈ l, (f a).length ≤ (g a).length)
    (h : ([sep].intercalate (l.map f)).length = ([sep].intercalate (l.map g)).length) :
    ∀ a ∈ l, (f a).length = (g a).length := by
  rw [length_intercalate, length_intercalate, List.length_map, List.length_map, List.map_map,
    List.map_map, Nat.add_right_cancel_iff] at h
  induction l with
  | nil => simp
  | cons a l ih =>
    have hrest : ∀ a ∈ l, (f a).length ≤ (g a).length := fun a ha => hle a (List.mem_cons_of_mem _ ha)
    have hsum : (l.map (List.length ∘ f)).sum ≤ (l.map (List.length ∘ g)).sum :=
      List.sum_le_sum hrest
    have hhead := hle a List.mem_cons_self
    simp only [List.map_cons, List.sum_cons, Function.comp_apply] at h
    intro b hb
    rcases List.mem_cons.mp hb with rfl | hb
    · omega
    · exact ih hrest (by omega) b hb

theorem bytes_intercalate {sep : Char} {b : UInt8} (hsep : String.utf8EncodeChar sep = [b]) (l : List Str) :
    bytes ([sep].intercalate l) = [b].intercalate (l.map bytes) := by
  induction l with
  | nil => rfl
  | cons p l ih =>
    cases l with
    | nil => simp
    | cons q l =>
      rw [List.intercalate_cons_cons, bytes_append, bytes_append, ih]
      simp [hsep]

theorem length_splitOn_le (sep : Char) (s : Str) : (s.splitOn sep).length ≤ s.length + 1 := by
  induction s with
  | nil => simp
  | cons d s ih =>
    rw [List.splitOn_cons_eq_if_modifyHead]
    split_ifs with hd
    · simpa using ih
    · rw [List.length_modifyHead, List.length_cons]
      omega

end Str

end Arcature.Lib

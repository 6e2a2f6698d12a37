import Arcature.Crypt.Base64Url
import Arcature.Lib.Traverse

/-! base64url (`crypt/base64url.rs`) with the word operations of the source, every one of which could
    stop the program, and the one spelling each byte string has.

        bytes ── encode ──▶ canonical text      symbols of the alphabet, no length 4k + 1,
              ◀── decode ──                     the bits no byte uses are zero -/

namespace Arcature.Crypt.Base64Url
open Arcature.Lib

/-! ### The operations that can panic -/

/-- Why a build that checks its arithmetic stops. -/
inductive Panic | subtract | shift | index
  deriving DecidableEq

/-- `a - b` in `usize`. -/
def checkedSub (a b : ℕ) : Except Panic ℕ := if b ≤ a then .ok (a - b) else .error .subtract

/-- `a - b` in `u32`. -/
def checkedSubWord (a b : UInt32) : Except Panic UInt32 :=
  if b ≤ a then .ok (a - b) else .error .subtract

/-- `word << shift`. -/
def checkedShl (word : UInt32) (shift : ℕ) : Except Panic UInt32 :=
  if shift < 32 then .ok (word <<< UInt32.ofNat shift) else .error .shift

/-- `word >> shift`. -/
def checkedShr (word : UInt32) (shift : ℕ) : Except Panic UInt32 :=
  if shift < 32 then .ok (word >>> UInt32.ofNat shift) else .error .shift

/-- `list[index]`. -/
def checkedGet {α : Type} (list : List α) (index : ℕ) : Except Panic α :=
  match list[index]? with
  | some x => .ok x
  | none => .error .index

theorem checkedSub_ok {a b : ℕ} (h : b ≤ a) : checkedSub a b = .ok (a - b) := if_pos h

theorem checkedShl_ok {word : UInt32} {shift : ℕ} (h : shift < 32) :
    checkedShl word shift = .ok (word <<< UInt32.ofNat shift) := if_pos h

theorem checkedShr_ok {word : UInt32} {shift : ℕ} (h : shift < 32) :
    checkedShr word shift = .ok (word >>> UInt32.ofNat shift) := if_pos h

/-! ### The encoder -/

/-- The word of a chunk: its first byte by index, the others by `get`. -/
def tripleOf (chunk : Bytes) : Except Panic UInt32 := do
  let first ← checkedGet chunk 0
  let high ← checkedShl first.toUInt32 16
  let mid ← checkedShl (chunk[1]?.getD 0).toUInt32 8
  pure (high ||| mid ||| (chunk[2]?.getD 0).toUInt32)

/-- The closure `digit`. -/
def digitOf (triple : UInt32) (shift : ℕ) : Except Panic Char := do
  let word ← checkedShr triple shift
  checkedGet alphabet (word &&& 63).toNat

/-- `out.push(digit(shift))`, under a test of the chunk's length. -/
def pushIf (wanted : Bool) (triple : UInt32) (shift : ℕ) (out : Str) : Except Panic Str :=
  if wanted then do
    let symbol ← digitOf triple shift
    pure (out ++ [symbol])
  else pure out

/-- The symbols of one chunk. -/
def encodeChunk (chunk : Bytes) : Except Panic Str := do
  let triple ← tripleOf chunk
  let out ← pushIf true triple 18 []
  let out ← pushIf true triple 12 out
  let out ← pushIf (1 < chunk.length) triple 6 out
  pushIf (2 < chunk.length) triple 0 out

/-- `encode`, chunk by chunk. -/
def encodeChecked : Bytes → Except Panic Str
  | [] => pure []
  | a :: b :: c :: rest => do
    let symbols ← encodeChunk [a, b, c]
    let more ← encodeChecked rest
    pure (symbols ++ more)
  | chunk => encodeChunk chunk

/-! ### The decoder -/

/-- The loop over a group's symbols, which leaves `decode` at the first outside the alphabet. -/
def orSymbols : ℕ → UInt32 → Bytes → Except Panic (Option UInt32)
  | _, packed, [] => pure (some packed)
  | index, packed, byte :: group =>
    match valueOf byte with
    | none => pure none
    | some value => do
      let shift ← checkedSub 18 (6 * index)
      let bits ← checkedShl (UInt32.ofNat value) shift
      orSymbols (index + 1) (packed ||| bits) group

/-- The loop that pushes the bytes of a group. -/
def pushBytes (packed : UInt32) : List ℕ → Bytes → Except Panic (Option Bytes)
  | [], out => pure (some out)
  | index :: rest, out => do
    let shift ← checkedSub 16 (8 * index)
    let word ← checkedShr packed shift
    let byte := (word &&& 0xff).toNat
    -- `u8::try_from`
    if byte < 256 then pushBytes packed rest (out ++ [UInt8.ofNat byte]) else pure none

/-- One turn of the loop over the groups. -/
def decodeTurn (out group : Bytes) : Except Panic (Option Bytes) := do
  match ← orSymbols 0 0 group with
  | none => pure none
  | some packed =>
    let bytes ← checkedSub group.length 1
    let unusedBits ← checkedSub 24 (8 * bytes)
    let unit ← checkedShl 1 unusedBits
    let mask ← checkedSubWord unit 1
    if packed &&& mask ≠ 0 then pure none else pushBytes packed (List.range bytes) out

/-- The loop over the groups. -/
def decodeLoop : Bytes → Bytes → Except Panic (Option Bytes)
  | out, [] => pure (some out)
  | out, a :: b :: c :: d :: rest => do
    match ← decodeTurn out [a, b, c, d] with
    | none => pure none
    | some out => decodeLoop out rest
  | out, group => decodeTurn out group

/-- `decode`. -/
def decodeChecked (text : Str) : Except Panic (Option Bytes) :=
  if text.bytes.length % 4 = 1 then pure none else decodeLoop [] text.bytes

/-! ### No step panics -/

theorem toNat_shl {word : UInt32} {shift : ℕ} (h : word.toNat * 2 ^ shift < 2 ^ 32)
    (hshift : shift < 32) : (word <<< UInt32.ofNat shift).toNat = word.toNat * 2 ^ shift := by
  have hs : (UInt32.ofNat shift).toNat = shift := by
    rw [UInt32.toNat_ofNat']
    omega
  rw [UInt32.toNat_shiftLeft, hs, Nat.mod_eq_of_lt hshift, Nat.shiftLeft_eq, Nat.mod_eq_of_lt h]

theorem toNat_shr (word : UInt32) {shift : ℕ} (hshift : shift < 32) :
    (word >>> UInt32.ofNat shift).toNat = word.toNat / 2 ^ shift := by
  have hs : (UInt32.ofNat shift).toNat = shift := by
    rw [UInt32.toNat_ofNat']
    omega
  rw [UInt32.toNat_shiftRight, hs, Nat.mod_eq_of_lt hshift, Nat.shiftRight_eq_div_pow]

/-- Bits above an empty field and a value inside it. -/
theorem or_eq_add {high low k : ℕ} (hhigh : high % 2 ^ k = 0) (hlow : low < 2 ^ k) :
    high ||| low = high + low := by
  obtain ⟨n, rfl⟩ := Nat.dvd_of_mod_eq_zero hhigh
  rw [Nat.two_pow_add_eq_or_of_lt hlow]

theorem tripleOf_eq (a : UInt8) (chunk : Bytes) : ∃ word, tripleOf (a :: chunk) = .ok word ∧
    word.toNat = pack a (chunk[0]?.getD 0) (chunk[1]?.getD 0) := by
  have ha := a.toNat_lt
  generalize hb : chunk[0]?.getD 0 = b
  generalize hc : chunk[1]?.getD 0 = c
  have hb' := b.toNat_lt
  have hc' := c.toNat_lt
  refine ⟨a.toUInt32 <<< UInt32.ofNat 16 ||| b.toUInt32 <<< UInt32.ofNat 8 ||| c.toUInt32, ?_, ?_⟩
  · simp [tripleOf, checkedGet, checkedShl, hb, hc]
    rfl
  · have hhigh := @toNat_shl a.toUInt32 16 (by rw [UInt8.toNat_toUInt32]; omega) (by decide)
    have hmid := @toNat_shl b.toUInt32 8 (by rw [UInt8.toNat_toUInt32]; omega) (by decide)
    rw [UInt8.toNat_toUInt32] at hhigh hmid
    have htop := @or_eq_add (a.toNat * 2 ^ 16) (b.toNat * 2 ^ 8) 16 (by omega) (by omega)
    rw [UInt32.toNat_or, UInt32.toNat_or, hhigh, hmid, UInt8.toNat_toUInt32, pack, htop,
      @or_eq_add _ _ 8 (by omega) hc']

theorem digitOf_eq (triple : UInt32) {shift : ℕ} (h : shift < 32) :
    digitOf triple shift = .ok (digit triple.toNat shift) := by
  have hindex : ((triple >>> UInt32.ofNat shift) &&& 63).toNat = triple.toNat / 2 ^ shift % 64 := by
    rw [UInt32.toNat_and, toNat_shr triple h]
    exact Nat.and_two_pow_sub_one_eq_mod _ 6
  have hlt : triple.toNat / 2 ^ shift % 64 < alphabet.length := Nat.mod_lt _ (by decide)
  simp only [digitOf, checkedShr_ok h, checkedGet, bind, Except.bind, hindex, digit,
    List.getD_eq_getElem?_getD, List.getElem?_eq_getElem hlt, Option.getD_some]

theorem pushIf_eq (wanted : Bool) (triple : UInt32) {shift : ℕ} (out : Str) (h : shift < 32) :
    pushIf wanted triple shift out = .ok (out ++ if wanted then [digit triple.toNat shift] else []) := by
  cases wanted with
  | false => simp [pushIf, pure, Except.pure]
  | true => simp [pushIf, digitOf_eq triple h, bind, Except.bind, pure, Except.pure]

theorem encodeChunk_eq (a : UInt8) (chunk : Bytes) (h : chunk.length ≤ 2) :
    encodeChunk (a :: chunk) = .ok (encode (a :: chunk)) := by
  obtain ⟨word, hword, hnat⟩ := tripleOf_eq a chunk
  simp only [encodeChunk, hword, bind, Except.bind, pushIf_eq _ word _ (by decide : 18 < 32),
    pushIf_eq _ word _ (by decide : 12 < 32), pushIf_eq _ word _ (by decide : 6 < 32),
    pushIf_eq _ word _ (by decide : 0 < 32), hnat]
  rcases chunk with _ | ⟨b, _ | ⟨c, _ | ⟨d, rest⟩⟩⟩
  · simp [encode]
  · simp [encode]
  · simp [encode]
  · rw [List.length_cons, List.length_cons, List.length_cons] at h
    omega

theorem encodeChecked_eq : ∀ b : Bytes, encodeChecked b = .ok (encode b)
  | [] => rfl
  | [a] => encodeChunk_eq a [] (Nat.zero_le 2)
  | [a, b] => encodeChunk_eq a [b] (Nat.le_succ 1)
  | a :: b :: c :: rest => by
    rw [encodeChecked, encodeChunk_eq a [b, c] le_rfl, encodeChecked_eq rest]
    rfl

/-- A byte that has a value is the symbol of that value. -/
theorem valueOf_facts : ∀ n : Fin 256, ∀ v ∈ valueOf (UInt8.ofNat n.val),
    v < 64 ∧ UInt8.ofNat (alphabet.getD v 'A').toNat = UInt8.ofNat n.val := by
  decide +kernel

theorem valueOf_lt {byte : UInt8} {v : ℕ} (h : valueOf byte = some v) : v < 64 := by
  have := valueOf_facts ⟨byte.toNat, byte.toNat_lt⟩ v
  rw [UInt8.ofNat_toNat] at this
  exact (this h).1

/-- The values of a group from the `index`-th symbol on, at their places in the word. -/
def placed (index : ℕ) (values : List ℕ) : ℕ :=
  ((values.zipIdx index).map fun (v, index) => v * 2 ^ (18 - 6 * index)).sum

theorem placed_cons (index v : ℕ) (values : List ℕ) :
    placed index (v :: values) = v * 2 ^ (18 - 6 * index) + placed (index + 1) values := by
  simp [placed, List.zipIdx_cons]

/-- One symbol enters the free bits of the word. -/
theorem toNat_or_symbol {packed : UInt32} {index v : ℕ} (hindex : index ≤ 3) (hv : v < 64)
    (htop : packed.toNat % 2 ^ (24 - 6 * index) = 0) :
    (packed ||| UInt32.ofNat v <<< UInt32.ofNat (18 - 6 * index)).toNat =
      packed.toNat + v * 2 ^ (18 - 6 * index) := by
  have hvalue : (UInt32.ofNat v).toNat = v := by
    rw [UInt32.toNat_ofNat']
    omega
  have hplace : v * 2 ^ (18 - 6 * index) < 2 ^ (24 - 6 * index) := by
    have hsplit : 24 - 6 * index = (18 - 6 * index) + 6 := by omega
    rw [hsplit, pow_add, mul_comm]
    exact Nat.mul_lt_mul_of_pos_left hv (by positivity)
  have hle : 2 ^ (24 - 6 * index) ≤ 2 ^ 24 := Nat.pow_le_pow_right (by decide) (Nat.sub_le _ _)
  have hbits := @toNat_shl (UInt32.ofNat v) (18 - 6 * index) (by rw [hvalue]; omega) (by omega)
  rw [UInt32.toNat_or, hbits, hvalue, or_eq_add htop hplace]

/-- What the loop has read so far is the top of the word. -/
theorem orSymbols_eq : ∀ (group : Bytes) (index : ℕ) (packed : UInt32), index + group.length ≤ 4 →
    packed.toNat % 2 ^ (24 - 6 * index) = 0 →
    ∃ word, orSymbols index packed group = .ok ((group.mapM valueOf).map fun _ => word) ∧
      ∀ values, group.mapM valueOf = some values → word.toNat = packed.toNat + placed index values
  | [], index, packed, _, _ => ⟨packed, rfl, fun values h => by cases h; rfl⟩
  | byte :: group, index, packed, hindex, htop => by
    rw [List.length_cons] at hindex
    cases hv : valueOf byte with
    | none =>
      refine ⟨packed, ?_, fun values h => ?_⟩
      · simp [orSymbols, hv, List.mapM_cons]
        rfl
      · simp [List.mapM_cons, hv] at h
    | some v =>
      have hor := toNat_or_symbol (by omega) (valueOf_lt hv) htop
      have hnext : (packed.toNat + v * 2 ^ (18 - 6 * index)) % 2 ^ (24 - 6 * (index + 1)) = 0 := by
        have hfree : 24 - 6 * (index + 1) = 18 - 6 * index := by omega
        have hdvd : 2 ^ (18 - 6 * index) ∣ packed.toNat :=
          (Nat.pow_dvd_pow 2 (by omega)).trans (Nat.dvd_of_mod_eq_zero htop)
        rw [hfree]
        exact Nat.mod_eq_zero_of_dvd (hdvd.add (Nat.dvd_mul_left _ _))
      obtain ⟨word, hword, hnat⟩ := orSymbols_eq group (index + 1) _ (by omega) (by rw [hor, hnext])
      refine ⟨word, ?_, fun values h => ?_⟩
      · rw [orSymbols, hv]
        dsimp only
        rw [checkedSub_ok (by omega)]
        dsimp only [bind, Except.bind]
        rw [checkedShl_ok (by omega)]
        dsimp only
        rw [hword, List.mapM_cons, hv]
        cases group.mapM valueOf <;> rfl
      · rw [List.mapM_cons, hv] at h
        obtain ⟨rest, hrest, hvalues⟩ := Option.bind_eq_some_iff.mp (show ((group.mapM valueOf).bind
          fun rest => some (v :: rest)) = some values from h)
        cases hvalues
        rw [hnat rest hrest, hor, placed_cons, add_assoc]

theorem pushBytes_eq (packed : UInt32) : ∀ (indices : List ℕ) (out : Bytes), (∀ i ∈ indices, i < 3) →
    pushBytes packed indices out = .ok (some (out ++ indices.map fun index =>
      UInt8.ofNat (packed.toNat / 2 ^ (16 - 8 * index) % 256)))
  | [], out, _ => by simp [pushBytes, pure, Except.pure]
  | index :: rest, out, h => by
    have hindex := h index List.mem_cons_self
    have hword : ((packed >>> UInt32.ofNat (16 - 8 * index)) &&& 0xff).toNat =
        packed.toNat / 2 ^ (16 - 8 * index) % 256 := by
      rw [UInt32.toNat_and, toNat_shr packed (by omega)]
      exact Nat.and_two_pow_sub_one_eq_mod _ 8
    rw [pushBytes, checkedSub_ok (by omega)]
    dsimp only [bind, Except.bind]
    rw [checkedShr_ok (by omega)]
    dsimp only
    rw [hword, if_pos (Nat.mod_lt _ (by decide)),
      pushBytes_eq packed rest _ fun i hi => h i (List.mem_cons_of_mem _ hi), List.map_cons,
      List.append_assoc, List.singleton_append]

/-- The bits below the mask. -/
theorem toNat_and_mask (packed : UInt32) {n : ℕ} (hn : n < 32) :
    ∃ mask, checkedSubWord ((1 : UInt32) <<< UInt32.ofNat n) 1 = .ok mask ∧
      (packed &&& mask).toNat = packed.toNat % 2 ^ n := by
  have hpow : 2 ^ n < 2 ^ 32 := Nat.pow_lt_pow_right (by decide) hn
  have hunit : ((1 : UInt32) <<< UInt32.ofNat n).toNat = 2 ^ n := by
    have := @toNat_shl 1 n (by rw [UInt32.toNat_one]; omega) hn
    rwa [UInt32.toNat_one, one_mul] at this
  have hle : (1 : UInt32) ≤ 1 <<< UInt32.ofNat n := by
    rw [UInt32.le_iff_toNat_le, hunit]
    exact Nat.one_le_two_pow
  refine ⟨_, if_pos hle, ?_⟩
  rw [UInt32.toNat_and, UInt32.toNat_sub_of_le _ _ hle, hunit]
  exact Nat.and_two_pow_sub_one_eq_mod _ n

/-- A turn of the loop decodes its group. -/
theorem decodeTurn_eq (out group : Bytes) (hpos : 1 ≤ group.length) (hle : group.length ≤ 4) :
    decodeTurn out group = .ok ((decodeGroup group).map (out ++ ·)) := by
  obtain ⟨word, hword, hnat⟩ := orSymbols_eq group 0 0 (by omega) (by simp)
  rw [decodeTurn, hword]
  dsimp only [bind, Except.bind]
  cases hvalues : group.mapM valueOf with
  | none => simp [decodeGroup, hvalues, pure, Except.pure]
  | some values =>
    have hlength : values.length = group.length := (mapM_eq_some_iff.mp hvalues).length_eq.symm
    obtain ⟨mask, hmask, hlow⟩ := @toNat_and_mask word (24 - 8 * (group.length - 1)) (by omega)
    have hpacked : word.toNat = ((values.zipIdx.map fun (v, index) => v * 2 ^ (18 - 6 * index)).sum) := by
      rw [hnat values hvalues, UInt32.toNat_zero, zero_add]
      rfl
    have hzero : (word &&& mask ≠ 0) ↔ word.toNat % 2 ^ (24 - 8 * (group.length - 1)) ≠ 0 := by
      rw [← hlow, not_iff_not, ← UInt32.toNat_inj, UInt32.toNat_zero]
    dsimp only [Option.map_some]
    rw [checkedSub_ok hpos]
    dsimp only
    rw [checkedSub_ok (by omega)]
    dsimp only
    rw [checkedShl_ok (by omega)]
    dsimp only
    rw [hmask]
    dsimp only
    rw [pushBytes_eq _ _ _ fun i hi => by have := List.mem_range.mp hi; omega, decodeGroup, hvalues,
      Option.bind_some, unpack, hlength, ← hpacked]
    simp only [hzero]
    split_ifs
    · rfl
    · rfl

theorem decodeLoop_eq (input out : Bytes) :
    decodeLoop out input = .ok ((decodeGroups input).map (out ++ ·)) := by
  fun_induction decodeGroups input generalizing out with
  | case1 => simp [decodeLoop, pure, Except.pure]
  | case2 a b c d rest ih =>
    rw [decodeLoop, decodeTurn_eq out [a, b, c, d] (Nat.le_add_left 1 3) le_rfl]
    dsimp only [bind, Except.bind]
    cases hgroup : decodeGroup [a, b, c, d] with
    | none => rfl
    | some bytes =>
      simp only [Option.map_some, Option.bind_some, ih]
      cases decodeGroups rest with
      | none => rfl
      | some more => simp
  | case3 group hnil hfour =>
    rcases group with _ | ⟨a, _ | ⟨b, _ | ⟨c, _ | ⟨d, rest⟩⟩⟩⟩
    · exact (hnil rfl).elim
    · exact decodeTurn_eq out [a] le_rfl (Nat.le_add_left 1 3)
    · exact decodeTurn_eq out [a, b] (Nat.le_add_left 1 1) (Nat.le_add_left 2 2)
    · exact decodeTurn_eq out [a, b, c] (Nat.le_add_left 1 2) (Nat.le_add_left 3 1)
    · exact (hfour a b c d rest rfl).elim

theorem decodeChecked_eq (text : Str) : decodeChecked text = .ok (decode text) := by
  unfold decodeChecked decode
  split_ifs
  · rfl
  · rw [decodeLoop_eq]
    cases decodeGroups text.bytes <;> rfl

/-! ### One spelling -/

theorem eq_symbolByte {byte : UInt8} {v t shift : ℕ} (h : valueOf byte = some v)
    (hdigit : t / 2 ^ shift % 64 = v) : symbolByte t shift = byte := by
  have := valueOf_facts ⟨byte.toNat, byte.toNat_lt⟩ v
  rw [UInt8.ofNat_toNat] at this
  rw [symbolByte, digit, hdigit]
  exact (this h).2

theorem decodeGroup_values {group bytes : Bytes} (h : decodeGroup group = some bytes) :
    ∃ values, List.Forall₂ (fun byte v => valueOf byte = some v) group values ∧
      unpack values = some bytes := by
  obtain ⟨values, hvalues, hunpack⟩ := Option.bind_eq_some_iff.mp h
  exact ⟨values, mapM_eq_some_iff.mp hvalues, hunpack⟩

/-- The low bits of a group that is accepted are zero. -/
theorem spare_of_unpack {values : List ℕ} {bytes : Bytes} (h : unpack values = some bytes) :
    (values.zipIdx.map fun (v, index) => v * 2 ^ (18 - 6 * index)).sum %
      2 ^ (24 - 8 * (values.length - 1)) = 0 := by
  unfold unpack at h
  by_contra hspare
  rw [if_pos hspare] at h
  cases h

/-- The sum in which the low bits are looked for, for a group of three and for one of two. -/
theorem spare_of_three {u v w : ℕ} {bytes : Bytes} (h : unpack [u, v, w] = some bytes) :
    (u * 2 ^ 18 + (v * 2 ^ 12 + w * 2 ^ 6)) % 2 ^ 8 = 0 := by
  have hspare := spare_of_unpack h
  simpa [List.zipIdx_cons] using hspare

theorem spare_of_two {u v : ℕ} {bytes : Bytes} (h : unpack [u, v] = some bytes) :
    (u * 2 ^ 18 + v * 2 ^ 12) % 2 ^ 16 = 0 := by
  have hspare := spare_of_unpack h
  simpa [List.zipIdx_cons] using hspare

theorem pack_ofNat (t u v : ℕ) : pack (UInt8.ofNat t) (UInt8.ofNat u) (UInt8.ofNat v) =
    t % 256 * 2 ^ 16 + u % 256 * 2 ^ 8 + v % 256 := by
  rw [pack, UInt8.toNat_ofNat', UInt8.toNat_ofNat', UInt8.toNat_ofNat']

/-- The bytes of a full group are written as that group. -/
theorem encode_of_four {a b c d : UInt8} {bytes : Bytes} (rest : Bytes)
    (h : decodeGroup [a, b, c, d] = some bytes) :
    (encode (bytes ++ rest)).bytes = [a, b, c, d] ++ (encode rest).bytes := by
  obtain ⟨values, hall, hunpack⟩ := decodeGroup_values h
  rcases hall with _ | ⟨hv, _ | ⟨hw, _ | ⟨hx, _ | ⟨hy, _ | _⟩⟩⟩⟩
  rw [unpack_of_four rfl] at hunpack
  cases hunpack
  have hv64 := valueOf_lt hv
  have hw64 := valueOf_lt hw
  have hx64 := valueOf_lt hx
  have hy64 := valueOf_lt hy
  simp only [List.cons_append, List.nil_append, encode, Str.bytes_cons, utf8_digit, pack_ofNat]
  rw [eq_symbolByte hv (by omega), eq_symbolByte hw (by omega), eq_symbolByte hx (by omega),
    eq_symbolByte hy (by omega)]

theorem encode_of_three {a b c : UInt8} {bytes : Bytes} (h : decodeGroup [a, b, c] = some bytes) :
    (encode bytes).bytes = [a, b, c] := by
  obtain ⟨values, hall, hunpack⟩ := decodeGroup_values h
  rcases hall with _ | ⟨hv, _ | ⟨hw, _ | ⟨hx, _ | _⟩⟩⟩
  have hspare := spare_of_three hunpack
  rw [unpack_of_three rfl hspare] at hunpack
  cases hunpack
  have hv64 := valueOf_lt hv
  have hw64 := valueOf_lt hw
  have hx64 := valueOf_lt hx
  simp only [encode, Str.bytes_cons, Str.bytes_nil, utf8_digit, List.cons_append, List.nil_append]
  rw [show (0 : UInt8) = UInt8.ofNat 0 from rfl, pack_ofNat]
  rw [eq_symbolByte hv (by omega), eq_symbolByte hw (by omega), eq_symbolByte hx (by omega)]

theorem encode_of_two {a b : UInt8} {bytes : Bytes} (h : decodeGroup [a, b] = some bytes) :
    (encode bytes).bytes = [a, b] := by
  obtain ⟨values, hall, hunpack⟩ := decodeGroup_values h
  rcases hall with _ | ⟨hv, _ | ⟨hw, _ | _⟩⟩
  have hspare := spare_of_two hunpack
  rw [unpack_of_two rfl hspare] at hunpack
  cases hunpack
  have hv64 := valueOf_lt hv
  have hw64 := valueOf_lt hw
  simp only [encode, Str.bytes_cons, Str.bytes_nil, utf8_digit, List.cons_append, List.nil_append]
  rw [show (0 : UInt8) = UInt8.ofNat 0 from rfl, pack_ofNat]
  rw [eq_symbolByte hv (by omega), eq_symbolByte hw (by omega)]

theorem encode_of_decodeGroups (input bytes : Bytes) (h : decodeGroups input = some bytes)
    (hlength : input.length % 4 ≠ 1) : (encode bytes).bytes = input := by
  fun_induction decodeGroups input generalizing bytes with
  | case1 =>
    cases h
    rfl
  | case2 a b c d rest ih =>
    obtain ⟨first, hfirst, hrest⟩ := Option.bind_eq_some_iff.mp h
    obtain ⟨last, hlast, rfl⟩ := Option.map_eq_some_iff.mp hrest
    have hrest' : rest.length % 4 ≠ 1 := by
      rw [List.length_cons, List.length_cons, List.length_cons, List.length_cons] at hlength
      omega
    rw [encode_of_four last hfirst, ih last hlast hrest']
    rfl
  | case3 group hnil hfour =>
    rcases group with _ | ⟨a, _ | ⟨b, _ | ⟨c, _ | ⟨d, rest⟩⟩⟩⟩
    · exact (hnil rfl).elim
    · exact (hlength rfl).elim
    · exact encode_of_two h
    · exact encode_of_three h
    · exact (hfour a b c d rest rfl).elim

/-- Whatever decodes is the encoding of what it decodes to. -/
theorem encode_of_decode {text : Str} {bytes : Bytes} (h : decode text = some bytes) :
    encode bytes = text := by
  unfold decode at h
  split_ifs at h with hlength
  exact Str.bytes_injective (encode_of_decodeGroups _ _ h hlength)

/-! ### What is accepted -/

/-- The low bits of the last symbol that no byte uses. -/
def spareBits (text : Str) : ℕ :=
  match text.length % 4 with
  | 2 => 4
  | 3 => 2
  | _ => 0

/-- A text in the one spelling of some bytes. -/
structure Canonical (text : Str) : Prop where
  symbols : ∀ c ∈ text, c ∈ alphabet
  length : text.length % 4 ≠ 1
  spare : ∀ c ∈ text.getLast?, alphabet.idxOf c % 2 ^ spareBits text = 0

/-- Whole groups in front of the last one are free. -/
theorem spareBits_group (x y z u : Char) (rest : Str) :
    spareBits (x :: y :: z :: u :: rest) = spareBits rest := by
  have hmod : (rest.length + 1 + 1 + 1 + 1) % 4 = rest.length % 4 := Nat.add_mod_right _ 4
  simp only [spareBits, List.length_cons, hmod]

theorem Canonical.group_iff {x y z u : Char} {rest : Str} : Canonical (x :: y :: z :: u :: rest) ↔
    (∀ c ∈ [x, y, z, u], c ∈ alphabet) ∧ Canonical rest := by
  have hlength : (x :: y :: z :: u :: rest).length % 4 = rest.length % 4 := Nat.add_mod_right _ 4
  have hspare : (∀ c ∈ (x :: y :: z :: u :: rest).getLast?,
      alphabet.idxOf c % 2 ^ spareBits (x :: y :: z :: u :: rest) = 0) ↔
      ∀ c ∈ rest.getLast?, alphabet.idxOf c % 2 ^ spareBits rest = 0 := by
    rw [spareBits_group]
    rcases rest with _ | ⟨r, rest⟩
    · simp [spareBits, Nat.mod_one]
    · simp only [List.getLast?_cons_cons]
  constructor
  · intro h
    exact ⟨fun c hc => h.symbols c (List.mem_append_left rest hc),
      fun c hc => h.symbols c (List.mem_append_right [x, y, z, u] hc), hlength ▸ h.length,
      hspare.mp h.spare⟩
  · rintro ⟨hgroup, h⟩
    exact ⟨fun c hc => (List.mem_append.mp (show c ∈ [x, y, z, u] ++ rest from hc)).elim (hgroup c)
      (h.symbols c), hlength ▸ h.length, hspare.mpr h.spare⟩

theorem idxOf_digit (triple shift : ℕ) :
    digit triple shift ∈ alphabet ∧ alphabet.idxOf (digit triple shift) = triple / 2 ^ shift % 64 := by
  have hall : ∀ n : Fin 64, alphabet.getD n 'A' ∈ alphabet ∧ alphabet.idxOf (alphabet.getD n 'A') = n := by
    decide +kernel
  exact hall ⟨triple / 2 ^ shift % 64, Nat.mod_lt _ (by decide)⟩

theorem canonical_encode : ∀ b : Bytes, Canonical (encode b)
  | [] => ⟨by simp [encode], by simp [encode], by simp [encode]⟩
  | [a] => by
    have hpack := pack_bytes a 0 0
    rw [UInt8.toNat_zero] at hpack
    refine ⟨by simp [encode, idxOf_digit], by simp [encode], fun c hc => ?_⟩
    cases hc
    change alphabet.idxOf (digit (pack a 0 0) 12) % 2 ^ 4 = 0
    rw [(idxOf_digit _ _).2]
    omega
  | [a, b] => by
    have hpack := pack_bytes a b 0
    rw [UInt8.toNat_zero] at hpack
    refine ⟨by simp [encode, idxOf_digit], by simp [encode], fun c hc => ?_⟩
    cases hc
    change alphabet.idxOf (digit (pack a b 0) 6) % 2 ^ 2 = 0
    rw [(idxOf_digit _ _).2]
    omega
  | a :: b :: c :: rest =>
    Canonical.group_iff.mpr ⟨by simp [idxOf_digit], canonical_encode rest⟩

/-- The byte of a symbol. -/
theorem utf8_symbol {c : Char} (h : c ∈ alphabet) :
    ∃ byte, String.utf8EncodeChar c = [byte] ∧ valueOf byte = some (alphabet.idxOf c) := by
  have hlt : alphabet.idxOf c < 64 := List.idxOf_lt_length_of_mem h
  have hget : alphabet.getD (alphabet.idxOf c) 'A' = c := by
    rw [List.getD_eq_getElem?_getD, List.getElem?_idxOf h, Option.getD_some]
  have hfacts := symbol_facts ⟨alphabet.idxOf c, hlt⟩
  rw [hget] at hfacts
  exact ⟨_, hfacts.1, hfacts.2.1⟩

theorem isSome_decodeGroup {group out : Bytes} {values : List ℕ} (hvalues : group.mapM valueOf = some values)
    (hunpack : unpack values = some out) : (decodeGroup group).isSome := by
  rw [decodeGroup, hvalues, Option.bind_some, hunpack, Option.isSome_some]

theorem isSome_decodeGroup_two {a b : UInt8} {v w : ℕ} (hv : valueOf a = some v) (hw : valueOf b = some w)
    (hspare : w % 2 ^ 4 = 0) : (decodeGroup [a, b]).isSome := by
  obtain ⟨t, ht⟩ : ∃ t, v * 2 ^ 18 + w * 2 ^ 12 = t := ⟨_, rfl⟩
  exact @isSome_decodeGroup _ _ [v, w] (by simp [hv, hw]) (unpack_of_two ht (by omega))

theorem isSome_decodeGroup_three {a b c : UInt8} {v w x : ℕ} (hv : valueOf a = some v) (hw : valueOf b = some w)
    (hx : valueOf c = some x) (hspare : x % 2 ^ 2 = 0) : (decodeGroup [a, b, c]).isSome := by
  obtain ⟨t, ht⟩ : ∃ t, v * 2 ^ 18 + (w * 2 ^ 12 + x * 2 ^ 6) = t := ⟨_, rfl⟩
  exact @isSome_decodeGroup _ _ [v, w, x] (by simp [hv, hw, hx]) (unpack_of_three ht (by omega))

theorem isSome_decodeGroup_four {a b c d : UInt8} {v w x y : ℕ} (hv : valueOf a = some v) (hw : valueOf b = some w)
    (hx : valueOf c = some x) (hy : valueOf d = some y) : (decodeGroup [a, b, c, d]).isSome := by
  obtain ⟨t, ht⟩ : ∃ t, v * 2 ^ 18 + (w * 2 ^ 12 + (x * 2 ^ 6 + y)) = t := ⟨_, rfl⟩
  exact @isSome_decodeGroup _ _ [v, w, x, y] (by simp [hv, hw, hx, hy]) (unpack_of_four ht)

theorem isSome_decodeGroups : ∀ {text : Str}, Canonical text → (decodeGroups text.bytes).isSome
  | [], _ => rfl
  | [x], h => (h.length rfl).elim
  | [x, y], h => by
    obtain ⟨a, ha, hv⟩ := utf8_symbol (h.symbols x (by simp))
    obtain ⟨b, hb, hw⟩ := utf8_symbol (h.symbols y (by simp))
    rw [Str.bytes_cons, ha, Str.bytes_cons, hb]
    exact isSome_decodeGroup_two hv hw (h.spare y rfl)
  | [x, y, z], h => by
    obtain ⟨a, ha, hv⟩ := utf8_symbol (h.symbols x (by simp))
    obtain ⟨b, hb, hw⟩ := utf8_symbol (h.symbols y (by simp))
    obtain ⟨c, hc, hx⟩ := utf8_symbol (h.symbols z (by simp))
    rw [Str.bytes_cons, ha, Str.bytes_cons, hb, Str.bytes_cons, hc]
    exact isSome_decodeGroup_three hv hw hx (h.spare z rfl)
  | x :: y :: z :: u :: rest, h => by
    obtain ⟨hgroup, hrest⟩ := Canonical.group_iff.mp h
    obtain ⟨a, ha, hv⟩ := utf8_symbol (hgroup x (by simp))
    obtain ⟨b, hb, hw⟩ := utf8_symbol (hgroup y (by simp))
    obtain ⟨c, hc, hx⟩ := utf8_symbol (hgroup z (by simp))
    obtain ⟨d, hd, hy⟩ := utf8_symbol (hgroup u (by simp))
    obtain ⟨more, hmore⟩ := Option.isSome_iff_exists.mp (isSome_decodeGroups hrest)
    obtain ⟨out, hout⟩ := Option.isSome_iff_exists.mp (isSome_decodeGroup_four hv hw hx hy)
    simp [ha, hb, hc, hd, decodeGroups, hout, hmore]

theorem len_of_alphabet : ∀ {text : Str}, (∀ c ∈ text, c ∈ alphabet) → text.bytes.length = text.length
  | [], _ => rfl
  | c :: text, h => by
    obtain ⟨byte, hbyte, -⟩ := utf8_symbol (h c List.mem_cons_self)
    rw [Str.bytes_cons, hbyte, List.length_append, List.length_singleton, List.length_cons,
      len_of_alphabet fun d hd => h d (List.mem_cons_of_mem _ hd), add_comm]

/-- What decodes is exactly what is canonical. -/
theorem decode_isSome_iff (text : Str) : (decode text).isSome ↔ Canonical text := by
  constructor
  · intro h
    obtain ⟨b, hb⟩ := Option.isSome_iff_exists.mp h
    rw [← encode_of_decode hb]
    exact canonical_encode b
  · intro h
    rw [decode, len_of_alphabet h.symbols, if_neg h.length]
    exact isSome_decodeGroups h

/-- `encode` and `decode` are total, each the inverse of the other between the byte strings and the
    canonical texts. -/
theorem base64url_bijection :
    (∀ b, ∃ text, encodeChecked b = .ok text) ∧ (∀ text, ∃ r, decodeChecked text = .ok r) ∧
      (∀ b text, decodeChecked text = .ok (some b) ↔ encodeChecked b = .ok text) ∧
      ∀ text, (∃ b, decodeChecked text = .ok (some b)) ↔ Canonical text := by
  refine ⟨fun b => ⟨_, encodeChecked_eq b⟩, fun text => ⟨_, decodeChecked_eq text⟩,
    fun b text => ?_, fun text => ?_⟩
  · rw [decodeChecked_eq, encodeChecked_eq, Except.ok.injEq, Except.ok.injEq]
    constructor
    · exact encode_of_decode
    · rintro rfl
      exact decode_encode b
  · rw [← decode_isSome_iff, Option.isSome_iff_exists, decodeChecked_eq]
    simp only [Except.ok.injEq]

/-- A group's unused bits tell two spellings of `f` apart. -/
example : decodeChecked "Zg".toList = .ok (some [0x66]) ∧ decodeChecked "Zh".toList = .ok none := by
  decide

end Arcature.Crypt.Base64Url

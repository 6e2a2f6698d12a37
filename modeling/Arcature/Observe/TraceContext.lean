import Arcature.Http.Vary

/-! One spelling for each `traceparent`.

    A trace crosses services in a header of 55 bytes (`observe/trace_context.rs`):

        00 - 0af7651916cd43dd8448eb211c80319c - b7ad6b7169203331 - 01
        version        trace id                  parent id       flags

    The bytes of each field are read at fixed places of whatever text came in. What is read is what is
    printed: no id has two spellings, and a context that was read or invented is handed on to the next
    service in a form that it reads (`traceparent_canonical`). -/

namespace Arcature.Observe
open Arcature.Lib Arcature.Inertia

/-! ### Hexadecimal -/

/-- `DIGITS`. -/
def traceDigits : List Char := "0123456789abcdef".toList

/-- `hex`. -/
def traceHex (bytes : Bytes) : Str :=
  bytes.flatMap fun byte : UInt8 =>
    [traceDigits.getD (byte >>> 4).toNat '0', traceDigits.getD (byte &&& 0x0f).toNat '0']

/-- `nibble`, in `hex_byte`. -/
def traceNibble (b : UInt8) : Option UInt8 :=
  if 0x30 ≤ b ∧ b ≤ 0x39 then some (b - 0x30)
  else if 0x61 ≤ b ∧ b ≤ 0x66 then some (b - 0x61 + 10)
  else none

/-- `hex_byte`. -/
def traceHexByte (pair : Bytes) : Option UInt8 := do
  let high ← traceNibble (← pair[0]?)
  let low ← traceNibble (← pair[1]?)
  some (high <<< 4 ||| low)

/-! ### Reading -/

/-- A `traceparent`. -/
structure TraceParent where
  traceId : ByteArr 16
  parentId : ByteArr 8
  flags : UInt8
  deriving DecidableEq

/-- Neither id is zero. -/
def TraceParent.NonZero (p : TraceParent) : Prop := p.traceId ≠ .fill 16 0 ∧ p.parentId ≠ .fill 8 0

instance (p : TraceParent) : Decidable p.NonZero := inferInstanceAs (Decidable (_ ∧ _))

/-- A slice of bytes. It panics unless both ends are within them. -/
def byteSlice (bytes : Bytes) (start stop : ℕ) : Option Bytes :=
  if start ≤ stop ∧ stop ≤ bytes.length then some ((bytes.drop start).take (stop - start)) else none

/-- A byte of an id or a field; the outer `none` is a panic. -/
def byteAt (bytes : Bytes) (start : ℕ) : OptionT Option UInt8 :=
  OptionT.mk ((byteSlice bytes start (start + 2)).map traceHexByte)

/-- The loop over the slots of an id. -/
def slotsAt (bytes : Bytes) (start n : ℕ) : OptionT Option Bytes :=
  (List.range n).mapM fun index => byteAt bytes (start + index * 2)

/-- The slots of an id, as an array. -/
def idAt (bytes : Bytes) (start n : ℕ) : OptionT Option (ByteArr n) := do
  let slots ← slotsAt bytes start n
  if h : slots.length = n then pure ⟨slots, h⟩ else failure

/-- The byte at a place. It panics past the end. -/
def byteOf (bytes : Bytes) (i : ℕ) : OptionT Option UInt8 := OptionT.lift bytes[i]?

/-- The part of `TraceParent::parse` after the trimming. -/
def parseBytes (bytes : Bytes) : OptionT Option TraceParent :=
  if bytes.length ≠ 55 then failure
  else do
    let first ← byteOf bytes 2
    let second ← byteOf bytes 35
    let third ← byteOf bytes 52
    if first ≠ 0x2d ∨ second ≠ 0x2d ∨ third ≠ 0x2d then failure
    else do
      let version ← byteAt bytes 0
      if version ≠ 0 then failure
      else do
        let traceId ← idAt bytes 3 16
        let parentId ← idAt bytes 36 8
        if traceId = .fill 16 0 ∨ parentId = .fill 8 0 then failure
        else do
          let flags ← byteAt bytes 53
          pure ⟨traceId, parentId, flags⟩

/-- `TraceParent::parse`; the outer `none` is a panic. -/
def TraceParent.parse (value : Str) : Option (Option TraceParent) := (parseBytes value.trim.bytes).run

/-- `{:02x}`. -/
def twoDigits (n : UInt8) : Str := (Nat.toDigits 16 n.toNat).leftpad 2 '0'

/-- `Display`. -/
def TraceParent.text (p : TraceParent) : Str :=
  "00-".toList ++ (traceHex p.traceId.val ++ '-' :: (traceHex p.parentId.val ++ '-' :: twoDigits p.flags))

/-! ### Contexts -/

/-- An id that came out zero gets a last byte. -/
def orOne {n : ℕ} (id : ByteArr n) : ByteArr n :=
  if id = .fill n 0 then ⟨id.val.set (n - 1) 1, by rw [List.length_set, id.property]⟩ else id

/-- `TraceParent::root`, with what `fill_unique` gives. -/
def TraceParent.root (fresh : ByteArr 24) : TraceParent where
  traceId := orOne ⟨fresh.val.take 16, by rw [List.length_take, fresh.property]; rfl⟩
  parentId := orOne ⟨fresh.val.drop 16, by rw [List.length_drop, fresh.property]⟩
  flags := 1

/-- `TraceParent::child`, with what `fill_unique` gives. -/
def TraceParent.child (p : TraceParent) (fresh : ByteArr 8) : TraceParent := { p with parentId := orOne fresh }

/-- `to_header_value`. -/
def TraceParent.toHeaderValue (p : TraceParent) : Str := (headerToStr p.text).getD []

/-- A `tracestate`. -/
structure TraceState where
  text : Str

/-- `TraceState::parse`. -/
def TraceState.parse (value : Str) : Option TraceState :=
  let value := value.trim
  let members := ((value.splitOn ',').filter fun member => Str.trim member ≠ []).length
  if value = [] ∨ value.len > 512 ∨ members = 0 ∨ members > 32 then none
  else if value.bytes.all fun b => 0x20 ≤ b ∧ b ≤ 0x7e then some ⟨value⟩
  else none

/-- The context of a request. Its parent was read or invented, and neither makes a zero id. -/
structure TraceContext where
  parent : TraceParent
  state : Option TraceState
  continued : Bool
  parent_ok : parent.NonZero

def traceparent : Str := "traceparent".toList

def tracestate : Str := "tracestate".toList

theorem orOne_ne {n : ℕ} (hn : 0 < n) (id : ByteArr n) : orOne id ≠ .fill n 0 := by
  unfold orOne
  split
  · intro h
    have hlast := congrArg (fun id => id.val[n - 1]?) h
    simp [ByteArr.fill, id.property, hn] at hlast
  · assumption

theorem nonZero_root (fresh : ByteArr 24) : (TraceParent.root fresh).NonZero :=
  ⟨orOne_ne (by decide) _, orOne_ne (by decide) _⟩

theorem TraceParent.NonZero.child {p : TraceParent} (h : p.NonZero) (fresh : ByteArr 8) : (p.child fresh).NonZero :=
  ⟨h.1, orOne_ne (by decide) _⟩

/-! ### Digits -/

/-- The byte of a digit. -/
def digitByte (v : UInt8) : UInt8 := UInt8.ofNat (traceDigits.getD v.toNat '0').toNat

theorem utf8_traceDigit : ∀ v : Fin 16, String.utf8EncodeChar (traceDigits.getD v.val '0') =
    [UInt8.ofNat (traceDigits.getD v.val '0').toNat] := by
  decide

theorem traceNibble_facts : ∀ n : Fin 256, (traceNibble (UInt8.ofNat n.val)).all (·.toNat < 16) = true ∧
    ∀ v : Fin 16, traceNibble (UInt8.ofNat n.val) = some (UInt8.ofNat v.val) ↔
      UInt8.ofNat n.val = digitByte (UInt8.ofNat v.val) := by
  decide +kernel

theorem halves_facts : (∀ n : Fin 256,
      ((UInt8.ofNat n.val >>> 4).toNat < 16 ∧ (UInt8.ofNat n.val &&& 0x0f).toNat < 16) ∧
        (UInt8.ofNat n.val >>> 4) <<< 4 ||| (UInt8.ofNat n.val &&& 0x0f) = UInt8.ofNat n.val) ∧
    ∀ v w : Fin 16,
      (UInt8.ofNat v.val <<< 4 ||| UInt8.ofNat w.val) >>> 4 = UInt8.ofNat v.val ∧
        (UInt8.ofNat v.val <<< 4 ||| UInt8.ofNat w.val) &&& 0x0f = UInt8.ofNat w.val := by
  decide +kernel

theorem twoDigits_facts : ∀ n : Fin 256, twoDigits (UInt8.ofNat n.val) = traceHex [UInt8.ofNat n.val] := by
  decide +kernel

/-- What holds of the bytes one by one. -/
theorem forall_byte {P : UInt8 → Prop} (h : ∀ n : Fin 256, P (UInt8.ofNat n.val)) (byte : UInt8) : P byte := by
  have hbyte := h ⟨byte.toNat, byte.toNat_lt⟩
  rwa [UInt8.ofNat_toNat] at hbyte

/-- What holds of the digits one by one. -/
theorem forall_half {P : UInt8 → Prop} (h : ∀ v : Fin 16, P (UInt8.ofNat v.val)) {v : UInt8}
    (hv : v.toNat < 16) : P v := by
  have hhalf := h ⟨v.toNat, hv⟩
  rwa [UInt8.ofNat_toNat] at hhalf

/-- The halves of a byte are digits. -/
theorem halves_lt (byte : UInt8) : (byte >>> 4).toNat < 16 ∧ (byte &&& 0x0f).toNat < 16 :=
  forall_byte (P := fun b => (b >>> 4).toNat < 16 ∧ (b &&& 0x0f).toNat < 16) (fun n => (halves_facts.1 n).1) byte

/-- The halves of a byte make up the byte. -/
theorem halves_join (byte : UInt8) : (byte >>> 4) <<< 4 ||| (byte &&& 0x0f) = byte :=
  forall_byte (P := fun b => (b >>> 4) <<< 4 ||| (b &&& 0x0f) = b) (fun n => (halves_facts.1 n).2) byte

theorem twoDigits_eq (n : UInt8) : twoDigits n = traceHex [n] :=
  forall_byte (P := fun n => twoDigits n = traceHex [n]) twoDigits_facts n

theorem bytes_traceHex_cons (byte : UInt8) (bytes : Bytes) : (traceHex (byte :: bytes)).bytes =
    digitByte (byte >>> 4) :: digitByte (byte &&& 0x0f) :: (traceHex bytes).bytes := by
  have hlt := halves_lt byte
  have hhigh := utf8_traceDigit ⟨_, hlt.1⟩
  have hlow := utf8_traceDigit ⟨_, hlt.2⟩
  rw [traceHex, List.flatMap_cons, ← traceHex, Str.bytes_append, Str.bytes_cons, Str.bytes_cons, hhigh, hlow]
  rfl

theorem length_traceHex (bytes : Bytes) : (traceHex bytes).bytes.length = bytes.length * 2 := by
  induction bytes with
  | nil => rfl
  | cons byte bytes ih =>
    rw [bytes_traceHex_cons, List.length_cons, List.length_cons, ih, List.length_cons]
    omega

theorem traceNibble_eq_some {a v : UInt8} : traceNibble a = some v ↔ v.toNat < 16 ∧ a = digitByte v := by
  have hfacts : ∀ {v : UInt8}, v.toNat < 16 → (traceNibble a = some v ↔ a = digitByte v) := fun {v} hv =>
    forall_byte (P := fun a => traceNibble a = some v ↔ a = digitByte v) (fun n =>
      forall_half (P := fun v => traceNibble (UInt8.ofNat n.val) = some v ↔ UInt8.ofNat n.val = digitByte v)
        (traceNibble_facts n).2 hv) a
  constructor
  · intro h
    have hall := forall_byte (P := fun a => (traceNibble a).all (·.toNat < 16) = true)
      (fun n => (traceNibble_facts n).1) a
    rw [h, Option.all_some, decide_eq_true_eq] at hall
    exact ⟨hall, (hfacts hall).mp h⟩
  · rintro ⟨hv, h⟩
    exact (hfacts hv).mpr h

/-- Two digits are read as the byte that is printed as them. -/
theorem traceHexByte_eq_some {a b x : UInt8} : traceHexByte [a, b] = some x ↔ [a, b] = (traceHex [x]).bytes := by
  rw [bytes_traceHex_cons]
  simp only [traceHexByte, List.getElem?_cons_zero, List.getElem?_cons_succ, Option.bind_eq_bind, Option.bind_some,
    Option.bind_eq_some_iff, Option.some_inj, List.cons.injEq]
  constructor
  · rintro ⟨v, hv, w, hw, rfl⟩
    rw [traceNibble_eq_some] at hv hw
    obtain ⟨hlt, rfl⟩ := hv
    obtain ⟨hlt', rfl⟩ := hw
    have hhalves := halves_facts.2 ⟨_, hlt⟩ ⟨_, hlt'⟩
    rw [UInt8.ofNat_toNat, UInt8.ofNat_toNat] at hhalves
    rw [hhalves.1, hhalves.2]
    exact ⟨rfl, rfl, rfl⟩
  · rintro ⟨rfl, rfl, -⟩
    have hlt := halves_lt x
    refine ⟨x >>> 4, ?_, x &&& 0x0f, ?_, halves_join x⟩
    · rw [traceNibble_eq_some]
      exact ⟨hlt.1, rfl⟩
    · rw [traceNibble_eq_some]
      exact ⟨hlt.2, rfl⟩

/-! ### Fields at fixed places -/

section Fields

variable {bytes : Bytes} {start : ℕ}

/-- Two bytes are read without a panic, as a byte that they print. -/
theorem byteAt_spec (h : start + 2 ≤ bytes.length) : ∃ r, (byteAt bytes start).run = some r ∧
    ∀ x, r = some x ↔ (bytes.drop start).take 2 = (traceHex [x]).bytes := by
  refine ⟨traceHexByte ((bytes.drop start).take 2), ?_, fun x => ?_⟩
  · rw [byteAt, byteSlice, if_pos ⟨Nat.le_add_right .., h⟩, Nat.add_sub_cancel_left]
    rfl
  · have hlen : ((bytes.drop start).take 2).length = 2 := by
      rw [List.length_take, List.length_drop]
      omega
    obtain ⟨a, b, hab⟩ := List.length_eq_two.mp hlen
    rw [hab]
    exact traceHexByte_eq_some

theorem byteAt_iff (h : start + 2 ≤ bytes.length) {x : UInt8} :
    (byteAt bytes start).run = some (some x) ↔ (bytes.drop start).take 2 = (traceHex [x]).bytes := by
  obtain ⟨r, hr, hx⟩ := byteAt_spec h
  rw [hr, Option.some_inj, hx]

theorem traceHex_append (out more : Bytes) :
    (traceHex (out ++ more)).bytes = (traceHex out).bytes ++ (traceHex more).bytes := by
  rw [traceHex, List.flatMap_append, ← traceHex, ← traceHex, Str.bytes_append]

/-- The slots are read without a panic, as bytes that the slice prints. -/
theorem slotsAt_spec {n : ℕ} (h : start + n * 2 ≤ bytes.length) : ∃ r, (slotsAt bytes start n).run = some r ∧
    ∀ out, r = some out ↔ out.length = n ∧ (bytes.drop start).take (n * 2) = (traceHex out).bytes := by
  induction n with
  | zero =>
    refine ⟨some [], rfl, fun out => ?_⟩
    constructor
    · rintro ⟨⟩
      exact ⟨rfl, rfl⟩
    · rintro ⟨hlen, -⟩
      rw [List.eq_nil_of_length_eq_zero hlen]
  | succ n ih =>
    obtain ⟨r, hrun, hr⟩ := ih (by omega)
    obtain ⟨last, hlast, hx⟩ := @byteAt_spec bytes (start + n * 2) (by omega)
    have hsplit : (bytes.drop start).take ((n + 1) * 2) =
        (bytes.drop start).take (n * 2) ++ (bytes.drop (start + n * 2)).take 2 := by
      rw [Nat.add_mul, List.take_add, List.drop_drop]
    have hnext : (slotsAt bytes start (n + 1)).run =
        some (r.bind fun out => last.map fun x => out ++ [x]) := by
      rw [slotsAt, List.range_succ, List.mapM_append, ← slotsAt]
      simp only [OptionT.run_bind, hrun, List.mapM_cons, List.mapM_nil, hlast, bind_pure_comp, map_pure,
        OptionT.run_map, Option.map_eq_map, Option.map_some, Option.pure_def]
      cases r <;> cases last <;> rfl
    refine ⟨_, hnext, fun out => ?_⟩
    simp only [hsplit, Option.bind_eq_some_iff, Option.map_eq_some_iff]
    constructor
    · rintro ⟨out', hout, x, hread, rfl⟩
      obtain ⟨hlen, hslice⟩ := (hr out').mp hout
      refine ⟨by rw [List.length_append, hlen, List.length_singleton], ?_⟩
      rw [hslice, (hx x).mp hread, traceHex_append]
    · rintro ⟨hlen, hslice⟩
      obtain ⟨out', x, rfl⟩ := (List.eq_nil_or_concat out).resolve_left (by rintro rfl; cases hlen)
      rw [List.concat_eq_append] at hlen hslice ⊢
      have hlen' : out'.length = n := by simpa using hlen
      rw [traceHex_append] at hslice
      obtain ⟨hfirst, hsecond⟩ := List.append_inj hslice (by
        rw [length_traceHex, List.length_take, List.length_drop, hlen']
        omega)
      exact ⟨out', (hr out').mpr ⟨hlen', hfirst⟩, x, (hx x).mpr hsecond, rfl⟩

/-- And so the array of an id. -/
theorem idAt_spec {n : ℕ} (h : start + n * 2 ≤ bytes.length) : ∃ r, (idAt bytes start n).run = some r ∧
    ∀ out, r = some out ↔ (bytes.drop start).take (n * 2) = (traceHex out.val).bytes := by
  obtain ⟨r, hrun, hr⟩ := slotsAt_spec h
  refine ⟨r.bind fun slots => if h : slots.length = n then some ⟨slots, h⟩ else none, ?_, fun out => ?_⟩
  · rw [idAt, OptionT.run_bind, hrun]
    cases r with
    | none => rfl
    | some slots => by_cases hlen : slots.length = n <;> simp [hlen, Option.elimM]
  · rw [Option.bind_eq_some_iff]
    constructor
    · rintro ⟨slots, hslots, hout⟩
      obtain ⟨hlen, hslice⟩ := (hr slots).mp hslots
      rw [dif_pos hlen] at hout
      rw [hslice, ← Option.some.inj hout]
    · intro hslice
      exact ⟨out.val, (hr out.val).mpr ⟨out.property, hslice⟩, dif_pos out.property⟩

theorem idAt_iff {n : ℕ} (h : start + n * 2 ≤ bytes.length) {out : ByteArr n} :
    (idAt bytes start n).run = some (some out) ↔ (bytes.drop start).take (n * 2) = (traceHex out.val).bytes := by
  obtain ⟨r, hr, hout⟩ := idAt_spec h
  rw [hr, Option.some_inj, hout]

theorem byteOf_run {i : ℕ} (h : i < bytes.length) : (byteOf bytes i).run = some (some (bytes.getD i 0)) := by
  rw [byteOf, OptionT.run_lift, List.getD_eq_getElem?_getD, List.getElem?_eq_getElem h]
  rfl

/-- The fields with the bytes between them. -/
theorem eq_fields (h : bytes.length = 55) : bytes = (bytes.drop 0).take 2 ++ (bytes.getD 2 0 ::
    ((bytes.drop 3).take (16 * 2) ++ (bytes.getD 35 0 :: ((bytes.drop 36).take (8 * 2) ++
      (bytes.getD 52 0 :: (bytes.drop 53).take 2))))) := by
  have hcons : ∀ i (hi : i < 55), bytes.drop i = bytes.getD i 0 :: bytes.drop (i + 1) := fun i hi => by
    rw [List.drop_eq_getElem_cons (h ▸ hi), List.getD_eq_getElem?_getD, List.getElem?_eq_getElem (h ▸ hi),
      Option.getD_some]
  have htake : ∀ i n, bytes.drop i = (bytes.drop i).take n ++ bytes.drop (i + n) := fun i n => by
    rw [← List.drop_drop, List.take_append_drop]
  have hlast : (bytes.drop 53).take 2 = bytes.drop 53 := List.take_of_length_le (by rw [List.length_drop]; omega)
  conv_lhs => rw [← List.drop_zero (l := bytes), htake 0 2, hcons 2 (by omega), htake 3 32, hcons 35 (by omega),
    htake 36 16, hcons 52 (by omega), ← hlast]

theorem bytes_text (p : TraceParent) : p.text.bytes = (traceHex [0]).bytes ++ (0x2d ::
    ((traceHex p.traceId.val).bytes ++ (0x2d :: ((traceHex p.parentId.val).bytes ++
      (0x2d :: (traceHex [p.flags]).bytes))))) := by
  have hopening : Str.bytes "00-".toList = (traceHex [0]).bytes ++ [0x2d] := by decide +kernel
  have hdash : String.utf8EncodeChar '-' = [0x2d] := by decide
  rw [TraceParent.text, twoDigits_eq, Str.bytes_append, hopening, Str.bytes_append, Str.bytes_cons, hdash,
    Str.bytes_append, Str.bytes_cons, hdash, List.append_assoc]
  rfl

theorem length_text (p : TraceParent) : p.text.bytes.length = 55 := by
  simp only [bytes_text, List.length_append, List.length_cons, length_traceHex, p.traceId.property,
    p.parentId.property, List.length_nil]

end Fields

section Runs

variable {α β : Type} {x : OptionT Option α} {f : α → OptionT Option β} {b : β}

/-- What comes after a step is what the rest makes of its outcome. -/
theorem run_bind_iff : (x >>= f).run = some (some b) ↔ ∃ a, x.run = some (some a) ∧ (f a).run = some (some b) := by
  rw [OptionT.run_bind]
  rcases x.run with _ | _ | a <;> simp [Option.elimM]

theorem run_bind_ne_none (h : x.run ≠ none) (hf : ∀ a, (f a).run ≠ none) : (x >>= f).run ≠ none := by
  rw [OptionT.run_bind]
  rcases hx : x.run with _ | _ | a
  · exact absurd hx h
  · simp [Option.elimM]
  · simpa [Option.elimM] using hf a

theorem run_unless_iff {c : Prop} [Decidable c] {x : OptionT Option β} :
    (if c then failure else x).run = some (some b) ↔ ¬ c ∧ x.run = some (some b) := by
  split
  · rename_i h
    exact ⟨nofun, fun hc => absurd h hc.1⟩
  · rename_i h
    exact ⟨fun hx => ⟨h, hx⟩, And.right⟩

theorem run_unless_ne_none {c : Prop} [Decidable c] {x : OptionT Option β} (h : x.run ≠ none) :
    (if c then failure else x).run ≠ none := by
  split
  · exact nofun
  · exact h

end Runs

/-- Nothing panics: every place is within the 55 bytes. -/
theorem parseBytes_ne_none (bytes : Bytes) : (parseBytes bytes).run ≠ none := by
  by_cases hlen : bytes.length = 55
  · have hbyte : ∀ i, i < 55 → (byteOf bytes i).run ≠ none := fun i hi => by
      rw [byteOf_run (hlen ▸ hi)]
      exact nofun
    have hat : ∀ start, start + 2 ≤ 55 → (byteAt bytes start).run ≠ none := fun start h => by
      obtain ⟨r, hr, -⟩ := byteAt_spec (hlen ▸ h)
      rw [hr]
      exact nofun
    have hid : ∀ start n, start + n * 2 ≤ 55 → (idAt bytes start n).run ≠ none := fun start n h => by
      obtain ⟨r, hr, -⟩ := idAt_spec (hlen ▸ h)
      rw [hr]
      exact nofun
    refine run_unless_ne_none (run_bind_ne_none (hbyte 2 (by omega)) fun first => ?_)
    refine run_bind_ne_none (hbyte 35 (by omega)) fun second => run_bind_ne_none (hbyte 52 (by omega)) fun third => ?_
    refine run_unless_ne_none (run_bind_ne_none (hat 0 (by omega)) fun version => run_unless_ne_none ?_)
    refine run_bind_ne_none (hid 3 16 (by omega)) fun traceId => ?_
    refine run_bind_ne_none (hid 36 8 (by omega)) fun parentId => ?_
    exact run_unless_ne_none (run_bind_ne_none (hat 53 (by omega)) fun flags => nofun)
  · rw [parseBytes, if_pos hlen]
    exact nofun

/-- What is read is not zero and is printed as the text that was read. -/
theorem parseBytes_iff {bytes : Bytes} {p : TraceParent} :
    (parseBytes bytes).run = some (some p) ↔ p.NonZero ∧ bytes = p.text.bytes := by
  rw [parseBytes, run_unless_iff, not_not]
  constructor
  · rintro ⟨hlen, hrun⟩
    simp only [run_bind_iff, run_unless_iff, not_or, not_not] at hrun
    obtain ⟨_, hfirst, _, hsecond, _, hthird, ⟨rfl, rfl, rfl⟩, _, hversion, rfl, traceId, htrace, parentId, hparent,
      hzero, flags, hflags, hp⟩ := hrun
    obtain rfl : (⟨traceId, parentId, flags⟩ : TraceParent) = p := Option.some.inj (Option.some.inj hp)
    refine ⟨hzero, ?_⟩
    rw [byteOf_run (by omega), Option.some_inj, Option.some_inj] at hfirst hsecond hthird
    rw [byteAt_iff (by omega)] at hversion hflags
    rw [idAt_iff (by omega)] at htrace hparent
    rw [bytes_text, ← hversion, ← htrace, ← hparent, ← hflags]
    have hfields := eq_fields hlen
    rwa [hfirst, hsecond, hthird] at hfields
  · rintro ⟨hzero, htext⟩
    have hlen : bytes.length = 55 := htext ▸ length_text p
    have hfields := eq_fields hlen
    conv_lhs at hfields => rw [htext, bytes_text]
    have hlength : ∀ start n, start + n ≤ 55 → ((bytes.drop start).take n).length = n := fun start n h => by
      rw [List.length_take, List.length_drop]
      omega
    obtain ⟨hversion, hrest⟩ := List.append_inj hfields (by rw [length_traceHex, hlength 0 2 (by omega)]; rfl)
    obtain ⟨hfirst, hrest⟩ := List.cons.inj hrest
    obtain ⟨htrace, hrest⟩ := List.append_inj hrest (by
      rw [length_traceHex, hlength 3 _ (by omega), p.traceId.property])
    obtain ⟨hsecond, hrest⟩ := List.cons.inj hrest
    obtain ⟨hparent, hrest⟩ := List.append_inj hrest (by
      rw [length_traceHex, hlength 36 _ (by omega), p.parentId.property])
    obtain ⟨hthird, hflags⟩ := List.cons.inj hrest
    refine ⟨hlen, ?_⟩
    simp only [run_bind_iff, run_unless_iff, not_or, not_not]
    exact ⟨_, byteOf_run (by omega), _, byteOf_run (by omega), _, byteOf_run (by omega),
      ⟨hfirst.symm, hsecond.symm, hthird.symm⟩, 0, (byteAt_iff (by omega)).mpr hversion.symm, rfl,
      p.traceId, (idAt_iff (by omega)).mpr htrace.symm, p.parentId, (idAt_iff (by omega)).mpr hparent.symm, hzero,
      p.flags, (byteAt_iff (by omega)).mpr hflags.symm, rfl⟩

/-! ### Texts -/

theorem TraceParent.parse_iff {s : Str} {p : TraceParent} :
    TraceParent.parse s = some (some p) ↔ p.NonZero ∧ s.trim = p.text := by
  rw [TraceParent.parse, parseBytes_iff, Str.bytes_injective.eq_iff]

theorem mem_traceHex {bytes : Bytes} {c : Char} (h : c ∈ traceHex bytes) : c ∈ traceDigits := by
  obtain ⟨byte, -, hc⟩ := List.mem_flatMap.mp h
  have hlt := halves_lt byte
  have hdigit : ∀ v < 16, traceDigits.getD v '0' ∈ traceDigits := by decide
  rcases List.mem_cons.mp hc with rfl | hc
  · exact hdigit _ hlt.1
  · obtain rfl := List.mem_singleton.mp hc
    exact hdigit _ hlt.2

theorem mem_text {p : TraceParent} {c : Char} (h : c ∈ p.text) : c ∈ '-' :: traceDigits := by
  have hopening : ∀ c ∈ "00-".toList, c ∈ '-' :: traceDigits := by decide
  simp only [TraceParent.text, twoDigits_eq, List.mem_append, List.mem_cons] at h
  rcases h with h | h | rfl | h | rfl | h
  · exact hopening c h
  · exact List.mem_cons_of_mem _ (mem_traceHex h)
  · exact List.mem_cons_self
  · exact List.mem_cons_of_mem _ (mem_traceHex h)
  · exact List.mem_cons_self
  · exact List.mem_cons_of_mem _ (mem_traceHex h)

theorem trim_text (p : TraceParent) : p.text.trim = p.text := by
  have hspace : ∀ c ∈ '-' :: traceDigits, Str.isWhiteSpace c = false := by decide
  have hkeep : ∀ {s : Str}, (∀ c ∈ s, c ∈ p.text) → s.dropWhile Str.isWhiteSpace = s := by
    intro s hs
    cases s with
    | nil => rfl
    | cons c s => rw [List.dropWhile_cons, hspace c (mem_text (hs c List.mem_cons_self)), if_neg Bool.false_ne_true]
  rw [Str.trim, hkeep fun c hc => hc, hkeep fun c hc => List.mem_reverse.mp hc, List.reverse_reverse]

theorem parse_text {p : TraceParent} (h : p.NonZero) : TraceParent.parse p.text = some (some p) :=
  TraceParent.parse_iff.mpr ⟨h, trim_text p⟩

theorem toHeaderValue_eq (p : TraceParent) : p.toHeaderValue = p.text ∧ headerToStr p.text = some p.text := by
  have hvisible : ∀ c ∈ '-' :: traceDigits, Http.Visible c := by decide
  have hread := Http.headerToStr_of_readable fun c hc => hvisible c (mem_text (p := p) hc)
  rw [TraceParent.toHeaderValue, hread]
  exact ⟨rfl, rfl⟩

/-! ### Handing on -/

/-- `TraceContext::from_headers`, with what `fill_unique` gives; `none` is a panic. -/
def TraceContext.fromHeaders (headers : HeaderMap Str) (fresh : ByteArr 24) : Option TraceContext :=
  let root : TraceContext := ⟨.root fresh, none, false, nonZero_root fresh⟩
  match (headers.getAll traceparent).head?.bind headerToStr with
  | none => some root
  | some value =>
    match h : TraceParent.parse value with
    | none => none
    | some none => some root
    | some (some parent) =>
      let state := ((headers.getAll tracestate).head?.bind headerToStr).bind TraceState.parse
      some ⟨parent, state, true, (TraceParent.parse_iff.mp h).1⟩

/-- `outbound_headers`, with what `fill_unique` gives. -/
def TraceContext.outboundHeaders (context : TraceContext) (fresh : ByteArr 8) : HeaderMap Str :=
  let headers := HeaderMap.insert [] traceparent (context.parent.child fresh).toHeaderValue
  match context.state.bind fun state => headerToStr state.text with
  | some value => headers.insert tracestate value
  | none => headers

theorem traceparent_outboundHeaders (context : TraceContext) (fresh : ByteArr 8) :
    (context.outboundHeaders fresh).getAll traceparent = [(context.parent.child fresh).text] := by
  have hapart : ¬ tracestate = traceparent := by decide
  unfold TraceContext.outboundHeaders
  split
  · simp [hapart, (toHeaderValue_eq _).1]
  · simp [(toHeaderValue_eq _).1]

/-- Printing and reading are inverse to one another: what is not zero is read back from its text, and
    what is read has the version 00, is not zero, and is printed as the text that was read. No text
    panics. What a context hands on is read by the next service, with the same trace and flags. -/
theorem traceparent_canonical :
    (∀ p : TraceParent, p.NonZero → TraceParent.parse p.text = some (some p)) ∧
    (∀ s p, TraceParent.parse s = some (some p) →
      p.text = s.trim ∧ p.NonZero ∧ ∃ fields, s.trim = "00-".toList ++ fields) ∧
    (∀ s, TraceParent.parse s ≠ none) ∧
    ∀ (context : TraceContext) (fresh : ByteArr 8), ∃ value text p,
      (context.outboundHeaders fresh).getAll traceparent = [value] ∧ headerToStr value = some text ∧
      TraceParent.parse text = some (some p) ∧ p.traceId = context.parent.traceId ∧
      p.flags = context.parent.flags := by
  refine ⟨fun p h => parse_text h, ?_, fun s => parseBytes_ne_none _, ?_⟩
  · intro s p h
    obtain ⟨hzero, htrim⟩ := TraceParent.parse_iff.mp h
    exact ⟨htrim.symm, hzero, _, htrim⟩
  · intro context fresh
    exact ⟨_, _, context.parent.child fresh, traceparent_outboundHeaders context fresh, (toHeaderValue_eq _).2,
      parse_text (context.parent_ok.child fresh), rfl, rfl⟩

example : TraceParent.parse "00-0AF7651916CD43DD8448EB211C80319C-b7ad6b7169203331-01".toList = some none := by
  decide +kernel

end Arcature.Observe

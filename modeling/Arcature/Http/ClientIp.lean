import Arcature.Lib.Net

/-! Who a request is from, behind however many proxies (`http/client_ip.rs`).

    Every proxy appends the address it saw to the chain of `X-Forwarded-For`, so the chain is walked
    from the right, past the hops the operator trusts, to the first address that is not one:

        client says   trusted proxies wrote
        9.9.9.9,      203.0.113.9,  10.0.0.2  ◀── peer 10.0.0.1
        never read    the client    a hop

    A hop that cannot be read ends the walk, since nothing to its left was written by a hop known to
    be trusted. The walk itself keeps to that. The reading of the header does not: a line that is
    not visible ASCII is left out of the chain as a whole, and the walk goes on past it. -/

namespace Arcature.Http
open Arcature.Lib

/-! ### Trusted hops -/

/-- The number of bits in an address of a family. -/
def width : IpAddr → ℕ
  | .v4 _ => 32
  | .v6 _ => 128

/-- An address with everything below `bits` cleared. -/
def mask : IpAddr → ℕ → IpAddr
  | .v4 v4, bits => .v4 (if bits = 0 then 0 else v4 &&& (BitVec.allOnes 32 <<< (32 - bits)))
  | .v6 v6, bits => .v6 (if bits = 0 then 0 else v6 &&& (BitVec.allOnes 128 <<< (128 - bits)))

/-- An address, or a CIDR block: the network address, masked, and the length of its mask. -/
structure ProxyNet where
  base : IpAddr
  bits : ℕ
  fits : bits ≤ width base
  masked : mask base bits = base
  deriving DecidableEq

/-- Why a block could not be made: its mask is longer than the address. -/
structure PrefixError where
  bits : ℕ
  width : ℕ
  deriving DecidableEq

theorem width_mask (addr : IpAddr) (bits : ℕ) : width (mask addr bits) = width addr := by
  cases addr <;> rfl

theorem mask_mask (addr : IpAddr) (bits : ℕ) : mask (mask addr bits) bits = mask addr bits := by
  cases addr with
  | v4 v4 =>
    by_cases h : bits = 0
    · simp [mask, h]
    · simp [mask, h, BitVec.and_assoc]
  | v6 v6 =>
    by_cases h : bits = 0
    · simp [mask, h]
    · simp [mask, h, BitVec.and_assoc]

theorem mask_width (addr : IpAddr) : mask addr (width addr) = addr := by
  cases addr with
  | v4 v4 =>
    rw [mask, width, if_neg (by omega), Nat.sub_self, BitVec.shiftLeft_zero, BitVec.and_allOnes]
  | v6 v6 =>
    rw [mask, width, if_neg (by omega), Nat.sub_self, BitVec.shiftLeft_zero, BitVec.and_allOnes]

namespace ProxyNet

/-- A block of `bits` around `base`; host bits are cleared. -/
def new (base : IpAddr) (bits : ℕ) : Except PrefixError ProxyNet :=
  let base := base.toCanonical
  if h : bits ≤ width base then
    .ok ⟨mask base bits, bits, by rwa [width_mask], mask_mask base bits⟩
  else .error ⟨bits, width base⟩

/-- A block of exactly one address. -/
def host (addr : IpAddr) : ProxyNet :=
  let base := addr.toCanonical
  ⟨base, width base, le_rfl, mask_width base⟩

/-- Whether an address falls inside the block. -/
def contains (net : ProxyNet) (addr : IpAddr) : Bool :=
  let addr := addr.toCanonical
  if width net.base ≠ width addr then false else mask addr net.bits = net.base

end ProxyNet

/-- The hops whose forwarding headers are believed. -/
abbrev TrustedProxies := List ProxyNet

/-- Whether an address is one of the trusted hops. -/
def TrustedProxies.contains (trusted : TrustedProxies) (addr : IpAddr) : Bool :=
  trusted.any fun net => net.contains addr

/-! ### The chain -/

/-- `HeaderValue::to_str`: the text of a line of visible ASCII and tabs. -/
def toStr (line : Bytes) : Option Str :=
  if line.all fun b => (0x20 ≤ b && b < 0x7f) || b == 0x09 then
    some (line.map fun b => Char.ofNat b.toNat)
  else none

/-- Read one entry of the chain: an address, with a port, in brackets. -/
def parseForwarded (entry : Str) : Option IpAddr :=
  let entry := entry.trim
  if entry = [] then none
  else
    match parseIpAddr entry with
    | some addr => some addr.toCanonical
    | none =>
      match parseSocketAddr entry with
      | some addr => some addr.toCanonical
      | none =>
        (Str.stripPrefix ['['] entry).bind fun rest =>
          if rest.getLast? = some ']' then (parseIpAddr rest.dropLast).map IpAddr.toCanonical else none

/-- The entries of all lines that can be read as text, in order. -/
def chain (lines : List Bytes) : List Str := (lines.filterMap toStr).flatMap (List.splitOn ',')

/-- The walk over the chain from its right end: `nearest` is the address accepted so far. -/
def walk (trusted : TrustedProxies) (nearest : IpAddr) : List Str → IpAddr
  | [] => nearest
  | entry :: rest =>
    match parseForwarded entry with
    | none => nearest
    | some addr => if trusted.contains addr then walk trusted addr rest else addr

/-- Resolve the client address from the peer and the lines of the forwarding header. -/
def ClientIp.resolve (peer : IpAddr) (lines : List Bytes) (trusted : TrustedProxies) : IpAddr :=
  let peer := peer.toCanonical
  if !trusted.contains peer then peer else walk trusted peer (chain lines).reverse

/-! ### The chain as it was sent -/

/-- The entries of every line, whether they can be read or not. -/
def entries (lines : List Bytes) : List Bytes := lines.flatMap (List.splitOn 0x2c)

/-- An entry as an address, if it is one. -/
def readEntry (entry : Bytes) : Option IpAddr := (toStr entry).bind parseForwarded

/-- An entry that is the address of a trusted hop. -/
def Hop (trusted : TrustedProxies) (entry : Bytes) : Prop :=
  ∃ addr, readEntry entry = some addr ∧ trusted.contains addr = true

instance (trusted : TrustedProxies) : DecidablePred (Hop trusted) := fun entry =>
  decidable_of_iff ((readEntry entry).any trusted.contains = true) (by simp [Hop, Option.any_eq_true])

/-- Two chains that are the same from an entry rightwards that is no trusted hop. -/
def Agree (trusted : TrustedProxies) (lines lines' : List Bytes) : Prop :=
  ∃ entry left left' right, ¬ Hop trusted entry ∧
    entries lines = left ++ entry :: right ∧ entries lines' = left' ++ entry :: right

/-- An address that stands in the chain with nothing but trusted hops to its right. -/
def Vouched (trusted : TrustedProxies) (lines : List Bytes) (addr : IpAddr) : Prop :=
  ∃ left entry right, entries lines = left ++ entry :: right ∧ readEntry entry = some addr ∧
    ∀ e ∈ right, Hop trusted e

/-- Of a line and the lines behind it: the rightmost entry that is no trusted hop is in this line. -/
structure Stops (trusted : TrustedProxies) (line : Bytes) (back : List Bytes) : Prop where
  here : ∃ e ∈ line.splitOn 0x2c, ¬ Hop trusted e
  behind : ∀ e ∈ entries back, Hop trusted e

/-- The line the walk has to stop in can be read. -/
def Legible (trusted : TrustedProxies) (lines : List Bytes) : Prop :=
  ∀ front line back, lines = front ++ line :: back → Stops trusted line back → (toStr line).isSome

section walk
variable {trusted : TrustedProxies}

theorem entries_append (l m : List Bytes) : entries (l ++ m) = entries l ++ entries m :=
  List.flatMap_append

theorem entries_cons (line : Bytes) (l : List Bytes) :
    entries (line :: l) = line.splitOn 0x2c ++ entries l :=
  List.flatMap_cons

/-- `walk` over what the entries read as. -/
def climb (trusted : TrustedProxies) (nearest : IpAddr) : List (Option IpAddr) → IpAddr
  | some addr :: rest => if trusted.contains addr then climb trusted addr rest else addr
  | _ => nearest

theorem walk_eq_climb (nearest : IpAddr) (l : List Str) :
    walk trusted nearest l = climb trusted nearest (l.map parseForwarded) := by
  induction l generalizing nearest with
  | nil => rfl
  | cons entry l ih =>
    rw [walk, List.map_cons]
    cases parseForwarded entry with
    | none => rfl
    | some addr => simp only [climb, ih]

/-- Nothing behind an entry that is no hop is looked at. -/
theorem climb_stop {entry : Bytes} (h : ¬ Hop trusted entry) (nearest : IpAddr)
    (l rest : List (Option IpAddr)) :
    climb trusted nearest (l ++ readEntry entry :: rest) =
      climb trusted nearest (l ++ [readEntry entry]) := by
  induction l generalizing nearest with
  | nil =>
    cases hread : readEntry entry with
    | none => rfl
    | some addr =>
      have hnot : ¬ trusted.contains addr = true := fun hin => h ⟨addr, hread, hin⟩
      simp [climb, hnot]
  | cons o l ih =>
    cases o with
    | none => rfl
    | some addr => simp only [List.cons_append, climb, ih]

/-- `climb_stop`, from the side the chain is written from. -/
theorem climb_cut {entry : Bytes} (h : ¬ Hop trusted entry) (nearest : IpAddr)
    (left right : List (Option IpAddr)) :
    climb trusted nearest (left ++ readEntry entry :: right).reverse =
      climb trusted nearest (readEntry entry :: right).reverse := by
  simp only [List.reverse_append, List.reverse_cons, List.append_assoc, List.singleton_append]
  exact climb_stop h nearest _ _

/-- Trusted hops are walked past. -/
theorem climb_hops (nearest addr : IpAddr) {l : List Bytes} (h : ∀ e ∈ l, Hop trusted e) :
    climb trusted nearest (l.map readEntry ++ [some addr]) = addr := by
  induction l generalizing nearest with
  | nil => simp [climb]
  | cons e l ih =>
    obtain ⟨hop, hread, hin⟩ := h e List.mem_cons_self
    rw [List.map_cons, List.cons_append, hread, climb, if_pos hin]
    exact ih hop fun e he => h e (List.mem_cons_of_mem _ he)

/-- What the walk arrives at: where it started, or an entry behind nothing but hops. -/
theorem climb_vouched (nearest : IpAddr) (l : List Bytes) :
    climb trusted nearest (l.map readEntry) = nearest ∨
      ∃ hops entry rest, l = hops ++ entry :: rest ∧
        readEntry entry = some (climb trusted nearest (l.map readEntry)) ∧
        ∀ e ∈ hops, Hop trusted e := by
  induction l generalizing nearest with
  | nil => exact Or.inl rfl
  | cons e l ih =>
    cases hread : readEntry e with
    | none => exact Or.inl (by rw [List.map_cons, hread, climb]; simp)
    | some addr =>
      right
      rw [List.map_cons, hread, climb]
      split_ifs with hin
      · rcases ih addr with hsame | ⟨hops, entry, rest, rfl, hentry, hhops⟩
        · exact ⟨[], e, l, rfl, by rw [hsame, hread], by simp⟩
        · refine ⟨e :: hops, entry, rest, rfl, hentry, ?_⟩
          intro e' he'
          rcases List.mem_cons.mp he' with rfl | he'
          · exact ⟨addr, hread, hin⟩
          · exact hhops e' he'
      · exact ⟨[], e, l, rfl, hread, by simp⟩

end walk

/-! ### Lines that can be read and lines that cannot -/

section lines
variable {trusted : TrustedProxies}

theorem comma_iff (b : UInt8) : (Char.ofNat b.toNat == ',') = (b == 0x2c) := by
  have hall : ∀ n : Fin 256, (Char.ofNat n == ',') = (UInt8.ofNat n == 0x2c) := by decide +kernel
  simpa using hall ⟨b.toNat, b.toNat_lt⟩

theorem toStr_isSome {line : Bytes} :
    (toStr line).isSome ↔ ∀ b ∈ line, (0x20 ≤ b ∧ b < 0x7f) ∨ b = 0x09 := by
  unfold toStr
  split_ifs with h
  · simpa using h
  · simpa using h

/-- The text of a line falls into the texts of its entries. -/
theorem map_splitOn_toStr {line : Bytes} {text : Str} (h : toStr line = some text) :
    (text.splitOn ',').map parseForwarded = (line.splitOn 0x2c).map readEntry := by
  have hvisible : (toStr line).isSome := Option.isSome_of_mem h
  rw [toStr_isSome] at hvisible
  have htext : ∀ l : Bytes, l.Sublist line → toStr l = some (l.map fun b => Char.ofNat b.toNat) := by
    intro l hl
    have hsome : (toStr l).isSome := by
      rw [toStr_isSome]
      exact fun b hb => hvisible b (hl.subset hb)
    unfold toStr at hsome ⊢
    split_ifs at hsome ⊢
    · rfl
    · simp at hsome
  rw [htext line (List.Sublist.refl line), Option.some_inj] at h
  rw [← h, Str.splitOn_map fun b _ => comma_iff b, List.map_map]
  refine List.map_congr_left fun entry hentry => ?_
  rw [readEntry, htext entry (Str.sublist_of_mem_splitOn hentry)]
  rfl

/-- A line of hops can be read. -/
theorem isSome_of_hops {line : Bytes} (h : ∀ e ∈ line.splitOn 0x2c, Hop trusted e) :
    (toStr line).isSome := by
  rw [toStr_isSome]
  intro b hb
  by_cases hcomma : b = 0x2c
  · subst hcomma
    exact Or.inl (by decide)
  · obtain ⟨e, he, hbe⟩ := (Str.mem_splitOn hcomma line).mpr hb
    obtain ⟨addr, hread, -⟩ := h e he
    have hsome : (toStr e).isSome := by
      cases htext : toStr e with
      | none => simp [readEntry, htext] at hread
      | some text => rfl
    rw [toStr_isSome] at hsome
    exact hsome b hbe

theorem chain_append (l m : List Bytes) : chain (l ++ m) = chain l ++ chain m := by
  simp [chain]

theorem map_chain_singleton {line : Bytes} (h : (toStr line).isSome) :
    (chain [line]).map parseForwarded = (line.splitOn 0x2c).map readEntry := by
  obtain ⟨text, htext⟩ := Option.isSome_iff_exists.mp h
  simpa [chain, htext] using map_splitOn_toStr htext

/-- Lines of hops are read as they were sent. -/
theorem map_chain_of_hops {lines : List Bytes} (h : ∀ e ∈ entries lines, Hop trusted e) :
    (chain lines).map parseForwarded = (entries lines).map readEntry := by
  induction lines with
  | nil => rfl
  | cons line lines ih =>
    rw [entries_cons] at h
    have hline := isSome_of_hops fun e he => h e (List.mem_append_left _ he)
    have htail := ih fun e he => h e (List.mem_append_right _ he)
    rw [← List.singleton_append, chain_append, List.map_append, map_chain_singleton hline, htail,
      List.singleton_append, entries_cons, List.map_append]

/-- Either all the chain is hops, or there is a line the walk has to stop in. -/
theorem hops_or_stops (lines : List Bytes) :
    (∀ e ∈ entries lines, Hop trusted e) ∨
      ∃ front line back, lines = front ++ line :: back ∧ Stops trusted line back := by
  induction lines with
  | nil => exact Or.inl (by simp [entries])
  | cons line lines ih =>
    rcases ih with hhops | ⟨front, stop, back, rfl, hstops⟩
    · by_cases hline : ∃ e ∈ line.splitOn 0x2c, ¬ Hop trusted e
      · exact Or.inr ⟨[], line, lines, rfl, hline, hhops⟩
      · push Not at hline
        left
        intro e he
        rw [entries_cons, List.mem_append] at he
        exact he.elim (hline e) (hhops e)
    · exact Or.inr ⟨line :: front, stop, back, rfl, hstops⟩

theorem Stops.split {line : Bytes} {back : List Bytes} (h : Stops trusted line back) :
    ∃ e left right, ¬ Hop trusted e ∧ entries (line :: back) = left ++ e :: right := by
  obtain ⟨e, he, hnot⟩ := h.here
  obtain ⟨left, right, hsplit⟩ := List.append_of_mem he
  exact ⟨e, left, right ++ entries back, hnot, by simp [entries_cons, hsplit]⟩

/-- Whatever stands in front of a line the walk stops in, if the line can be read. -/
theorem climb_chain_of_stops {line : Bytes} {back : List Bytes} (hstops : Stops trusted line back)
    (hline : (toStr line).isSome) (nearest : IpAddr) (front : List Bytes) :
    climb trusted nearest ((chain (front ++ line :: back)).map parseForwarded).reverse =
      climb trusted nearest ((entries (line :: back)).map readEntry).reverse := by
  obtain ⟨e, left, right, hnot, hsplit⟩ := hstops.split
  have hread : (chain (front ++ line :: back)).map parseForwarded =
      (chain front).map parseForwarded ++ (entries (line :: back)).map readEntry := by
    rw [List.append_cons, chain_append, chain_append, List.map_append, List.map_append,
      map_chain_singleton hline, map_chain_of_hops hstops.behind, entries_cons, List.map_append,
      List.append_assoc]
  rw [hread, hsplit, List.map_append, List.map_cons, ← List.append_assoc, climb_cut hnot,
    climb_cut hnot]

/-- A chain whose line to stop in can be read resolves as it was sent. -/
theorem climb_chain_of_legible {lines : List Bytes} (h : Legible trusted lines) (nearest : IpAddr) :
    climb trusted nearest ((chain lines).map parseForwarded).reverse =
      climb trusted nearest ((entries lines).map readEntry).reverse := by
  rcases @hops_or_stops trusted lines with hhops | ⟨front, line, back, rfl, hstops⟩
  · rw [map_chain_of_hops hhops]
  · obtain ⟨e, left, right, hnot, hsplit⟩ := hstops.split
    rw [climb_chain_of_stops hstops (h front line back rfl hstops), entries_append, hsplit,
      ← List.append_assoc]
    simp only [List.map_append, List.map_cons, climb_cut hnot]

/-- With a line in front of it the walk does not stop in, it goes on to what stands there. -/
theorem climb_chain_of_illegible {line : Bytes} {back : List Bytes} (hstops : Stops trusted line back)
    (hline : ¬ (toStr line).isSome) (nearest : IpAddr) {entry : Bytes} {addr : IpAddr}
    (hentry : (chain [entry]).map parseForwarded = [some addr]) :
    climb trusted nearest ((chain ([entry] ++ line :: back)).map parseForwarded).reverse = addr := by
  have hdropped : chain [line] = [] := by
    rw [Option.not_isSome_iff_eq_none] at hline
    simp [chain, hline]
  rw [List.append_cons, chain_append, chain_append, hdropped, List.append_nil, List.map_append,
    map_chain_of_hops hstops.behind, hentry, List.reverse_append, ← List.map_reverse]
  exact climb_hops nearest addr fun e he => hstops.behind e (List.mem_reverse.mp he)

end lines

/-! ### What the client can influence -/

/-- Nothing left of the line the walk stops in is looked at, exactly when the line can be read. -/
theorem resolve_front_iff (peer : IpAddr) (trusted : TrustedProxies) {line : Bytes}
    {back : List Bytes} (hstops : Stops trusted line back) :
    (∀ front front', ClientIp.resolve peer (front ++ line :: back) trusted =
        ClientIp.resolve peer (front' ++ line :: back) trusted) ↔
      trusted.contains peer.toCanonical = false ∨ (toStr line).isSome := by
  cases hpeer : trusted.contains peer.toCanonical with
  | false => simp [ClientIp.resolve, hpeer]
  | true =>
    simp only [ClientIp.resolve, hpeer, Bool.not_true, Bool.false_eq_true, if_false, walk_eq_climb,
      List.map_reverse, Bool.true_eq_false, false_or]
    constructor
    · intro hsame
      by_contra hline
      have hzero : (chain [Str.bytes "0.0.0.0".toList]).map parseForwarded = [some (.v4 0)] := by
        decide +kernel
      have hone : (chain [Str.bytes "0.0.0.1".toList]).map parseForwarded = [some (.v4 1)] := by
        decide +kernel
      have h := hsame [Str.bytes "0.0.0.0".toList] [Str.bytes "0.0.0.1".toList]
      rw [climb_chain_of_illegible hstops hline _ hzero,
        climb_chain_of_illegible hstops hline _ hone] at h
      exact absurd h (by decide)
    · intro hline front front'
      rw [climb_chain_of_stops hstops hline, climb_chain_of_stops hstops hline]

/-- A peer that is no trusted hop, or a chain whose line to stop in can be read. -/
def Settled (peer : IpAddr) (trusted : TrustedProxies) (lines : List Bytes) : Prop :=
  trusted.contains peer.toCanonical = false ∨ Legible trusted lines

theorem resolve_of_settled {peer : IpAddr} {trusted : TrustedProxies} {lines : List Bytes}
    (h : Settled peer trusted lines) :
    ClientIp.resolve peer lines trusted =
      if trusted.contains peer.toCanonical then
        climb trusted peer.toCanonical ((entries lines).map readEntry).reverse
      else peer.toCanonical := by
  cases hpeer : trusted.contains peer.toCanonical with
  | false => simp [ClientIp.resolve, hpeer]
  | true =>
    have hlegible : Legible trusted lines := h.resolve_left (by simp [hpeer])
    simp only [ClientIp.resolve, hpeer, walk_eq_climb, List.map_reverse,
      climb_chain_of_legible hlegible, Bool.not_true, Bool.false_eq_true, if_false, if_true]

/-- Who a request is from does not depend on anything left of an entry that is no trusted hop, and is
    the peer or an address with only trusted hops to its right, for lines of which the one the walk
    has to stop in can be read; of any other line there is a front that shows. -/
theorem resolve_ignores_left (peer : IpAddr) (trusted : TrustedProxies) :
    (trusted.contains peer.toCanonical = false →
      ∀ lines, ClientIp.resolve peer lines trusted = peer.toCanonical) ∧
    (∀ lines lines', Agree trusted lines lines' → Settled peer trusted lines →
      Settled peer trusted lines' →
        ClientIp.resolve peer lines trusted = ClientIp.resolve peer lines' trusted) ∧
    (∀ lines, Settled peer trusted lines →
      ClientIp.resolve peer lines trusted = peer.toCanonical ∨
        Vouched trusted lines (ClientIp.resolve peer lines trusted)) ∧
    ∀ line back, Stops trusted line back →
      ((∀ front front', ClientIp.resolve peer (front ++ line :: back) trusted =
          ClientIp.resolve peer (front' ++ line :: back) trusted) ↔
        trusted.contains peer.toCanonical = false ∨ (toStr line).isSome) := by
  refine ⟨?_, ?_, ?_, fun line back hstops => resolve_front_iff peer trusted hstops⟩
  · intro hpeer lines
    simp [ClientIp.resolve, hpeer]
  · rintro lines lines' ⟨entry, left, left', right, hnot, hlines, hlines'⟩ h h'
    rw [resolve_of_settled h, resolve_of_settled h', hlines, hlines']
    simp only [List.map_append, List.map_cons, climb_cut hnot]
  · intro lines h
    rw [resolve_of_settled h]
    split_ifs
    · rw [← List.map_reverse]
      rcases climb_vouched peer.toCanonical (entries lines).reverse with
        hpeer | ⟨hops, entry, rest, hsplit, hread, hhops⟩
      · exact Or.inl hpeer
      · refine Or.inr ⟨rest.reverse, entry, hops.reverse, ?_, hread, ?_⟩
        · simpa using congrArg List.reverse hsplit
        · intro e he
          exact hhops e (List.mem_reverse.mp he)
    · exact Or.inl rfl

/-- `10.0.0.0/8`. -/
def internal : ProxyNet := ⟨.v4 0x0a000000#32, 8, by decide, by decide⟩

theorem legible_of_readable {trusted : TrustedProxies} {lines : List Bytes}
    (h : ∀ line ∈ lines, (toStr line).isSome) : Legible trusted lines := by
  rintro front line back rfl -
  exact h line (by simp)

/-- What the client says in front of its own address is not read. -/
theorem resolve_ignores_left_forged :
    ClientIp.resolve (.v4 0x0a000001#32)
        [Str.bytes "9.9.9.9,203.0.113.9".toList, Str.bytes "10.0.0.2".toList] [internal] =
      ClientIp.resolve (.v4 0x0a000001#32) [Str.bytes "203.0.113.9,10.0.0.2".toList] [internal] := by
  have hreadable : ∀ lines : List Bytes, (∀ line ∈ lines, (toStr line).isSome) →
      Settled (.v4 0x0a000001#32) [internal] lines :=
    fun lines h => Or.inr (legible_of_readable h)
  refine (resolve_ignores_left (.v4 0x0a000001#32) [internal]).2.1 _ _ ?_
    (hreadable _ (by decide +kernel)) (hreadable _ (by decide +kernel))
  exact ⟨Str.bytes "203.0.113.9".toList, [Str.bytes "9.9.9.9".toList], [],
    [Str.bytes "10.0.0.2".toList], by decide +kernel, by decide +kernel, by decide +kernel⟩

/-- A line that is not text does not stop the walk: the client is whoever the line in front names. -/
theorem resolve_past_unreadable :
    Agree [internal] [Str.bytes "1.2.3.4".toList, [0xff]] [Str.bytes "5.6.7.8".toList, [0xff]] ∧
    ClientIp.resolve (.v4 0x0a000001#32) [Str.bytes "1.2.3.4".toList, [0xff]] [internal] =
      .v4 0x01020304#32 ∧
    ClientIp.resolve (.v4 0x0a000001#32) [Str.bytes "5.6.7.8".toList, [0xff]] [internal] =
      .v4 0x05060708#32 := by
  refine ⟨⟨[0xff], [Str.bytes "1.2.3.4".toList], [Str.bytes "5.6.7.8".toList], [], ?_⟩, ?_⟩
  · decide +kernel
  · decide +kernel

end Arcature.Http

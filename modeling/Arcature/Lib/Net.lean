import Arcature.Lib.Framing

/-! IP addresses of both families, their octets, and the canonical form that folds an IPv4-mapped
    IPv6 address onto the IPv4 address it stands for; and the standard library's reader of addresses
    and socket addresses, as functions from text to what was read and what is left. A reader that
    fails has read nothing. -/

namespace Arcature.Lib

/-- An address of either family. -/
inductive IpAddr where
  | v4 (bits : BitVec 32)
  | v6 (bits : BitVec 128)
  deriving DecidableEq

namespace IpAddr

/-- `to_canonical`: `::ffff:a.b.c.d` is `a.b.c.d`. -/
def toCanonical : IpAddr → IpAddr
  | v4 bits => v4 bits
  | v6 bits => if bits >>> 32 = 0xffff then v4 (bits.truncate 32) else v6 bits

/-- `octets()`, most significant first. -/
def octets : IpAddr → Bytes
  | v4 bits => beBytes 4 bits.toNat
  | v6 bits => beBytes 16 bits.toNat

@[simp] theorem toCanonical_v4 (bits : BitVec 32) : toCanonical (v4 bits) = v4 bits := rfl

theorem v4_octets_inj {a b : BitVec 32} (h : (v4 a).octets = (v4 b).octets) : a = b := by
  have := mod_eq_of_beBytes h
  have := a.isLt
  have := b.isLt
  exact BitVec.eq_of_toNat_eq (by omega)

theorem v6_octets_inj {a b : BitVec 128} (h : (v6 a).octets = (v6 b).octets) : a = b := by
  have := mod_eq_of_beBytes h
  have := a.isLt
  have := b.isLt
  exact BitVec.eq_of_toNat_eq (by omega)

end IpAddr

/-! ### Reading addresses -/

/-- `char::to_digit`. -/
def toDigit (radix : ℕ) (c : Char) : Option ℕ :=
  let n := c.toNat
  let digit :=
    if 48 ≤ n ∧ n ≤ 57 then some (n - 48)
    else if 97 ≤ n ∧ n ≤ 122 then some (n - 87)
    else if 65 ≤ n ∧ n ≤ 90 then some (n - 55)
    else none
  digit.filter fun d => d < radix

/-- `read_given_char`. -/
def readGivenChar (target : Char) : Str → Option Str
  | c :: rest => if c = target then some rest else none
  | [] => none

/-- `read_separator`: a separator in front of every item but the first. -/
def readSeparator {α : Type} (sep : Char) (first : Bool) (inner : Str → Option (α × Str)) (s : Str) :
    Option (α × Str) :=
  if first then inner s else (readGivenChar sep s).bind inner

/-- `read_number`: all the digits there are, of a number below `bound`. -/
def readNumber (radix : ℕ) (maxDigits : Option ℕ) (allowZeroPrefix : Bool) (bound : ℕ) (s : Str) :
    Option (ℕ × Str) :=
  let digits := s.takeWhile fun c => (toDigit radix c).isSome
  let value := digits.foldl (fun acc c => acc * radix + (toDigit radix c).getD 0) 0
  if digits = [] then none
  else if maxDigits.any fun most => most < digits.length then none
  else if !allowZeroPrefix && digits.head? = some '0' && 1 < digits.length then none
  else if bound ≤ value then none
  else some (value, s.drop digits.length)

/-- `read_ipv4_addr`. -/
def readIpv4Addr (s : Str) : Option (BitVec 32 × Str) := do
  let octet := readNumber 10 (some 3) false (2 ^ 8)
  let (a, s) ← readSeparator '.' true octet s
  let (b, s) ← readSeparator '.' false octet s
  let (c, s) ← readSeparator '.' false octet s
  let (d, s) ← readSeparator '.' false octet s
  some (BitVec.ofNat 32 (a * 2 ^ 24 + b * 2 ^ 16 + c * 2 ^ 8 + d), s)

/-- `read_groups`: up to `limit` groups, the last two of which may be spelled as an IPv4 address. -/
def readGroups : (limit : ℕ) → (first : Bool) → Str → List ℕ × Bool × Str
  | 0, _, s => ([], false, s)
  | limit + 1, first, s =>
    match (if 0 < limit then readSeparator ':' first readIpv4Addr s else none) with
    | some (v4, rest) => ([v4.toNat / 2 ^ 16, v4.toNat % 2 ^ 16], true, rest)
    | none =>
      match readSeparator ':' first (readNumber 16 (some 4) true (2 ^ 16)) s with
      | some (group, rest) =>
        let (groups, v4, rest) := readGroups limit false rest
        (group :: groups, v4, rest)
      | none => ([], false, s)

/-- The address of eight groups. -/
def ofGroups (groups : List ℕ) : BitVec 128 :=
  BitVec.ofNat 128 (groups.foldl (fun acc group => acc * 2 ^ 16 + group) 0)

/-- `read_ipv6_addr`: eight groups, or fewer around one `::`. -/
def readIpv6Addr (s : Str) : Option (BitVec 128 × Str) :=
  let (head, headIpv4, rest) := readGroups 8 true s
  if head.length = 8 then some (ofGroups head, rest)
  else if headIpv4 then none
  else do
    let rest ← readGivenChar ':' rest
    let rest ← readGivenChar ':' rest
    let (tail, _, rest) := readGroups (8 - (head.length + 1)) true rest
    some (ofGroups (head ++ List.replicate (8 - head.length - tail.length) 0 ++ tail), rest)

/-- `read_ip_addr`. -/
def readIpAddr (s : Str) : Option (IpAddr × Str) :=
  match readIpv4Addr s with
  | some (v4, rest) => some (.v4 v4, rest)
  | none => (readIpv6Addr s).map fun (v6, rest) => (.v6 v6, rest)

/-- `read_port`. -/
def readPort (s : Str) : Option Str :=
  (readGivenChar ':' s).bind fun rest => (readNumber 10 none true (2 ^ 16) rest).map Prod.snd

/-- `read_scope_id`, of which nothing is kept; none is read as `0`. -/
def readScopeId (s : Str) : Str :=
  (((readGivenChar '%' s).bind (readNumber 10 none true (2 ^ 32))).map Prod.snd).getD s

/-- `read_socket_addr`: the address of it. -/
def readSocketAddr (s : Str) : Option (IpAddr × Str) :=
  let v4 := do
    let (v4, rest) ← readIpv4Addr s
    let rest ← readPort rest
    some (IpAddr.v4 v4, rest)
  let v6 := do
    let rest ← readGivenChar '[' s
    let (v6, rest) ← readIpv6Addr rest
    let rest ← readGivenChar ']' (readScopeId rest)
    let rest ← readPort rest
    some (IpAddr.v6 v6, rest)
  v4 <|> v6

/-- `parse_with`: what was read, if nothing is left. -/
def parseWith {α : Type} (read : Str → Option (α × Str)) (s : Str) : Option α :=
  match read s with
  | some (a, []) => some a
  | _ => none

/-- `str::parse::<IpAddr>`. -/
def parseIpAddr (s : Str) : Option IpAddr := parseWith readIpAddr s

/-- `str::parse::<SocketAddr>`, of which the address is kept. -/
def parseSocketAddr (s : Str) : Option IpAddr := parseWith readSocketAddr s

end Arcature.Lib

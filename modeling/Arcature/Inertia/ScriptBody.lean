import Arcature.Lib.JsonText

/-! The page payload inside its script element.

    The serialized page stands in the document as the text of a `<script>`, where neither a tag nor a comment
    may start. The escaper rewrites four characters, each into what a JSON string may hold in its place, and
    leaves a text without them as it is:

        serialized   {"html":"</script>","q":"a&b \"c\""}
        escaped      {"html":"\u003c\/script\u003e","q":"a\u0026b \"c\""}

    None of the four stands outside of a string, nor inside of an escape that the serializer has written, so
    the escaper changes the spelling of characters only, and every spelling is read back as its character.
    The serializer is a parameter: how it spells the characters of strings. -/

namespace Arcature.Inertia
open Arcature.Lib Arcature.Lib.JsonText

/-! ### The escaper -/

/-- What a character is replaced by. -/
def escapeChar : Char → Str
  | '<' => "\\u003c".toList
  | '>' => "\\u003e".toList
  | '&' => "\\u0026".toList
  | '/' => "\\/".toList
  | other => [other]

/-- A text for the inside of a `<script>`; the fast path asks for bytes, the slow one rewrites characters. -/
def escapeScriptBody (json : Str) : Str :=
  if json.bytes.all (fun b => b != 0x3c && b != 0x3e && b != 0x26 && b != 0x2f) then json
  else json.flatMap escapeChar

/-- The characters that the escaper rewrites. -/
def scriptSpecials : List Char := ['<', '>', '&', '/']

theorem mem_scriptSpecials {c : Char} : c ∈ scriptSpecials ↔ c = '<' ∨ c = '>' ∨ c = '&' ∨ c = '/' := by
  simp [scriptSpecials]

theorem escapeChar_of_notMem {c : Char} (h : c ∉ scriptSpecials) : escapeChar c = [c] := by
  rw [mem_scriptSpecials] at h
  push Not at h
  obtain ⟨hlt, hgt, hamp, hslash⟩ := h
  rw [escapeChar.eq_def]
  split <;> first | contradiction | rfl

theorem flatMap_escapeChar_of_notMem {s : Str} (h : ∀ c ∈ s, c ∉ scriptSpecials) : s.flatMap escapeChar = s := by
  rw [List.flatMap_congr fun c hc => escapeChar_of_notMem (h c hc)]
  exact List.flatMap_singleton' s

/-- A special character has its own byte, and no other character has that byte. -/
theorem notMem_of_bytes {json : Str}
    (h : json.bytes.all (fun b => b != 0x3c && b != 0x3e && b != 0x26 && b != 0x2f) = true) :
    ∀ c ∈ json, c ∉ scriptSpecials := by
  intro c hc hspecial
  have hbytes : ∀ b ∈ String.utf8EncodeChar c, b ∈ json.bytes := fun b hb => List.mem_flatMap.mpr ⟨c, hc, hb⟩
  rw [List.all_eq_true] at h
  rcases mem_scriptSpecials.mp hspecial with rfl | rfl | rfl | rfl <;>
    exact absurd (h _ (hbytes _ (List.mem_singleton.mpr rfl))) (by decide)

/-- The fast path returns what the slow path would. -/
theorem escapeScriptBody_eq (json : Str) : escapeScriptBody json = json.flatMap escapeChar := by
  rw [escapeScriptBody]
  split_ifs with hbytes
  · exact (flatMap_escapeChar_of_notMem (notMem_of_bytes hbytes)).symm
  · rfl

/-- Of the special characters only a slash is left, and the backslash of the escaper stands before it. -/
theorem mem_escapeChar {c d : Char} (hd : d ∈ escapeChar c) (hspecial : d ∈ scriptSpecials) :
    c = '/' ∧ d = '/' := by
  rw [escapeChar.eq_def] at hd
  split at hd
  · exact absurd hspecial (by revert d; decide)
  · exact absurd hspecial (by revert d; decide)
  · exact absurd hspecial (by revert d; decide)
  · refine ⟨rfl, ?_⟩
    simp only [String.reduceToList, List.mem_cons, List.not_mem_nil, or_false] at hd
    rcases hd with rfl | rfl
    · exact absurd hspecial (by decide)
    · rfl
  · rename_i hlt hgt hamp hslash
    obtain rfl := List.mem_singleton.mp hd
    rcases mem_scriptSpecials.mp hspecial with rfl | rfl | rfl | rfl <;> contradiction

/-- A place in the result lies in what one character is replaced by. -/
theorem exists_of_flatMap_eq {α β : Type} {f : α → List β} {l : List α} {before behind : List β} {x : β}
    (h : l.flatMap f = before ++ x :: behind) : ∃ a c b p q, l = a ++ c :: b ∧ f c = p ++ x :: q ∧
      before = a.flatMap f ++ p ∧ behind = q ++ b.flatMap f := by
  induction l generalizing before with
  | nil => simp at h
  | cons c l ih =>
    rw [List.flatMap_cons, List.append_eq_append_iff] at h
    rcases h with ⟨before', rfl, hrest⟩ | ⟨piece, hc, hrest⟩
    · obtain ⟨a, d, b, p, q, rfl, hd, rfl, rfl⟩ := ih hrest
      exact ⟨c :: a, d, b, p, q, rfl, hd, by rw [List.flatMap_cons, List.append_assoc], rfl⟩
    · rcases List.cons_eq_append_iff.mp hrest with ⟨rfl, hnext⟩ | ⟨q, rfl, rfl⟩
      · -- the place is the first one behind what `c` is replaced by
        obtain ⟨a, d, b, p, q, rfl, hd, hnil, rfl⟩ := ih (hnext.trans (List.nil_append _).symm)
        obtain ⟨ha, rfl⟩ := List.append_eq_nil_iff.mp hnil.symm
        rw [List.append_nil] at hc
        exact ⟨c :: a, d, b, [], q, rfl, hd, by rw [List.flatMap_cons, ha, hc, List.append_nil, List.append_nil], rfl⟩
      · exact ⟨[], c, l, before, q, rfl, hc, rfl, rfl⟩

/-- Every slash of the result is one of the text, behind the backslash that the escaper wrote for it. -/
theorem slash_of_flatMap_escapeChar {json before behind : Str}
    (h : json.flatMap escapeChar = before ++ '/' :: behind) : ∃ a b, json = a ++ '/' :: b ∧
      before = a.flatMap escapeChar ++ ['\\'] ∧ behind = b.flatMap escapeChar := by
  obtain ⟨a, c, b, p, q, rfl, hc, rfl, rfl⟩ := exists_of_flatMap_eq h
  obtain ⟨rfl, -⟩ := mem_escapeChar (show '/' ∈ escapeChar c by rw [hc]; simp) (by decide)
  have hpair : p = ['\\'] ∧ q = [] := by
    match p, hc with
    | [], hc => exact absurd (List.cons.inj hc).1 (by decide)
    | [d], hc =>
      obtain ⟨rfl, hq⟩ := List.cons.inj hc
      exact ⟨rfl, (List.cons.inj hq).2.symm⟩
    | d :: e :: p, hc =>
      have hlen : 2 = (d :: e :: p ++ '/' :: q).length := congrArg List.length hc
      rw [List.length_append, List.length_cons, List.length_cons, List.length_cons] at hlen
      omega
  obtain ⟨rfl, rfl⟩ := hpair
  exact ⟨a, b, rfl, rfl, rfl⟩

/-! ### The payload -/

section payload

variable {spell : Char → Str}

/-- What is relied on of a compact serializer: it escapes quotes, backslashes and control characters only,
    never with one of the characters that the escaper rewrites, and what it wrote is read back. -/
structure CompactSpelling (spell : Char → Str) : Prop where
  reads : Spells spell
  plain : ∀ c, c ≠ '"' → c ≠ '\\' → 0x20 ≤ c.toNat → spell c = [c]
  escapes : ∀ c, (c = '"' ∨ c = '\\' ∨ c.toNat < 0x20) → ∀ d ∈ spell c, d ∉ scriptSpecials

/-- An escaped spelling is a spelling of the same character. -/
theorem CompactSpelling.spells_escape (h : CompactSpelling spell) :
    Spells fun c => (spell c).flatMap escapeChar := by
  intro c rest
  by_cases hspecial : c ∈ scriptSpecials
  · have hc : c ≠ '"' ∧ c ≠ '\\' ∧ 0x20 ≤ c.toNat := by
      revert c
      decide
    simp only [h.plain c hc.1 hc.2.1 hc.2.2, List.flatMap_singleton]
    rcases mem_scriptSpecials.mp hspecial with rfl | rfl | rfl | rfl <;> rfl
  · have hkept : (spell c).flatMap escapeChar = spell c := by
      refine flatMap_escapeChar_of_notMem fun d hd => ?_
      by_cases hescape : c = '"' ∨ c = '\\' ∨ c.toNat < 0x20
      · exact h.escapes c hescape d hd
      · simp only [not_or, not_lt] at hescape
        rw [h.plain c hescape.1 hescape.2.1 hescape.2.2] at hd
        exact List.mem_singleton.mp hd ▸ hspecial
    simp only [hkept]
    exact h.reads c rest

/-- For every JSON value, embedded as a compact serializer writes it: the text holds no angle bracket and no
    ampersand, every slash is one of the serializer's behind the backslash of the escaper, and it is read
    back as the value. Every text is escaped as the slow path does it. -/
theorem escapeScriptBody_exact (h : CompactSpelling spell) (v : Value) :
    (∀ c ∈ escapeScriptBody (write spell v), c ∉ ['<', '>', '&']) ∧
    (∀ before behind, escapeScriptBody (write spell v) = before ++ '/' :: behind → ∃ a b,
      write spell v = a ++ '/' :: b ∧ before = a.flatMap escapeChar ++ ['\\'] ∧ behind = b.flatMap escapeChar) ∧
    parse (escapeScriptBody (write spell v)) = some v ∧
    escapeScriptBody (write spell v) = (write spell v).flatMap escapeChar := by
  rw [escapeScriptBody_eq]
  refine ⟨fun c hc hspecial => ?_, fun before behind => slash_of_flatMap_escapeChar, ?_, rfl⟩
  · obtain ⟨d, -, hd⟩ := List.mem_flatMap.mp hc
    obtain ⟨-, rfl⟩ := mem_escapeChar hd (List.mem_append_left ['/'] hspecial)
    exact absurd hspecial (by decide)
  · have htokens : ∀ c, isToken c = true → escapeChar c = [c] := by
      intro c hc
      refine escapeChar_of_notMem fun hspecial => ?_
      rcases mem_scriptSpecials.mp hspecial with rfl | rfl | rfl | rfl <;> exact absurd hc (by decide)
    rw [flatMap_write htokens]
    exact parse_write h.spells_escape v

/-- How the compact serializer spells: five control characters by their letters, the others by their code. -/
def jsonSpell (c : Char) : Str :=
  if c = '"' then "\\\"".toList
  else if c = '\\' then "\\\\".toList
  else if 0x20 ≤ c.toNat then [c]
  else match c.toNat with
    | 0x08 => "\\b".toList
    | 0x09 => "\\t".toList
    | 0x0a => "\\n".toList
    | 0x0c => "\\f".toList
    | 0x0d => "\\r".toList
    | n => "\\u00".toList ++ [Nat.digitChar (n / 16), Nat.digitChar (n % 16)]

/-- A control character is one of thirty-two. -/
theorem control_cases {c : Char} (h : c.toNat < 0x20) : ∃ n : Fin 32, c = Char.ofNat n :=
  ⟨⟨c.toNat, h⟩, (Char.ofNat_toNat c).symm⟩

theorem jsonSpell_compact : CompactSpelling jsonSpell where
  reads c rest := by
    rw [jsonSpell]
    split_ifs with hquote hbackslash hc
    · rw [hquote]
      rfl
    · rw [hbackslash]
      rfl
    · rw [List.singleton_append, readChar.eq_def]
      split
      · contradiction
      · rename_i heq
        exact absurd (List.cons.inj heq).1 hbackslash
      · rename_i heq
        exact absurd (List.cons.inj heq).1 hbackslash
      · rename_i heq
        obtain ⟨rfl, rfl⟩ := List.cons.inj heq
        rw [if_neg (by simp only [not_or]; exact ⟨hquote, hbackslash, Nat.not_lt.mpr hc⟩)]
    · obtain ⟨n, rfl⟩ := control_cases (Nat.not_le.mp hc)
      fin_cases n <;> rfl
  plain c hquote hbackslash hc := by rw [jsonSpell, if_neg hquote, if_neg hbackslash, if_pos hc]
  escapes c hc := by
    rcases hc with rfl | rfl | hc
    · decide
    · decide
    · obtain ⟨n, rfl⟩ := control_cases hc
      revert n
      decide

/-- A closing tag in a string, quotes around it, comes back from the payload. -/
theorem closing_tag_read_back :
    parse (escapeScriptBody (write jsonSpell (.string "\"</script>\"".toList))) =
      some (.string "\"</script>\"".toList) :=
  (escapeScriptBody_exact jsonSpell_compact (.string "\"</script>\"".toList)).2.2.1

end payload

end Arcature.Inertia

import Arcature.Lib.Text
import Mathlib.Data.List.DropRight

/-! Paths of bytes, as Unix has them.

    A path is names between slashes. What is read of it are its components: names, `..` for the parent, a
    root before all of them, and `.` only at the very beginning.

        /home//me/./shop/     / home me shop
        ./shop/..             . shop ..

    Joining a path to another puts its names behind those of the other (`components_join`). A path need
    not be UTF-8; read as text in spite of that, it shows a replacement character for each sequence that
    is none, and the bytes of ASCII as they are (`lossy_append`). -/

namespace Arcature.Lib

/-- `Component`. -/
inductive Component where
  | rootDir
  | curDir
  | parentDir
  | normal (name : Bytes)
  deriving DecidableEq

namespace OsPath

/-- The byte of a slash. -/
def slash : UInt8 := 0x2f

/-- The byte of a dot. -/
def dot : UInt8 := 0x2e

/-- The component that stands between two slashes, if one does. -/
def segment (s : Bytes) : Option Component :=
  if s = [] ∨ s = [dot] then none else if s = [dot, dot] then some .parentDir else some (.normal s)

/-- A path that begins at the root. -/
def isAbsolute (path : Bytes) : Bool := path.head? = some slash

/-- The components between slashes. -/
def names (path : Bytes) : List Component := (path.splitOn slash).filterMap segment

/-- What stands before them: the root, or a dot. -/
def opening (path : Bytes) : List Component :=
  if isAbsolute path then [.rootDir] else if (path.splitOn slash).head? = some [dot] then [.curDir] else []

/-- `components`. -/
def components (path : Bytes) : List Component := opening path ++ names path

/-- `join`. -/
def join (path other : Bytes) : Bytes :=
  if isAbsolute other then other
  else if path ≠ [] ∧ path.getLast? ≠ some slash then path ++ slash :: other
  else path ++ other

/-- `file_name`. -/
def fileName (path : Bytes) : Option Bytes :=
  match (components path).getLast? with
  | some (.normal name) => some name
  | _ => none

/-- What stands behind the last dot of a name, if something stands before it. -/
def behindDot (name : Bytes) : Option Bytes :=
  if (name.rdropWhile (· ≠ dot)).length ≤ 1 then none else some (name.rtakeWhile (· ≠ dot))

/-- `extension`. -/
def extension (path : Bytes) : Option Bytes := (fileName path).bind behindDot

/-! ### Text that need not be UTF-8 -/

/-- The bytes that may follow a byte, one after the other; none begins with a byte that may not begin. -/
def follow (b : UInt8) : Option (List (UInt8 → Bool)) :=
  let continues (c : UInt8) : Bool := 0x80 ≤ c && c ≤ 0xbf
  if b < 0x80 then some []
  else if 0xc2 ≤ b && b ≤ 0xdf then some [continues]
  else if b = 0xe0 then some [fun c => 0xa0 ≤ c && c ≤ 0xbf, continues]
  else if b = 0xed then some [fun c => 0x80 ≤ c && c ≤ 0x9f, continues]
  else if 0xe1 ≤ b && b ≤ 0xef then some [continues, continues]
  else if b = 0xf0 then some [fun c => 0x90 ≤ c && c ≤ 0xbf, continues, continues]
  else if 0xf1 ≤ b && b ≤ 0xf3 then some [continues, continues, continues]
  else if b = 0xf4 then some [fun c => 0x80 ≤ c && c ≤ 0x8f, continues, continues]
  else none

/-- How many bytes do follow. -/
def matched : List (UInt8 → Bool) → Bytes → ℕ
  | p :: ps, b :: rest => if p b then matched ps rest + 1 else 0
  | _, _ => 0

/-- The character that bytes come to, or the replacement character. -/
def charOf (b : Bytes) : Char := ((Str.ofBytes? b).bind List.head?).getD '\uFFFD'

/-- `to_string_lossy`. -/
def lossy : Bytes → Str
  | [] => []
  | b :: rest =>
    match follow b with
    | none => '\uFFFD' :: lossy rest
    | some ps =>
      let n := matched ps rest
      (if n = ps.length then charOf (b :: rest.take n) else '\uFFFD') :: lossy (rest.drop n)
termination_by b => b.length

/-- A byte that may follow is not of ASCII. -/
theorem ge_of_follow {b : UInt8} {ps : List (UInt8 → Bool)} (h : follow b = some ps) :
    ∀ p ∈ ps, ∀ c : UInt8, p c = true → 0x80 ≤ c := by
  rw [follow] at h
  intro p hp c hc
  have hle : ∀ {lo hi : UInt8}, 0x80 ≤ lo → (decide (lo ≤ c) && decide (c ≤ hi)) = true → 0x80 ≤ c := by
    intro lo hi hlo hboth
    exact UInt8.le_trans hlo (of_decide_eq_true (Bool.and_eq_true_iff.mp hboth).1)
  split_ifs at h <;> cases h <;> simp only [List.mem_cons, List.not_mem_nil, or_false] at hp
  all_goals rcases hp with rfl | rfl | rfl <;> exact hle (by decide) hc

theorem follow_ascii {x : UInt8} (hx : x < 0x80) : follow x = some [] := if_pos hx

/-- No more bytes follow where a byte of ASCII stands. -/
theorem matched_append {ps : List (UInt8 → Bool)} (h : ∀ p ∈ ps, ∀ c : UInt8, p c = true → 0x80 ≤ c) {x : UInt8}
    (hx : x < 0x80) (a b : Bytes) : matched ps (a ++ x :: b) = matched ps a ∧ matched ps a ≤ a.length := by
  induction ps generalizing a with
  | nil => cases a <;> exact ⟨rfl, Nat.zero_le _⟩
  | cons p ps ih =>
    cases a with
    | nil =>
      refine ⟨?_, Nat.zero_le _⟩
      have hp : p x = false := Bool.eq_false_iff.mpr fun hp =>
        absurd (h p List.mem_cons_self x hp) (UInt8.not_le.mpr hx)
      rw [List.nil_append, matched, hp]
      rfl
    | cons c a =>
      obtain ⟨heq, hle⟩ := ih (fun q hq => h q (List.mem_cons_of_mem _ hq)) a
      rw [List.cons_append, matched, matched, heq]
      refine ⟨rfl, ?_⟩
      split
      · exact Nat.succ_le_succ hle
      · exact Nat.zero_le _

theorem lossy_ascii {x : UInt8} (hx : x < 0x80) (b : Bytes) : lossy (x :: b) = charOf [x] :: lossy b := by
  rw [lossy, follow_ascii hx]
  have hmatched : matched [] b = 0 := by cases b <;> rfl
  simp only [hmatched, List.length_nil, if_true, List.take_zero, List.drop_zero]

/-- Bytes of ASCII are read as they are. -/
theorem lossy_eq_map : ∀ {b : Bytes}, (∀ x ∈ b, x < 0x80) → lossy b = b.map fun x => charOf [x]
  | [], _ => by rw [lossy, List.map_nil]
  | x :: b, h => by
    rw [lossy_ascii (h x List.mem_cons_self), lossy_eq_map fun y hy => h y (List.mem_cons_of_mem _ hy), List.map_cons]

/-- Text is read on both sides of a byte of ASCII, and the byte for itself. -/
theorem lossy_append {x : UInt8} (hx : x < 0x80) (a b : Bytes) :
    lossy (a ++ x :: b) = lossy a ++ charOf [x] :: lossy b := by
  induction hlen : a.length using Nat.strongRecOn generalizing a with
  | ind n ih =>
    cases a with
    | nil => rw [List.nil_append, lossy_ascii hx, lossy, List.nil_append]
    | cons c a =>
      rw [List.cons_append, lossy, lossy]
      cases hc : follow c with
      | none =>
        dsimp only
        rw [ih a.length (by simp [← hlen]) a rfl, List.cons_append]
      | some ps =>
        obtain ⟨heq, hle⟩ := matched_append (ge_of_follow hc) hx a b
        dsimp only
        rw [heq, List.take_append_of_le_length hle, List.drop_append_of_le_length hle,
          ih (a.drop (matched ps a)).length (by simp [← hlen]) _ rfl, List.cons_append]

/-! ### Joining -/

/-- A path behind another stands behind a slash. -/
theorem join_eq {path other : Bytes} (hpath : path ≠ []) (hother : isAbsolute other = false) :
    ∃ front, join path other = front ++ slash :: other ∧ (path = front ∨ path = front ++ [slash]) := by
  rw [join, hother, if_neg Bool.false_ne_true]
  by_cases hlast : path.getLast? = some slash
  · obtain ⟨front, rfl⟩ := List.getLast?_eq_some_iff.mp hlast
    exact ⟨front, by simp, .inr rfl⟩
  · exact ⟨path, if_pos ⟨hpath, hlast⟩, .inl rfl⟩

theorem names_append (a b : Bytes) : names (a ++ slash :: b) = names a ++ names b := by
  rw [names, List.splitOn_append_cons_self, List.filterMap_append, ← names, ← names]

@[simp] theorem names_nil : names [] = [] := rfl

/-- The names of a path stand behind those of the path it is joined to, and nothing else does. -/
theorem components_join {path other : Bytes} (hpath : path ≠ []) (hother : isAbsolute other = false) :
    components (join path other) = components path ++ names other := by
  have hopening : ∀ {front : Bytes} (rest : Bytes), front ≠ [] → opening (front ++ slash :: rest) = opening front := by
    intro front rest hfront
    obtain ⟨c, front, rfl⟩ := List.exists_cons_of_ne_nil hfront
    have hhead : ((c :: front ++ slash :: rest).splitOn slash).head? = ((c :: front).splitOn slash).head? := by
      rw [List.splitOn_append_cons_self, List.head?_append_of_ne_nil _ (List.splitOn_ne_nil _ _)]
    rw [opening, opening, hhead]
    rfl
  obtain ⟨front, hjoin, rfl | rfl⟩ := join_eq hpath hother
  · rw [hjoin, components, components, names_append, hopening _ hpath, List.append_assoc]
  · rw [hjoin, components, components, names_append, names_append, names_nil, List.append_nil, List.append_assoc]
    congr 1
    cases front with
    | nil => rfl
    | cons c front => rw [hopening _ (by simp), hopening _ (by simp)]

end OsPath

end Arcature.Lib

import Arcature.Lib.Decimal

/-! JSON values, with objects that are finite maps.

    Two objects with the same members are the same object, whatever order the members were put in,
    and no object has a member twice. A `Map` holds its key set and one value for each key, so that
    there is nothing else to state about it, and a type may be built with maps of itself in it. What
    an operation does to a map is what `get?` reads afterwards, and a map is what `get?` reads of it
    (`Map.ext`). -/

namespace Arcature.Lib

/-- A finite map. -/
structure Map (κ α : Type) where
  keys : Finset κ
  get : {k // k ∈ keys} → α

namespace Map
variable {κ α : Type} [DecidableEq κ]

/-- The value of a key. -/
def get? (m : Map κ α) (k : κ) : Option α :=
  if h : k ∈ m.keys then some (m.get ⟨k, h⟩) else none

/-- The map without keys. -/
def empty : Map κ α := ⟨∅, fun k => absurd k.2 (Finset.notMem_empty k.1)⟩

/-- Set the value of a key. -/
def insert (m : Map κ α) (k : κ) (v : α) : Map κ α where
  keys := Insert.insert k m.keys
  get x := if h : x.1 = k then v else m.get ⟨x.1, Finset.mem_of_mem_insert_of_ne x.2 h⟩

/-- Take a key out. -/
def remove (m : Map κ α) (k : κ) : Map κ α where
  keys := m.keys.erase k
  get x := m.get ⟨x.1, Finset.mem_of_mem_erase x.2⟩

/-- A map is what is read of it. -/
theorem ext {m n : Map κ α} (h : ∀ k, m.get? k = n.get? k) : m = n := by
  obtain ⟨keys, get⟩ := m
  obtain ⟨keys', get'⟩ := n
  have hkeys : keys = keys' := by
    ext k
    have hk := congrArg Option.isSome (h k)
    by_cases hm : k ∈ keys <;> by_cases hn : k ∈ keys' <;> simp_all [get?]
  subst hkeys
  have hget : get = get' := by
    funext k
    simpa [get?, k.2] using h k.1
  rw [hget]

theorem get?_of_mem (m : Map κ α) (k : {k // k ∈ m.keys}) : m.get? k.1 = some (m.get k) := by
  simp [get?]

@[simp] theorem get?_empty (k : κ) : (empty : Map κ α).get? k = none := by
  simp [get?, empty]

@[simp] theorem get?_insert (m : Map κ α) (k x : κ) (v : α) :
    (m.insert k v).get? x = if x = k then some v else m.get? x := by
  by_cases hx : x = k
  · simp [get?, insert, hx]
  · by_cases hm : x ∈ m.keys <;> simp [get?, insert, hx, hm]

/-- Different keys are set in any order. -/
theorem insert_comm (m : Map κ α) {k k' : κ} (h : k ≠ k') (v v' : α) :
    (m.insert k v).insert k' v' = (m.insert k' v').insert k v := by
  refine ext fun x => ?_
  simp only [get?_insert]
  split_ifs with hx hx'
  · exact absurd (hx'.symm.trans hx) h
  · rfl
  · rfl
  · rfl

@[simp] theorem get?_remove (m : Map κ α) (k x : κ) :
    (m.remove k).get? x = if x = k then none else m.get? x := by
  by_cases hx : x = k
  · simp [get?, remove, hx]
  · by_cases hm : x ∈ m.keys <;> simp [get?, remove, hx, hm]

/-- Set every key of another map to its value there. -/
def extend (m n : Map κ α) : Map κ α where
  keys := m.keys ∪ n.keys
  get x := if h : x.1 ∈ n.keys then n.get ⟨x.1, h⟩
    else m.get ⟨x.1, (Finset.mem_union.mp x.2).resolve_right h⟩

@[simp] theorem get?_extend (m n : Map κ α) (x : κ) :
    (m.extend n).get? x = (n.get? x).or (m.get? x) := by
  by_cases hn : x ∈ n.keys
  · simp [get?, extend, hn]
  · by_cases hm : x ∈ m.keys <;> simp [get?, extend, hm, hn]

/-- Change every value. -/
def map {β : Type} (f : α → β) (m : Map κ α) : Map κ β := ⟨m.keys, fun k => f (m.get k)⟩

@[simp] theorem get?_map {β : Type} (f : α → β) (m : Map κ α) (x : κ) : (m.map f).get? x = (m.get? x).map f := by
  by_cases hm : x ∈ m.keys <;> simp [get?, map, hm]

/-- Set the value of a key that has none: the first one stays. -/
def orInsert (m : Map κ α) (k : κ) (v : α) : Map κ α := if k ∈ m.keys then m else m.insert k v

@[simp] theorem get?_orInsert (m : Map κ α) (k x : κ) (v : α) :
    (m.orInsert k v).get? x = (m.get? x).or (if x = k then some v else none) := by
  rw [orInsert]
  by_cases hk : k ∈ m.keys
  · rw [if_pos hk]
    by_cases hx : x = k
    · subst hx
      simp [get?, hk]
    · simp [hx]
  · rw [if_neg hk, get?_insert]
    by_cases hx : x = k
    · subst hx
      simp [get?, hk]
    · simp [hx]

/-- Set the value of a key, if there is one to set. -/
def insertSome (m : Map κ α) : Option (κ × α) → Map κ α
  | some (k, v) => m.insert k v
  | none => m

/-- What is read after putting in what `f` makes of a list: the last of the key. -/
theorem get?_foldl_insertSome {β : Type} (f : β → Option (κ × α)) (l : List β) (k : κ) (v : α) :
    (l.foldl (fun m x => m.insertSome (f x)) (empty : Map κ α)).get? k = some v ↔
      ∃ before x after, l = before ++ x :: after ∧ f x = some (k, v) ∧ ∀ y ∈ after, ∀ w, f y ≠ some (k, w) := by
  induction l using List.reverseRecOn with
  | nil => simp
  | append_singleton l x ih =>
    rw [List.foldl_concat]
    -- the last of a key is still the last behind what is of no or another key
    have hstill : (∀ w, f x ≠ some (k, w)) →
        (l.foldl (fun m x => m.insertSome (f x)) (empty : Map κ α)).get? k = some v →
        ∃ before y after, l ++ [x] = before ++ y :: after ∧ f y = some (k, v) ∧ ∀ z ∈ after, ∀ w, f z ≠ some (k, w) := by
      intro hother h
      obtain ⟨before, y, after, rfl, hy, hafter⟩ := ih.mp h
      refine ⟨before, y, after ++ [x], by simp, hy, fun z hz w => ?_⟩
      rcases List.mem_append.mp hz with hz | hz
      · exact hafter z hz w
      · exact List.mem_singleton.mp hz ▸ hother w
    constructor
    · intro h
      cases hx : f x with
      | none =>
        rw [hx] at h
        exact hstill (fun w => by rw [hx]; exact (Option.some_ne_none (k, w)).symm) h
      | some e =>
        rw [hx, insertSome, get?_insert] at h
        by_cases hk : k = e.1
        · rw [if_pos hk] at h
          exact ⟨l, x, [], rfl, by rw [hx, hk, ← Option.some.inj h], by simp⟩
        · rw [if_neg hk] at h
          refine hstill (fun w heq => hk ?_) h
          exact (congrArg Prod.fst (Option.some.inj (hx.symm.trans heq))).symm
    · rintro ⟨before, y, after, hl, hy, hafter⟩
      rcases List.eq_nil_or_concat' after with rfl | ⟨front, last, rfl⟩
      · obtain ⟨-, hxy⟩ := List.append_inj' hl rfl
        rw [List.singleton_inj.mp hxy, hy, insertSome, get?_insert, if_pos rfl]
      · have hl' : l ++ [x] = (before ++ y :: front) ++ [last] := by simpa using hl
        obtain ⟨rfl, hxlast⟩ := List.append_inj' hl' rfl
        obtain rfl := List.singleton_inj.mp hxlast
        have hlast := hafter x (List.mem_append_right _ List.mem_cons_self)
        have hbefore := ih.mpr ⟨before, y, front, rfl, hy, fun z hz => hafter z (List.mem_append_left _ hz)⟩
        cases hx : f x with
        | none => exact hbefore
        | some e =>
          have hk : k ≠ e.1 := by
            rintro rfl
            exact hlast e.2 hx
          rwa [insertSome, get?_insert, if_neg hk]

theorem get?_eq_none_of_keys_eq_empty {m : Map κ α} (h : m.keys = ∅) (k : κ) : m.get? k = none := by
  simp [get?, h]

end Map

/-- A number as it was read: an integer of 64 bits, or the bits of a double. -/
inductive Number where
  | posInt (n : UInt64)
  | negInt (n : Int64)
  | float (bits : UInt64)
  deriving DecidableEq

/-- A JSON value. -/
inductive Json where
  | null
  | bool (b : Bool)
  | number (n : Number)
  | string (s : Str)
  | array (items : List Json)
  | object (members : Map Str Json)

namespace Json

/-- The members of an object; nothing else has any. -/
def members : Json → Map Str Json
  | object m => m
  | _ => .empty

/-- A property that an object has when all its members do, and everything else has. -/
theorem object_induction {motive : Json → Prop}
    (leaf : ∀ v, (∀ m, v ≠ object m) → motive v)
    (object : ∀ m : Map Str Json, (∀ k v, m.get? k = some v → motive v) → motive (object m))
    (v : Json) : motive v := by
  refine @Json.rec motive (fun _ => True) (fun m => ∀ k v, m.get? k = some v → motive v)
    ?_ ?_ ?_ ?_ ?_ object ?_ ?_ ?_ v
  · exact leaf _ (by simp)
  · exact fun b => leaf _ (by simp)
  · exact fun n => leaf _ (by simp)
  · exact fun s => leaf _ (by simp)
  · exact fun items _ => leaf _ (by simp)
  · trivial
  · exact fun _ _ _ _ => trivial
  · intro keys get hget k v hk
    by_cases hmem : k ∈ keys
    · simp only [Map.get?, hmem, dif_pos, Option.some_inj] at hk
      exact hk ▸ hget ⟨k, hmem⟩
    · simp [Map.get?, hmem] at hk

/-- Follow a list of member names. -/
def follow : Json → List Str → Option Json
  | v, [] => some v
  | v, k :: path => (v.members.get? k).bind fun w => follow w path

@[simp] theorem follow_nil (v : Json) : v.follow [] = some v := by
  cases v <;> rfl

theorem follow_cons (v : Json) (k : Str) (path : List Str) :
    v.follow (k :: path) = (v.members.get? k).bind fun w => w.follow path := by
  cases v <;> rfl

/-- An object of members given one after the other; the last of a name stays. -/
def objectOf (members : List (Str × Json)) : Json :=
  object (members.foldl (fun m e => m.insert e.1 e.2) .empty)

theorem get?_foldl_insert (l : List (Str × Json)) (m : Map Str Json) (k : Str) :
    (l.foldl (fun m e => m.insert e.1 e.2) m).get? k =
      ((l.foldl (fun m e => m.insert e.1 e.2) (.empty : Map Str Json)).get? k).or (m.get? k) := by
  induction l generalizing m with
  | nil => simp
  | cons e l ih =>
    rw [List.foldl_cons, List.foldl_cons, ih, ih (Map.empty.insert e.1 e.2), Option.or_assoc]
    by_cases hk : k = e.1 <;> simp [hk]

theorem get?_objectOf_append (l l' : List (Str × Json)) (k : Str) :
    (objectOf (l ++ l')).members.get? k = ((objectOf l').members.get? k).or ((objectOf l).members.get? k) := by
  simp only [objectOf, members, List.foldl_append]
  exact get?_foldl_insert l' _ k

@[simp] theorem get?_objectOf_nil (k : Str) : (objectOf []).members.get? k = none := by
  simp [objectOf, members]

@[simp] theorem get?_objectOf_cons (e : Str × Json) (l : List (Str × Json)) (k : Str) :
    (objectOf (e :: l)).members.get? k =
      ((objectOf l).members.get? k).or (if k = e.1 then some e.2 else none) := by
  rw [← List.singleton_append, get?_objectOf_append]
  simp [objectOf, members]

/-- What is read of an object is one of the members it was given. -/
theorem mem_of_get?_objectOf {l : List (Str × Json)} {k : Str} {v : Json}
    (h : (objectOf l).members.get? k = some v) : (k, v) ∈ l := by
  induction l with
  | nil => simp at h
  | cons e l ih =>
    rw [get?_objectOf_cons, Option.or_eq_some_iff] at h
    rcases h with h | ⟨-, h⟩
    · exact List.mem_cons_of_mem e (ih h)
    · split at h
      · rename_i hk
        obtain rfl := Option.some_inj.mp h
        rw [hk]
        exact List.mem_cons_self
      · cases h

/-- What is read of an object whose members have different names is what it was given. -/
theorem get?_objectOf_iff {l : List (Str × Json)} (hl : (l.map Prod.fst).Nodup) {k : Str} {v : Json} :
    (objectOf l).members.get? k = some v ↔ (k, v) ∈ l := by
  refine ⟨mem_of_get?_objectOf, fun h => ?_⟩
  induction l with
  | nil => cases h
  | cons e l ih =>
    obtain ⟨hhead, hl⟩ := List.nodup_cons.mp hl
    rw [get?_objectOf_cons]
    rcases List.mem_cons.mp h with rfl | h
    · have hnone : (objectOf l).members.get? k = none := by
        cases hk : (objectOf l).members.get? k with
        | none => rfl
        | some w => exact absurd (List.mem_map_of_mem (mem_of_get?_objectOf hk)) hhead
      rw [hnone, if_pos rfl, Option.none_or]
    · rw [ih hl h, Option.some_or]

/-! ### References -/

/-- The index that a token of a JSON pointer stands for: decimal digits without a leading zero. -/
def arrayIndex (token : Str) : Option ℕ :=
  if token ≠ [] ∧ token.all Char.isDigit ∧ (token.head? = some '0' → token.length = 1) then
    some (digitsValue token)
  else none

/-- The value a JSON pointer leads to. -/
def pointer : Json → List Str → Option Json
  | v, [] => some v
  | object m, token :: rest => (m.get? token).bind fun w => w.pointer rest
  | array items, token :: rest => ((arrayIndex token).bind (items[·]?)).bind fun w => w.pointer rest
  | _, _ :: _ => none

/-- A token as it is written in a pointer: `~0` is a tilde and `~1` a slash. -/
def unescapeToken : Str → Option Str
  | [] => some []
  | '~' :: '0' :: s => (unescapeToken s).map ('~' :: ·)
  | '~' :: '1' :: s => (unescapeToken s).map ('/' :: ·)
  | '~' :: _ => none
  | c :: s => (unescapeToken s).map (c :: ·)

/-- The tokens of a pointer. -/
def pointerTokens : Str → Option (List Str)
  | [] => some []
  | '/' :: rest => (rest.splitOn '/').mapM unescapeToken
  | _ => none

end Json

end Arcature.Lib

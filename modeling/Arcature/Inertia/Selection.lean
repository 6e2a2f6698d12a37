import Arcature.Lib.Json

/-! Which paths of a page a partial reload selects (`inertia/props.rs`, `inertia/request.rs`).

    A path is dotted, and a selector names a subtree: `only` keeps what lies on the way to one of its
    entries or below it, `except` drops what lies at or below one of its entries:

        only  auth.user        auth          kept, on the way
                               auth.user.id  kept, below
                               auth.token    dropped
        except auth.user.id    auth.user.id  dropped, with everything below

    The code compares text; on the segments between the dots it is an order, that of one list being
    the start of another (`matchPathIncluded_iff`). Inside a value the same test is made at every
    depth of its objects (`filterNestedValue`), and what it leaves is exactly what the test lets
    through (`filterNestedValue_eq_self_iff`, `included_of_below_filter`). -/

namespace Arcature.Inertia
open Arcature.Lib

/-- A partial reload of a page component. -/
structure PartialSelection where
  only : List Str
  except : List Str
  reset : List Str

/-- Whether `path` goes on after `opening` with a dot. -/
def continues (opening path : Str) : Bool :=
  (Str.stripPrefix opening path).any fun rest => rest.head? = some '.'

/-- `only` matches in both directions, `except` downwards. -/
def matchPathIncluded (path : Str) (only except : List Str) : Bool :=
  let selected := only = [] || only.any fun o => path = o || continues o path || continues path o
  selected && !except.any fun e => path = e || continues e path

/-- Whether a request asks for a path; a full visit asks for all. -/
def included (path : Str) : Option PartialSelection → Bool
  | none => true
  | some p => matchPathIncluded path p.only p.except

/-- The dotted path of a member. -/
def childPath (path key : Str) : Str := path ++ '.' :: key

mutual

/-- A value with the members at every depth that the request does not ask for taken out. -/
def filterNestedValue (selection : Option PartialSelection) (path : Str) : Json → Json
  | .object m => .object (filterMembers selection path m)
  | .array items => .array items
  | .string s => .string s
  | .number n => .number n
  | .bool b => .bool b
  | .null => .null

/-- The members of an object that the request asks for, each with its own members filtered. -/
def filterMembers (selection : Option PartialSelection) (path : Str) : Map Str Json → Map Str Json
  | ⟨keys, get⟩ =>
    ⟨keys.filter fun k => included (childPath path k) selection, fun k =>
      filterNestedValue selection (childPath path k.1) (get ⟨k.1, Finset.mem_of_mem_filter k.1 k.2⟩)⟩

end

/-- The part of a dotted key before the first dot. -/
def topLevelKey (key : Str) : Str := (key.splitOn '.').headD key

/-- Put a value at a path inside a value; what is not an object on the way becomes one. -/
def insertNestedInto (current : Json) : List Str → Json → Json
  | [], value => value
  | [key], value => .object (current.members.insert key value)
  | key :: segments, value =>
    .object (current.members.insert key
      (insertNestedInto ((current.members.get? key).getD (.object .empty)) segments value))

/-- Put a value at a dotted path of the page. -/
def insertNested (props : Map Str Json) (dotted : Str) (value : Json) : Map Str Json :=
  match dotted.splitOn '.' with
  | [] => props
  | [first] => props.insert first value
  | first :: rest =>
    props.insert first (insertNestedInto ((props.get? first).getD (.object .empty)) rest value)

/-! ### Paths as segments -/

/-- A path at or below another: its segments go on where those of the other end. -/
def AtOrBelow (above path : Str) : Prop := above.splitOn '.' <+: path.splitOn '.'

theorem continues_iff {opening path : Str} :
    continues opening path = true ↔ ∃ rest, path = childPath opening rest := by
  simp only [continues, Option.any_eq_true, Str.stripPrefix_eq_some, childPath, decide_eq_true_eq]
  constructor
  · rintro ⟨rest, hpath, hdot⟩
    obtain ⟨rest', rfl⟩ := List.head?_eq_some_iff.mp hdot
    exact ⟨rest', hpath⟩
  · rintro ⟨rest, hpath⟩
    exact ⟨'.' :: rest, hpath, rfl⟩

theorem splitOn_childPath (path key : Str) :
    (childPath path key).splitOn '.' = path.splitOn '.' ++ key.splitOn '.' :=
  List.splitOn_append_cons_self path key

/-- A path at or below another is the other, or goes on after it with a dot. -/
theorem atOrBelow_iff {above path : Str} :
    AtOrBelow above path ↔ path = above ∨ ∃ rest, path = childPath above rest := by
  constructor
  · rintro ⟨rest, hrest⟩
    have hpath := congrArg (List.intercalate ['.']) hrest
    rw [List.intercalate_splitOn] at hpath
    by_cases hnil : rest = []
    · left
      rw [← hpath, hnil, List.append_nil, List.intercalate_splitOn]
    · right
      refine ⟨['.'].intercalate rest, ?_⟩
      rw [← hpath, childPath, Str.intercalate_append (List.splitOn_ne_nil _ _) hnil,
        List.intercalate_splitOn]
  · rintro (rfl | ⟨rest, rfl⟩)
    · exact List.prefix_refl _
    · rw [AtOrBelow, splitOn_childPath]
      exact List.prefix_append _ _

/-- What a selection lets through: related to an entry of `only`, if there are any, and not at or
    below one of `except`. -/
theorem matchPathIncluded_iff {path : Str} {only except : List Str} :
    matchPathIncluded path only except = true ↔
      (only = [] ∨ ∃ o ∈ only, AtOrBelow o path ∨ AtOrBelow path o) ∧
        ∀ e ∈ except, ¬ AtOrBelow e path := by
  have hdown : ∀ e, (path = e ∨ continues e path = true) ↔ AtOrBelow e path := by
    intro e
    rw [continues_iff, atOrBelow_iff]
  have hup : ∀ o, (AtOrBelow o path ∨ continues path o = true) ↔
      AtOrBelow o path ∨ AtOrBelow path o := by
    intro o
    rw [continues_iff, @atOrBelow_iff path]
    constructor
    · rintro (h | h)
      · exact Or.inl h
      · exact Or.inr (Or.inr h)
    · rintro (h | rfl | h)
      · exact Or.inl h
      · exact Or.inl (List.prefix_refl _)
      · exact Or.inr h
  simp only [matchPathIncluded, Bool.and_eq_true, Bool.or_eq_true, decide_eq_true_eq,
    List.any_eq_true, Bool.not_eq_true', ← Bool.not_eq_true, not_exists, not_and, hdown, hup]

/-! ### Paths inside a value -/

/-- The dotted paths of the members of a value at every depth, its own path being `path`. -/
inductive Below : Str → Json → Str → Prop
  | here {path k : Str} {m : Map Str Json} {v : Json} (h : m.get? k = some v) :
      Below path (.object m) (childPath path k)
  | deeper {path k p : Str} {m : Map Str Json} {v : Json} (h : m.get? k = some v)
      (hv : Below (childPath path k) v p) : Below path (.object m) p

theorem get?_filterMembers (selection : Option PartialSelection) (path : Str) (m : Map Str Json)
    (k : Str) :
    (filterMembers selection path m).get? k =
      if included (childPath path k) selection then
        (m.get? k).map (filterNestedValue selection (childPath path k))
      else none := by
  obtain ⟨keys, get⟩ := m
  by_cases hk : k ∈ keys <;> by_cases hin : included (childPath path k) selection = true <;>
    simp [filterMembers, Map.get?, hk, hin]

theorem filterNestedValue_leaf {v : Json} (h : ∀ m, v ≠ .object m)
    (selection : Option PartialSelection) (path : Str) :
    filterNestedValue selection path v = v := by
  cases v with
  | object m => exact absurd rfl (h m)
  | _ => simp [filterNestedValue]

theorem not_below_leaf {v : Json} (h : ∀ m, v ≠ .object m) {path p : Str} : ¬ Below path v p := by
  rintro (_ | _)
  all_goals exact h _ rfl

/-- The filter leaves a value alone exactly when the request asks for all there is in it. -/
theorem filterNestedValue_eq_self_iff (selection : Option PartialSelection) (path : Str) (v : Json) :
    filterNestedValue selection path v = v ↔
      ∀ p, Below path v p → included p selection = true := by
  induction v using Json.object_induction generalizing path with
  | leaf v h => simp [filterNestedValue_leaf h, not_below_leaf h]
  | object m ih =>
    rw [filterNestedValue, Json.object.injEq]
    constructor
    · intro hsame p hp
      have hget : ∀ k v, m.get? k = some v → included (childPath path k) selection = true ∧
          filterNestedValue selection (childPath path k) v = v := by
        intro k v hk
        have hfiltered := get?_filterMembers selection path m k
        rw [hsame, hk] at hfiltered
        split_ifs at hfiltered with hin
        exact ⟨hin, (Option.some_inj.mp hfiltered).symm⟩
      cases hp with
      | here hk => exact (hget _ _ hk).1
      | deeper hk hv => exact (ih _ _ hk _).mp (hget _ _ hk).2 p hv
    · intro hall
      refine Map.ext fun k => ?_
      rw [get?_filterMembers]
      cases hk : m.get? k with
      | none => simp
      | some v =>
        rw [if_pos (hall _ (.here hk)), Option.map_some,
          (ih k v hk _).mpr fun p hp => hall p (.deeper hk hp)]

/-- What the filter leaves is asked for. -/
theorem included_of_below_filter {selection : Option PartialSelection} {path p : Str} {v : Json}
    (h : Below path (filterNestedValue selection path v) p) : included p selection = true := by
  induction v using Json.object_induction generalizing path with
  | leaf v hleaf =>
    rw [filterNestedValue_leaf hleaf] at h
    exact absurd h (not_below_leaf hleaf)
  | object m ih =>
    rw [filterNestedValue] at h
    cases h with
    | here hk =>
      rw [get?_filterMembers] at hk
      split_ifs at hk with hin
      exact hin
    | deeper hk hv =>
      rw [get?_filterMembers] at hk
      split_ifs at hk with hin
      obtain ⟨v, hm, rfl⟩ := Option.map_eq_some_iff.mp hk
      exact ih _ v hm hv

/-! ### Members by their names -/

/-- The dotted path of a member, from the names on the way to it. A name may have dots in it. -/
def memberPath (path : Str) (names : List Str) : Str := names.foldl childPath path

theorem atOrBelow_memberPath (path : Str) (names : List Str) : AtOrBelow path (memberPath path names) := by
  induction names generalizing path with
  | nil => exact List.prefix_refl _
  | cons name names ih =>
    have hchild : AtOrBelow path (childPath path name) := by
      rw [AtOrBelow, splitOn_childPath]
      exact List.prefix_append _ _
    exact hchild.trans (ih (childPath path name))

/-- What lies above an included path is included: an entry of `only` and the path above are both starts of
    one path, or the entry lies below both; and an entry of `except` above the path lies above all below it. -/
theorem included_of_atOrBelow {selection : Option PartialSelection} {above path : Str} (habove : AtOrBelow above path)
    (h : included path selection = true) : included above selection = true := by
  cases selection with
  | none => rfl
  | some p =>
    rw [included, matchPathIncluded_iff] at h ⊢
    obtain ⟨hselected, hexcept⟩ := h
    refine ⟨?_, fun e he hbelow => hexcept e he (hbelow.trans habove)⟩
    rcases hselected with hall | ⟨o, ho, hbelow | hway⟩
    · exact Or.inl hall
    · exact Or.inr ⟨o, ho, List.prefix_or_prefix_of_prefix hbelow habove⟩
    · exact Or.inr ⟨o, ho, Or.inr (habove.trans hway)⟩

theorem get?_members_filterNestedValue (selection : Option PartialSelection) (path : Str) (v : Json) (k : Str) :
    (filterNestedValue selection path v).members.get? k =
      if included (childPath path k) selection then
        (v.members.get? k).map (filterNestedValue selection (childPath path k))
      else none := by
  cases v with
  | object m => rw [filterNestedValue, Json.members, Json.members, get?_filterMembers]
  | _ => simp [filterNestedValue, Json.members]

/-- A member is left, with its own members filtered, if its path is included: no name on the way to it is
    taken out then. -/
theorem follow_filterNestedValue (selection : Option PartialSelection) {names : List Str} (hne : names ≠ [])
    (path : Str) (v : Json) :
    (filterNestedValue selection path v).follow names =
      if included (memberPath path names) selection then
        (v.follow names).map (filterNestedValue selection (memberPath path names))
      else none := by
  induction names generalizing path v with
  | nil => exact absurd rfl hne
  | cons name names ih =>
    rw [Json.follow_cons, Json.follow_cons, get?_members_filterNestedValue, memberPath, List.foldl_cons, ← memberPath]
    by_cases hname : included (childPath path name) selection = true
    · rw [if_pos hname]
      cases v.members.get? name with
      | none => simp
      | some w =>
        rw [Option.map_some, Option.bind_some, Option.bind_some]
        by_cases hnames : names = []
        · subst hnames
          rw [Json.follow_nil, Json.follow_nil, memberPath, List.foldl_nil, if_pos hname, Option.map_some]
        · exact ih hnames (childPath path name) w
    · have hbelow : ¬ included (memberPath (childPath path name) names) selection = true := fun h =>
        hname (included_of_atOrBelow (atOrBelow_memberPath _ names) h)
      rw [if_neg hname, if_neg hbelow, Option.bind_none]

theorem follow_append (v : Json) (names below : List Str) :
    v.follow (names ++ below) = (v.follow names).bind fun w => w.follow below := by
  induction names generalizing v with
  | nil => simp
  | cons name names ih =>
    rw [List.cons_append, Json.follow_cons, Json.follow_cons, Option.bind_assoc]
    exact Option.bind_congr fun w _ => ih w

theorem filterNestedValue_idem (selection : Option PartialSelection) (path : Str) (v : Json) :
    filterNestedValue selection path (filterNestedValue selection path v) = filterNestedValue selection path v :=
  (filterNestedValue_eq_self_iff selection path _).mpr fun _ h => included_of_below_filter h

/-- The filter is exact: a member survives exactly if the lists include its dotted path, a value that is no
    object survives unchanged, nothing else appears, what lies on the way to an included member survives,
    and filtering again changes nothing. -/
theorem filterNestedValue_exact (p : PartialSelection) (key : Str) (v : Json) :
    (∀ names w, names ≠ [] → v.follow names = some w →
      (((filterNestedValue (some p) key v).follow names).isSome = true ↔
        matchPathIncluded (memberPath key names) p.only p.except = true)) ∧
    (∀ names w, names ≠ [] → (filterNestedValue (some p) key v).follow names = some w →
      ∃ w', v.follow names = some w' ∧ ((∀ m, w' ≠ .object m) → w = w')) ∧
    (∀ names below, (v.follow (names ++ below)).isSome = true →
      matchPathIncluded (memberPath key (names ++ below)) p.only p.except = true →
      ((filterNestedValue (some p) key v).follow names).isSome = true) ∧
    filterNestedValue (some p) key (filterNestedValue (some p) key v) = filterNestedValue (some p) key v := by
  refine ⟨?_, ?_, ?_, filterNestedValue_idem (some p) key v⟩
  · intro names w hne hw
    rw [follow_filterNestedValue _ hne, hw, included]
    split_ifs with hin <;> simp [hin]
  · intro names w hne hw
    rw [follow_filterNestedValue _ hne] at hw
    split_ifs at hw
    obtain ⟨w', hw', rfl⟩ := Option.map_eq_some_iff.mp hw
    exact ⟨w', hw', fun hleaf => filterNestedValue_leaf hleaf _ _⟩
  · intro names below hmember hin
    by_cases hne : names = []
    · rw [hne, Json.follow_nil]
      rfl
    · have habove : included (memberPath key names) (some p) = true := by
        rw [memberPath, List.foldl_append, ← memberPath, ← memberPath] at hin
        exact included_of_atOrBelow (atOrBelow_memberPath _ below) hin
      rw [follow_append] at hmember
      rw [follow_filterNestedValue _ hne, if_pos habove]
      cases hw : v.follow names with
      | none => simp [hw] at hmember
      | some w => rfl

/-! ### What stands at an inserted path -/

theorem follow_insertNestedInto (current : Json) (segments : List Str) (value : Json) :
    (insertNestedInto current segments value).follow segments = some value := by
  fun_induction insertNestedInto current segments value with
  | case1 => simp
  | case2 => simp [Json.follow_cons, Json.members]
  | case3 current value key segments hne ih => simpa [Json.follow_cons, Json.members] using ih

/-- What was inserted stands where its key says. -/
theorem follow_insertNested (props : Map Str Json) (dotted : Str) (value : Json) :
    (Json.object (insertNested props dotted value)).follow (dotted.splitOn '.') = some value := by
  unfold insertNested
  split
  · next h => exact absurd h (List.splitOn_ne_nil _ _)
  · next h => simp [h, Json.follow_cons, Json.members]
  · next h => simp [h, Json.follow_cons, Json.members, follow_insertNestedInto]

end Arcature.Inertia

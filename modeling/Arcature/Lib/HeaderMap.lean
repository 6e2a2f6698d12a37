import Arcature.Lib.Text

/-! A header map: a name may have several values, and their order counts.

    The map is the list of the lines that its iterator yields. `getAll` reads the values of one name in
    order; `append` puts one more behind them, `insert` puts one in their place. -/

namespace Arcature.Lib

/-- `HeaderMap`, a line for each value. -/
abbrev HeaderMap (β : Type) := List (Str × β)

namespace HeaderMap

variable {β : Type}

/-- `get_all`. -/
def getAll (headers : HeaderMap β) (name : Str) : List β :=
  headers.filterMap fun (n, value) => if n = name then some value else none

/-- `contains_key`. -/
def containsKey (headers : HeaderMap β) (name : Str) : Bool := headers.any fun (n, _) => n = name

/-- `append`. -/
def append (headers : HeaderMap β) (name : Str) (value : β) : HeaderMap β := headers ++ [(name, value)]

/-- `insert`. -/
def insert (headers : HeaderMap β) (name : Str) (value : β) : HeaderMap β :=
  headers.filter (fun (n, _) => n ≠ name) ++ [(name, value)]

@[simp] theorem getAll_nil (name : Str) : getAll ([] : HeaderMap β) name = [] := rfl

@[simp] theorem getAll_cons (n : Str) (value : β) (headers : HeaderMap β) (name : Str) :
    getAll ((n, value) :: headers) name = (if n = name then [value] else []) ++ getAll headers name := by
  by_cases h : n = name <;> simp [getAll, h]

@[simp] theorem getAll_append (headers : HeaderMap β) (n : Str) (value : β) (name : Str) :
    (headers.append n value).getAll name = headers.getAll name ++ if n = name then [value] else [] := by
  rw [append, getAll, List.filterMap_append, ← getAll, ← getAll, getAll_cons, getAll_nil, List.append_nil]

@[simp] theorem getAll_insert (headers : HeaderMap β) (n : Str) (value : β) (name : Str) :
    (headers.insert n value).getAll name = if n = name then [value] else headers.getAll name := by
  rw [insert, getAll, List.filterMap_append, ← getAll, ← getAll, getAll_cons, getAll_nil, List.append_nil]
  split_ifs with h
  · subst h
    rw [getAll, List.filterMap_filter]
    simp
  · rw [List.append_nil, getAll, getAll, List.filterMap_filter]
    refine List.filterMap_congr fun line _ => ?_
    by_cases hline : line.1 = name
    · simp [hline, Ne.symm h]
    · simp [hline]

/-- A name is in the map if it has a value. -/
theorem containsKey_iff {headers : HeaderMap β} {name : Str} :
    headers.containsKey name = true ↔ headers.getAll name ≠ [] := by
  induction headers with
  | nil => simp [containsKey]
  | cons line headers ih =>
    rw [containsKey, List.any_cons, ← containsKey, Bool.or_eq_true, ih, getAll_cons]
    by_cases hline : line.1 = name <;> simp [hline]

/-- A name that is not in the map has no value. -/
theorem getAll_of_containsKey {headers : HeaderMap β} {name : Str} (h : headers.containsKey name = false) :
    headers.getAll name = [] := by
  by_contra hne
  rw [containsKey_iff.mpr hne] at h
  cases h

theorem containsKey_cons (n : Str) (value : β) (headers : HeaderMap β) (name : Str) :
    containsKey ((n, value) :: headers) name = (decide (n = name) || headers.containsKey name) := rfl

@[simp] theorem containsKey_nil (name : Str) : containsKey ([] : HeaderMap β) name = false := rfl

@[simp] theorem containsKey_insert (headers : HeaderMap β) (n : Str) (value : β) (name : Str) :
    (headers.insert n value).containsKey name = true ↔ n = name ∨ headers.containsKey name = true := by
  rw [containsKey_iff, containsKey_iff, getAll_insert]
  by_cases hname : n = name <;> simp [hname]

end HeaderMap

end Arcature.Lib

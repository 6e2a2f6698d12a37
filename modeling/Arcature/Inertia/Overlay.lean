import Arcature.Inertia.Reload

/-! Dotted props laid over one another.

    The props of a page are put into an empty object one after another, each at the path its key spells.
    What is there already is kept where the path does not touch it:

        user.name = ada      user: {name: ada}
        user.mail = a@b.c    user: {name: ada, mail: a@b.c}      apart from the first: both stay
        user = guest         user: guest                         above both: neither does

    Two paths are apart if neither goes on where the other ends. An insertion changes what stands at no
    path apart from its own (`follow_insertNested_of_apart`), and so an entry stands until one comes that
    is not apart from it (`overlay_stands`). -/

namespace Arcature.Inertia
open Arcature.Lib

/-! ### Paths apart -/

/-- Neither path is at or below the other. -/
def PathsApart (p q : List Str) : Prop := ¬ p <+: q ∧ ¬ q <+: p

instance (p q : List Str) : Decidable (PathsApart p q) := inferInstanceAs (Decidable (_ ∧ _))

theorem PathsApart.ne_nil {p q : List Str} (h : PathsApart p q) : q ≠ [] := by
  rintro rfl
  exact h.2 List.nil_prefix

/-- Below the same name, paths are apart if the rest of them is. -/
theorem pathsApart_cons {k : Str} {p q : List Str} : PathsApart (k :: p) (k :: q) ↔ PathsApart p q := by
  simp [PathsApart, List.cons_prefix_cons]

theorem follow_emptyObject {path : List Str} (h : path ≠ []) : (Json.object .empty).follow path = none := by
  obtain ⟨k, rest, rfl⟩ := List.exists_cons_of_ne_nil h
  rw [Json.follow_cons, Json.members, Map.get?_empty]
  rfl

/-! ### One insertion -/

/-- The recursion of the insertion starts at the object of all props. -/
theorem object_insertNested (props : Map Str Json) (dotted : Str) (value : Json) :
    Json.object (insertNested props dotted value) =
      insertNestedInto (.object props) (dotted.splitOn '.') value := by
  unfold insertNested
  split
  · next h => exact absurd h (List.splitOn_ne_nil _ _)
  · next h => rw [h, insertNestedInto, Json.members]
  · next hne h =>
    rw [h, insertNestedInto, Json.members]
    exact hne

/-- What stands at a path apart from that of the insertion stays, and where nothing stood nothing does.
    A value that is no object has no members, and one that had to give way had none either. -/
theorem follow_insertNestedInto_of_apart (current : Json) {segments path : List Str} (value : Json)
    (h : PathsApart segments path) : (insertNestedInto current segments value).follow path = current.follow path := by
  fun_induction insertNestedInto current segments value generalizing path with
  | case1 => exact absurd List.nil_prefix h.1
  | case2 current key value =>
    obtain ⟨k, rest, rfl⟩ := List.exists_cons_of_ne_nil h.ne_nil
    have hk : k ≠ key := by
      rintro rfl
      exact h.1 (List.cons_prefix_cons.mpr ⟨rfl, List.nil_prefix⟩)
    rw [Json.follow_cons, Json.follow_cons, Json.members, Map.get?_insert, if_neg hk]
  | case3 current key segments value hne ih =>
    obtain ⟨k, rest, rfl⟩ := List.exists_cons_of_ne_nil h.ne_nil
    rw [Json.follow_cons, Json.follow_cons, Json.members, Map.get?_insert]
    by_cases hk : k = key
    · subst hk
      have hrest : PathsApart segments rest := pathsApart_cons.mp h
      rw [if_pos rfl, Option.bind_some, ih hrest]
      cases current.members.get? k with
      | none => exact follow_emptyObject hrest.ne_nil
      | some below => rfl
    · rw [if_neg hk]

theorem follow_insertNested_of_apart (props : Map Str Json) {dotted : Str} {path : List Str} (value : Json)
    (h : PathsApart (dotted.splitOn '.') path) :
    (Json.object (insertNested props dotted value)).follow path = (Json.object props).follow path := by
  rw [object_insertNested]
  exact follow_insertNestedInto_of_apart _ value h

/-! ### Entries in order -/

/-- The props after all entries, put in one after another. -/
def overlay (entries : List (Str × Json)) (props : Map Str Json) : Map Str Json :=
  entries.foldl (fun props (key, value) => insertNested props key value) props

theorem overlay_append (entries entries' : List (Str × Json)) (props : Map Str Json) :
    overlay (entries ++ entries') props = overlay entries' (overlay entries props) := List.foldl_append

/-- Entries that are all apart from a path change nothing there. -/
theorem follow_overlay_of_apart {entries : List (Str × Json)} {path : List Str} (props : Map Str Json)
    (h : ∀ e ∈ entries, PathsApart (e.1.splitOn '.') path) :
    (Json.object (overlay entries props)).follow path = (Json.object props).follow path := by
  induction entries generalizing props with
  | nil => rfl
  | cons e entries ih =>
    rw [List.forall_mem_cons] at h
    calc (Json.object (overlay (e :: entries) props)).follow path
      _ = (Json.object (insertNested props e.1 e.2)).follow path := ih _ h.2
      _ = (Json.object props).follow path := follow_insertNested_of_apart props e.2 h.1

/-- An entry stands at its path if no later one is equal to it, above it or below it; and one more entry
    changes what stands at no path that is neither above nor below its own. -/
theorem overlay_stands (entries : List (Str × Json)) :
    (∀ before key value after, entries = before ++ (key, value) :: after →
      (∀ e ∈ after, PathsApart (e.1.splitOn '.') (key.splitOn '.')) →
        (Json.object (overlay entries .empty)).follow (key.splitOn '.') = some value) ∧
    ∀ key value path, PathsApart (key.splitOn '.') path →
      (Json.object (overlay (entries ++ [(key, value)]) .empty)).follow path =
        (Json.object (overlay entries .empty)).follow path := by
  constructor
  · rintro before key value after rfl hafter
    rw [overlay_append]
    calc (Json.object (overlay after (insertNested (overlay before .empty) key value))).follow (key.splitOn '.')
      _ = (Json.object (insertNested (overlay before .empty) key value)).follow (key.splitOn '.') :=
          follow_overlay_of_apart _ hafter
      _ = some value := follow_insertNested _ key value
  · intro key value path hpath
    rw [overlay_append]
    exact follow_insertNested_of_apart _ value hpath

/-! ### The props of a page -/

section resolve

variable {ε : Type} (request : InertiaRequest) (context : ResolveContext)

/-- What the entries of a page send, in the order of their declaration. -/
def sentEntries (entries : List (Entry (ResolverOutcome ε))) : List (Str × Json) :=
  entries.filterMap fun entry =>
    match entry.settle request context with
    | .sent value => some (entry.key, value)
    | _ => none

theorem foldlM_send_ok {entries : List (Entry (ResolverOutcome ε))} {props props' : Map Str Json}
    (h : entries.foldlM (send request context) props = .ok props') :
    props' = overlay (sentEntries request context entries) props := by
  induction entries generalizing props with
  | nil => exact (Except.ok.inj h).symm
  | cons entry entries ih =>
    rw [List.foldlM_cons] at h
    rw [sentEntries, List.filterMap_cons]
    cases hsettle : entry.settle request context with
    | failed error =>
      rw [send, hsettle] at h
      cases h
    | nothing | announced group | rescued =>
      simp only [send, hsettle] at h ⊢
      exact ih h
    | sent value =>
      simp only [send, hsettle] at h ⊢
      exact ih h

/-- The props of a page are what its entries send, laid over one another: shared ones first. -/
theorem sequential_overlay {page : Props (ResolverOutcome ε)} {shared : SharedProps (ResolverOutcome ε)}
    {component : Str} {nowMs : ℕ} {resolved : Resolved}
    (h : sequential page shared request component nowMs = .ok resolved) :
    resolved.props = withErrors request
      (overlay (sentEntries request (.of request component nowMs) (entriesOf page shared)) .empty) := by
  have hprops := sequential_props page shared request component nowMs
  rw [h] at hprops
  cases hfold : (entriesOf page shared).foldlM (send request (.of request component nowMs)) .empty with
  | error e =>
    rw [hfold] at hprops
    cases hprops
  | ok props =>
    rw [hfold] at hprops
    rw [← foldlM_send_ok request _ hfold]
    exact Except.ok.inj hprops

end resolve

end Arcature.Inertia

import Arcature.Lib.Lines

/-! The migrations of the job queue (`jobs/migrate.rs`).

    A migration is cut at the lines that are a separator, and what is between them is sent one at a time:

        CREATE TABLE a (i INT)       CREATE TABLE a (i INT)
        --;;
        -- not a --;;                -- not a --;;
        SELECT 1                     SELECT 1
        --;;

    `statements` keeps two offsets into the text, and slices it between them. The offsets are the lengths
    of what has been read (`piecesFrom_eq`), so no slice is out of bounds. -/

namespace Arcature.Jobs
open Arcature.Lib Arcature.Lib.Str

/-- `STATEMENT_SEPARATOR`. -/
def statementSeparator : Str := "--;;".toList

/-- A line that is a separator. -/
def isSeparator (line : Str) : Bool := trim line = statementSeparator

/-- The loop of `statements`: `none` if a slice panics. -/
def piecesFrom (migration : Str) (start offset : ℕ) : List Str → Option (List Str)
  | [] => (migration.slice? start migration.len).map fun piece => [piece]
  | line :: lines =>
    if isSeparator line then do
      let piece ← migration.slice? start offset
      let pieces ← piecesFrom migration (offset + line.len) (offset + line.len) lines
      some (piece :: pieces)
    else piecesFrom migration start (offset + line.len) lines

/-- `statements`. -/
def statements (migration : Str) : Option (List Str) :=
  (piecesFrom migration 0 0 (splitInclusive migration)).map fun pieces => (pieces.map trim).filter (· ≠ [])

/-- The lines between two separators. -/
def groups (migration : Str) : List (List Str) := (splitInclusive migration).splitOnP isSeparator

/-- The slices are the groups, from any line on. -/
theorem piecesFrom_eq (before : Str) (group lines : List Str) :
    piecesFrom (before ++ group.flatten ++ lines.flatten) before.len (before ++ group.flatten).len lines =
      some (((lines.splitOnP isSeparator).modifyHead (group ++ ·)).map List.flatten) := by
  induction lines generalizing before group with
  | nil =>
    have hslice := slice?_append before group.flatten []
    rw [List.append_nil] at hslice
    rw [piecesFrom, List.flatten_nil, List.append_nil, hslice]
    simp
  | cons line lines ih =>
    rw [piecesFrom, List.splitOnP_cons_eq_if_modifyHead, List.flatten_cons]
    split_ifs with hline
    · have hlen : (before ++ group.flatten).len + line.len = (before ++ group.flatten ++ line).len := by
        rw [len_append _ line]
      have hrest := ih (before ++ group.flatten ++ line) []
      rw [List.flatten_nil, List.append_nil] at hrest
      rw [slice?_append, hlen, ← List.append_assoc, hrest]
      have hhead : (lines.splitOnP isSeparator).modifyHead ([] ++ ·) = lines.splitOnP isSeparator := by
        cases lines.splitOnP isSeparator <;> rfl
      rw [hhead]
      simp
    · have hlen : (before ++ group.flatten).len + line.len = (before ++ (group ++ [line]).flatten).len := by
        simp [Nat.add_assoc]
      have hrest := ih before (group ++ [line])
      have hflat : (group ++ [line]).flatten = group.flatten ++ line := by simp
      rw [hlen, ← List.append_assoc, List.append_assoc before, ← hflat, hrest]
      cases lines.splitOnP isSeparator with
      | nil => rfl
      | cons g gs => simp

theorem statements_eq (migration : Str) :
    statements migration = some (((groups migration).map fun group => trim group.flatten).filter (· ≠ [])) := by
  have hpieces := piecesFrom_eq [] [] (splitInclusive migration)
  have hhead : (groups migration).modifyHead ([] ++ ·) = groups migration := by
    cases groups migration <;> rfl
  rw [List.flatten_nil, List.append_nil, List.nil_append, flatten_splitInclusive, ← groups, hhead] at hpieces
  have hstart : len [] = 0 := rfl
  rw [statements, ← hstart, hpieces, Option.map_some, List.map_map]
  rfl

/-- A group has lines of the text in their order, and no separator. -/
theorem group_spec {migration : Str} {group : List Str} (h : group ∈ groups migration) :
    group.Sublist (splitInclusive migration) ∧ ∀ line ∈ group, isSeparator line = false := by
  rw [groups] at h
  generalize splitInclusive migration = ls at h ⊢
  induction ls generalizing group with
  | nil =>
    rw [List.splitOnP_nil, List.mem_singleton] at h
    subst h
    exact ⟨List.Sublist.refl [], by simp⟩
  | cons line ls ih =>
    rw [List.splitOnP_cons_eq_if_modifyHead] at h
    split_ifs at h with hline
    · obtain rfl | h := List.mem_cons.mp h
      · exact ⟨List.nil_sublist _, by simp⟩
      · exact ⟨(ih h).1.cons line, (ih h).2⟩
    · obtain ⟨first, others, hfirst⟩ := List.exists_cons_of_ne_nil (List.splitOnP_ne_nil isSeparator ls)
      rw [hfirst] at h ih
      obtain rfl | h := List.mem_cons.mp h
      · obtain ⟨hsub, hnot⟩ := ih List.mem_cons_self
        refine ⟨hsub.cons_cons line, List.forall_mem_cons.mpr ⟨Bool.eq_false_of_not_eq_true hline, hnot⟩⟩
      · obtain ⟨hsub, hnot⟩ := ih (List.mem_cons_of_mem first h)
        exact ⟨hsub.cons line, hnot⟩

/-- No line of a statement is a separator. -/
theorem no_separator {migration : Str} {group : List Str} (h : group ∈ groups migration) :
    ∀ line ∈ lines (trim group.flatten), trim line ≠ statementSeparator := by
  obtain ⟨hsub, hnot⟩ := group_spec h
  -- what a reader of separators finds in the statement
  let find : Str → Option Unit := fun line => if line = statementSeparator then some () else none
  have hnil : find [] = none := rfl
  have hended : Ended group := (ended_splitInclusive migration).sublist hsub
  have hline : ∀ l ∈ group, IsLine l := fun l hl => isLine_of_mem_splitInclusive (hsub.subset hl)
  have hread : readLines find (trim group.flatten) = [] := by
    rw [readLines_trim hnil, readLines_flatten hnil hended hline, List.filterMap_eq_nil_iff]
    intro l hl
    exact if_neg (by simpa [isSeparator] using hnot l hl)
  intro line hmem heq
  have hnone := List.filterMap_eq_nil_iff.mp hread line hmem
  exact absurd ((if_pos heq).symm.trans hnone) (Option.some_ne_none ())

/-- The statements are the groups of lines between the separators, trimmed, as far as there is anything in them.
    No slice panics, and no separator is left in a statement. -/
theorem statements_spec (migration : Str) :
    statements migration = some (((groups migration).map fun group => trim group.flatten).filter (· ≠ [])) ∧
      ∀ statement ∈ (statements migration).getD [], ∀ line ∈ lines statement, trim line ≠ statementSeparator := by
  refine ⟨statements_eq migration, fun statement hstatement => ?_⟩
  rw [statements_eq, Option.getD_some] at hstatement
  obtain ⟨group, hgroup, rfl⟩ := List.mem_map.mp (List.mem_filter.mp hstatement).1
  exact no_separator hgroup

/-! ### Applying -/

/-- What a connection has recorded as applied, and what it has executed. -/
structure Migrated where
  applied : List Str
  executed : List Str

/-- What is sent of a migration. -/
def sent (migration : Str) : List Str := (statements migration).getD []

/-- `apply_pending`, on a server that takes some statements. -/
def applyPending (accepts : Str → Bool) (conn : Migrated) : List (Str × Str) → Bool × Migrated
  | [] => (true, conn)
  | (version, migration) :: rest =>
    if version ∈ conn.applied then applyPending accepts conn rest
    else if (sent migration).all accepts then
      applyPending accepts ⟨conn.applied ++ [version], conn.executed ++ sent migration⟩ rest
    else (false, ⟨conn.applied, conn.executed ++ (sent migration).takeWhile accepts⟩)

theorem applied_subset (accepts : Str → Bool) (conn : Migrated) (migrations : List (Str × Str)) :
    conn.applied ⊆ (applyPending accepts conn migrations).2.applied := by
  induction migrations generalizing conn with
  | nil => exact List.Subset.refl _
  | cons migration rest ih =>
    rw [applyPending]
    split_ifs
    · exact ih conn
    · exact fun version hversion => ih _ (List.mem_append_left _ hversion)
    · exact List.Subset.refl _

/-- When it is done, every migration is recorded. -/
theorem applied_of_done {accepts : Str → Bool} {conn : Migrated} {migrations : List (Str × Str)}
    (h : (applyPending accepts conn migrations).1 = true) :
    ∀ migration ∈ migrations, migration.1 ∈ (applyPending accepts conn migrations).2.applied := by
  induction migrations generalizing conn with
  | nil => simp
  | cons migration rest ih =>
    rw [applyPending] at h ⊢
    split_ifs at h ⊢ with hdone
    · exact List.forall_mem_cons.mpr ⟨applied_subset accepts conn rest hdone, ih h⟩
    · exact List.forall_mem_cons.mpr ⟨applied_subset accepts _ rest (by simp), ih h⟩

/-- Applying twice does nothing the second time. -/
theorem applyPending_twice {accepts : Str → Bool} {conn : Migrated} {migrations : List (Str × Str)}
    (h : (applyPending accepts conn migrations).1 = true) :
    applyPending accepts (applyPending accepts conn migrations).2 migrations =
      applyPending accepts conn migrations := by
  have hnothing : ∀ conn : Migrated, ∀ ms : List (Str × Str), (∀ m ∈ ms, m.1 ∈ conn.applied) →
      applyPending accepts conn ms = (true, conn) := by
    intro conn ms hms
    induction ms with
    | nil => rfl
    | cons m ms ih =>
      obtain ⟨hm, hrest⟩ := List.forall_mem_cons.mp hms
      rw [applyPending, if_pos hm, ih hrest]
  rw [hnothing _ _ (applied_of_done h), ← h]

end Arcature.Jobs

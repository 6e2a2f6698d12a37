import Arcature.Lib.Text
import Mathlib.Logic.Function.Basic

/-! File trees on a disk that may fail.

    A tree has a directory or a file at a path, and what it has lies in directories. The operations that
    change it are numbered as they are carried out, and a schedule says which of them fails:

        fault      mkdir, rename       write
        clean      nothing is done     nothing is done
        cut k      nothing is done     the file has the first k characters

    An operation also fails where the tree does not allow it, and then it does nothing. What a directory
    and those above it come to is said by `createFrom_frame`, `createFrom_ok` and `createFrom_iff`. -/

namespace Arcature.Lib.FileTree
open Arcature.Lib

/-- A path by its names, from the root on. -/
abbrev Path := List Str

/-- What is at a path. -/
inductive Node where
  | dir
  | file (contents : Str)
  deriving DecidableEq

/-- A file tree: everything lies in a directory. -/
@[ext] structure Tree where
  node : Path → Option Node
  root : node [] = some .dir
  inside : ∀ p, p ≠ [] → node p ≠ none → node p.dropLast = some .dir

namespace Tree

/-- What is above something is a directory. -/
theorem dir_above (t : Tree) {a q : Path} (hq : t.node q ≠ none) (ha : a <+: q) (hne : a ≠ q) :
    t.node a = some .dir := by
  induction q using List.reverseRecOn with
  | nil => exact absurd (List.prefix_nil.mp ha) hne
  | append_singleton q x ih =>
    have hparent := t.inside (q ++ [x]) (by simp) hq
    rw [List.dropLast_concat] at hparent
    obtain rfl | haq := List.prefix_concat_iff.mp ha
    · exact absurd rfl hne
    · by_cases heq : a = q
      · rw [heq, hparent]
      · exact ih (by rw [hparent]; exact Option.some_ne_none _) haq heq

/-- There is nothing below what is not there. -/
theorem none_below (t : Tree) {a q : Path} (ha : t.node a = none) (haq : a <+: q) : t.node q = none := by
  by_contra hq
  by_cases heq : a = q
  · exact hq (heq ▸ ha)
  · rw [t.dir_above hq haq heq] at ha
    exact Option.some_ne_none _ ha

/-- There is nothing below a file. -/
theorem none_below_file (t : Tree) {a q : Path} {contents : Str} (ha : t.node a = some (.file contents))
    (haq : a <+: q) (hne : a ≠ q) : t.node q = none := by
  by_contra hq
  rw [t.dir_above hq haq hne] at ha
  simp at ha

/-- A file may be put at a path, or a directory if there is nothing yet. -/
def Open (t : Tree) (p : Path) : Prop := p ≠ [] ∧ t.node p.dropLast = some .dir ∧ t.node p ≠ some .dir

instance (t : Tree) (p : Path) : Decidable (t.Open p) :=
  inferInstanceAs (Decidable (p ≠ [] ∧ t.node p.dropLast = some .dir ∧ t.node p ≠ some .dir))

theorem dropLast_ne {p : Path} (h : p ≠ []) : p.dropLast ≠ p := by
  intro heq
  have hlen := congrArg List.length heq
  rw [List.length_dropLast] at hlen
  have hpos := List.length_pos_iff.mpr h
  omega

/-- The tree with something at a path. -/
def put (t : Tree) (p : Path) (n : Node) (h : t.Open p) : Tree where
  node := Function.update t.node p (some n)
  root := by rw [Function.update_of_ne (Ne.symm h.1), t.root]
  inside q hq hnode := by
    by_cases hqp : q = p
    · rw [hqp, Function.update_of_ne (dropLast_ne h.1), h.2.1]
    · rw [Function.update_of_ne hqp] at hnode
      have hparent := t.inside q hq hnode
      have hne : q.dropLast ≠ p := fun heq => h.2.2 (heq ▸ hparent)
      rw [Function.update_of_ne hne, hparent]

theorem node_put (t : Tree) (p q : Path) (n : Node) (h : t.Open p) :
    (t.put p n h).node q = if q = p then some n else t.node q := by
  exact Function.update_apply t.node p (some n) q

/-- What is at one path may be moved to another. -/
def Movable (t : Tree) (a b : Path) : Prop :=
  t.node a ≠ none ∧ t.node b = none ∧ b ≠ [] ∧ t.node b.dropLast = some .dir ∧ ¬ a <+: b

instance (t : Tree) (a b : Path) : Decidable (t.Movable a b) :=
  inferInstanceAs (Decidable (t.node a ≠ none ∧ t.node b = none ∧ b ≠ [] ∧ t.node b.dropLast = some .dir ∧ ¬ a <+: b))

/-- The tree with all that is at one path moved to another. -/
def move (t : Tree) (a b : Path) (h : t.Movable a b) : Tree where
  node p := if b <+: p then t.node (a ++ p.drop b.length) else if a <+: p then none else t.node p
  root := by
    have ha : ¬ a <+: [] := fun ha => h.2.2.2.2 (ha.trans List.nil_prefix)
    rw [if_neg fun hb => h.2.2.1 (List.prefix_nil.mp hb), if_neg ha, t.root]
  inside p hp hnode := by
    have hnot : ∀ c : Path, ¬ c <+: p → ¬ c <+: p.dropLast := fun c hc hpre => hc (hpre.trans (List.dropLast_prefix p))
    by_cases hb : b <+: p
    · obtain ⟨r, rfl⟩ := hb
      rw [if_pos (List.prefix_append b r), List.drop_left] at hnode
      by_cases hr : r = []
      · subst hr
        rw [List.append_nil]
        have hbelow : ¬ b <+: b.dropLast := fun hpre => dropLast_ne h.2.2.1
          ((List.dropLast_prefix b).eq_of_length_le hpre.length_le)
        rw [if_neg hbelow, if_neg fun ha => h.2.2.2.2 (ha.trans (List.dropLast_prefix b)), h.2.2.2.1]
      · have hparent := t.inside (a ++ r) (by simp [hr]) hnode
        rw [List.dropLast_append_of_ne_nil hr] at hparent ⊢
        rw [if_pos (List.prefix_append b _), List.drop_left, hparent]
    · rw [if_neg hb] at hnode
      split_ifs at hnode with ha
      · exact absurd rfl hnode
      · rw [if_neg (hnot b hb), if_neg (hnot a ha), t.inside p hp hnode]

/-- The tree without what is at a path. -/
def remove (t : Tree) (a : Path) (h : a ≠ []) : Tree where
  node p := if a <+: p then none else t.node p
  root := by rw [if_neg fun ha => h (List.prefix_nil.mp ha), t.root]
  inside p hp hnode := by
    split_ifs at hnode with ha
    · exact absurd rfl hnode
    · rw [if_neg fun hpre => ha (hpre.trans (List.dropLast_prefix p)), t.inside p hp hnode]

end Tree

/-- How an operation fails. -/
inductive Fault where
  | clean
  | cut (kept : ℕ)
  deriving DecidableEq

/-- A disk: what it holds, and which of the operations to come fail. -/
structure Disk where
  tree : Tree
  faults : ℕ → Option Fault

namespace Disk

/-- The disk after one more operation. -/
def after (d : Disk) (t : Tree) : Disk := ⟨t, fun n => d.faults (n + 1)⟩

/-- The disk when no operation fails any more. -/
def sound (d : Disk) : Disk := ⟨d.tree, fun _ => none⟩

/-- `exists`. -/
def pathExists (d : Disk) (p : Path) : Bool := (d.tree.node p).isSome

/-- One directory is made. -/
def mkdir (d : Disk) (p : Path) : Bool × Disk :=
  if h : d.tree.Open p ∧ d.tree.node p = none ∧ d.faults 0 = none then (true, d.after (d.tree.put p .dir h.1))
  else (false, d.after d.tree)

/-- `create_dir_all`, below a directory that is there. -/
def createFrom (d : Disk) (base : Path) : Path → Bool × Disk
  | [] => (true, d)
  | x :: rest =>
    match d.tree.node (base ++ [x]) with
    | some .dir => d.createFrom (base ++ [x]) rest
    | some (.file _) => (false, d)
    | none =>
      match d.mkdir (base ++ [x]) with
      | (true, d) => d.createFrom (base ++ [x]) rest
      | (false, d) => (false, d)

/-- `create_dir_all`. -/
def createDirAll (d : Disk) (p : Path) : Bool × Disk := d.createFrom [] p

/-- `write`. -/
def write (d : Disk) (p : Path) (contents : Str) : Bool × Disk :=
  if h : d.tree.Open p then
    match d.faults 0 with
    | none => (true, d.after (d.tree.put p (.file contents) h))
    | some .clean => (false, d.after d.tree)
    | some (.cut kept) => (false, d.after (d.tree.put p (.file (contents.take kept)) h))
  else (false, d.after d.tree)

/-- `rename`, to where there is nothing. -/
def rename (d : Disk) (a b : Path) : Bool × Disk :=
  if h : d.tree.Movable a b ∧ d.faults 0 = none then (true, d.after (d.tree.move a b h.1))
  else (false, d.after d.tree)

/-- `remove_dir_all`. -/
def removeDirAll (d : Disk) (a : Path) : Disk := if h : a ≠ [] then ⟨d.tree.remove a h, d.faults⟩ else d

/-! ### One operation -/

theorem mkdir_iff {d : Disk} {p : Path} :
    (d.mkdir p).1 = true ↔ d.tree.Open p ∧ d.tree.node p = none ∧ d.faults 0 = none := by
  rw [mkdir]
  split_ifs with h
  · exact iff_of_true rfl h
  · exact iff_of_false not_false h

theorem faults_mkdir (d : Disk) (p : Path) : (d.mkdir p).2.faults = fun n => d.faults (n + 1) := by
  rw [mkdir]
  split_ifs <;> rfl

theorem node_mkdir (d : Disk) (p q : Path) :
    (d.mkdir p).2.tree.node q = if (d.mkdir p).1 = true ∧ q = p then some .dir else d.tree.node q := by
  rw [mkdir]
  split_ifs with h hq hq
  · rw [after, Tree.node_put, if_pos hq.2]
  · rw [after, Tree.node_put, if_neg fun heq => hq ⟨rfl, heq⟩]
  · exact hq.1.elim
  · rfl

theorem write_iff {d : Disk} {p : Path} {contents : Str} :
    (d.write p contents).1 = true ↔ d.tree.Open p ∧ d.faults 0 = none := by
  rw [write]
  split_ifs with h
  · cases hfault : d.faults 0 with
    | none => exact iff_of_true rfl ⟨h, rfl⟩
    | some fault => cases fault <;> exact iff_of_false Bool.false_ne_true fun hfaults => by simp at hfaults
  · exact iff_of_false not_false fun hopen => h hopen.1

theorem faults_write (d : Disk) (p : Path) (contents : Str) :
    (d.write p contents).2.faults = fun n => d.faults (n + 1) := by
  rw [write]
  split_ifs
  · cases d.faults 0 with
    | none => rfl
    | some fault => cases fault <;> rfl
  · rfl

/-- What a write leaves at the path. -/
def written (d : Disk) (p : Path) (contents : Str) : Option Node :=
  if d.tree.Open p then
    match d.faults 0 with
    | none => some (.file contents)
    | some .clean => d.tree.node p
    | some (.cut kept) => some (.file (contents.take kept))
  else d.tree.node p

theorem written_of_write {d : Disk} {p : Path} {contents : Str} (h : (d.write p contents).1 = true) :
    d.written p contents = some (.file contents) := by
  obtain ⟨hopen, hfault⟩ := write_iff.mp h
  rw [written, if_pos hopen, hfault]

theorem node_write (d : Disk) (p q : Path) (contents : Str) :
    (d.write p contents).2.tree.node q = if q = p then d.written p contents else d.tree.node q := by
  have hself : d.tree.node q = if q = p then d.tree.node p else d.tree.node q := by
    split_ifs with hq
    · rw [hq]
    · rfl
  rw [write, written]
  by_cases h : d.tree.Open p
  · rw [dif_pos h, if_pos h]
    cases d.faults 0 with
    | none => exact d.tree.node_put p q _ h
    | some fault =>
      cases fault with
      | clean => exact hself
      | cut kept => exact d.tree.node_put p q _ h
  · rw [dif_neg h, if_neg h]
    exact hself

/-- No write touches a directory. -/
theorem dir_write {d : Disk} {q : Path} (h : d.tree.node q = some .dir) (p : Path) (contents : Str) :
    (d.write p contents).2.tree.node q = some .dir := by
  rw [node_write]
  split_ifs with hq
  · subst hq
    rw [written, if_neg fun hopen => hopen.2.2 h, h]
  · exact h

theorem rename_iff {d : Disk} {a b : Path} : (d.rename a b).1 = true ↔ d.tree.Movable a b ∧ d.faults 0 = none := by
  rw [rename]
  split_ifs with h
  · exact iff_of_true rfl h
  · exact iff_of_false not_false h

theorem node_rename {d : Disk} {a b : Path} (h : (d.rename a b).1 = true) (p : Path) :
    (d.rename a b).2.tree.node p =
      if b <+: p then d.tree.node (a ++ p.drop b.length) else if a <+: p then none else d.tree.node p := by
  rw [rename, dif_pos (rename_iff.mp h)]
  rfl

theorem tree_rename {d : Disk} {a b : Path} (h : ¬ (d.rename a b).1 = true) : (d.rename a b).2.tree = d.tree := by
  rw [rename, dif_neg fun hmove => h (rename_iff.mpr hmove)]
  rfl

theorem node_removeDirAll (d : Disk) {a : Path} (h : a ≠ []) (p : Path) :
    (d.removeDirAll a).tree.node p = if a <+: p then none else d.tree.node p := by
  rw [removeDirAll, dif_pos h]
  rfl

/-! ### A directory and those above it -/

/-- There is no file on the way from a directory down. -/
def Clear (node : Path → Option Node) (base rest : Path) : Prop :=
  ∀ r, r <+: rest → ∀ contents, node (base ++ r) ≠ some (.file contents)

/-- How many directories are missing on the way. -/
def missing (node : Path → Option Node) (base : Path) : Path → ℕ
  | [] => 0
  | x :: rest => (if node (base ++ [x]) = none then 1 else 0) + missing node (base ++ [x]) rest

theorem clear_cons {node : Path → Option Node} {base rest : Path} {x : Str} (hbase : node base = some .dir) :
    Clear node base (x :: rest) ↔ Clear node (base ++ [x]) rest := by
  constructor
  · intro h r hr
    rw [List.append_assoc]
    exact h (x :: r) (List.cons_prefix_cons.mpr ⟨rfl, hr⟩)
  · intro h r hr
    rcases List.prefix_cons_iff.mp hr with rfl | ⟨r, rfl, hrest⟩
    · simp [hbase]
    · have hfree := h r hrest
      rwa [List.append_assoc] at hfree

theorem missing_congr {node node' : Path → Option Node} {base base' : Path}
    (h : ∀ r, r ≠ [] → node (base ++ r) = node' (base' ++ r)) (rest : Path) :
    missing node base rest = missing node' base' rest := by
  induction rest generalizing base base' with
  | nil => rfl
  | cons x rest ih =>
    rw [missing, missing, h [x] (List.cons_ne_nil _ _), ih fun r _ => ?_]
    rw [List.append_assoc, List.append_assoc]
    exact h _ (by simp)

theorem createFrom_frame (d : Disk) (base rest q : Path) :
    (d.createFrom base rest).2.tree.node q = d.tree.node q ∨
      d.tree.node q = none ∧ (d.createFrom base rest).2.tree.node q = some .dir ∧ base <+: q ∧ q <+: base ++ rest := by
  induction rest generalizing d base with
  | nil => exact .inl rfl
  | cons x rest ih =>
    have hsplit : base ++ x :: rest = base ++ [x] ++ rest := by rw [List.append_assoc, List.singleton_append]
    have hnext : base <+: base ++ [x] := List.prefix_append _ _
    rw [createFrom, hsplit]
    cases hnode : d.tree.node (base ++ [x]) with
    | some node =>
      cases node with
      | file contents => exact .inl rfl
      | dir => exact (ih d (base ++ [x])).imp_right fun ⟨hnone, hdir, hbelow, hpre⟩ =>
          ⟨hnone, hdir, hnext.trans hbelow, hpre⟩
    | none =>
      have hmade := d.node_mkdir (base ++ [x]) q
      rcases hmkdir : d.mkdir (base ++ [x]) with ⟨ok, d'⟩
      rw [hmkdir] at hmade
      cases ok with
      | false => exact .inl (by simpa using hmade)
      | true =>
        simp only [true_and] at hmade
        by_cases hq : q = base ++ [x]
        · rw [if_pos hq] at hmade
          refine .inr ⟨hq ▸ hnode, ?_, hq ▸ hnext, hq ▸ List.prefix_append _ _⟩
          rcases ih d' (base ++ [x]) with heq | ⟨-, hdir, -⟩
          · exact heq.trans hmade
          · exact hdir
        · rw [if_neg hq] at hmade
          rcases ih d' (base ++ [x]) with heq | ⟨hnone, hdir, hbelow, hpre⟩
          · exact .inl (heq.trans hmade)
          · exact .inr ⟨hmade ▸ hnone, hdir, hnext.trans hbelow, hpre⟩

/-- It is done if and only if there is no file in the way, and none of the missing directories fails. -/
theorem createFrom_iff {d : Disk} {base : Path} (hbase : d.tree.node base = some .dir) (rest : Path) :
    (d.createFrom base rest).1 = true ↔
      Clear d.tree.node base rest ∧ ∀ i < missing d.tree.node base rest, d.faults i = none := by
  induction rest generalizing d base with
  | nil =>
    refine iff_of_true rfl ⟨fun r hr contents => ?_, fun i hi => absurd hi (Nat.not_lt_zero i)⟩
    rw [List.prefix_nil.mp hr, List.append_nil, hbase]
    simp
  | cons x rest ih =>
    rw [clear_cons hbase, createFrom, missing]
    cases hnode : d.tree.node (base ++ [x]) with
    | some node =>
      cases node with
      | file contents =>
        refine iff_of_false Bool.false_ne_true fun h => h.1 [] List.nil_prefix contents ?_
        rw [List.append_nil, hnode]
      | dir =>
        rw [if_neg (Option.some_ne_none _), Nat.zero_add]
        exact ih hnode
    | none =>
      have hopen : d.tree.Open (base ++ [x]) := by
        refine ⟨by simp, ?_, by simp [hnode]⟩
        rw [List.dropLast_concat, hbase]
      rw [if_pos rfl, Nat.add_comm]
      cases hfault : d.faults 0 with
      | some fault =>
        have hfailed : (d.mkdir (base ++ [x])).1 = false := by
          rw [Bool.eq_false_iff, ne_eq, mkdir_iff, hfault]
          simp
        rcases hmkdir : d.mkdir (base ++ [x]) with ⟨ok, d'⟩
        rw [hmkdir] at hfailed
        obtain rfl : ok = false := hfailed
        refine iff_of_false Bool.false_ne_true fun h => ?_
        have h0 := h.2 0 (Nat.succ_pos _)
        rw [hfault] at h0
        exact Option.some_ne_none _ h0
      | none =>
        have hmade := mkdir_iff.mpr ⟨hopen, hnode, hfault⟩
        have hfaults := d.faults_mkdir (base ++ [x])
        have hnodes := d.node_mkdir (base ++ [x])
        rw [hmade] at hnodes
        simp only [true_and] at hnodes
        rcases hmkdir : d.mkdir (base ++ [x]) with ⟨ok, d'⟩
        rw [hmkdir] at hmade hfaults hnodes
        obtain rfl : ok = true := hmade
        have hbelow : ∀ r, r ≠ [] → d'.tree.node (base ++ [x] ++ r) = d.tree.node (base ++ [x] ++ r) := by
          intro r hr
          rw [hnodes, if_neg fun heq => hr (List.append_right_eq_self.mp heq)]
        have hdir : d'.tree.node (base ++ [x]) = some .dir := by rw [hnodes, if_pos rfl]
        have hclear : Clear d'.tree.node (base ++ [x]) rest ↔ Clear d.tree.node (base ++ [x]) rest := by
          refine forall₂_congr fun r _ => forall_congr' fun contents => ?_
          by_cases hr : r = []
          · rw [hr, List.append_nil, hdir, hnode]
            simp
          · rw [hbelow r hr]
        dsimp only
        rw [ih hdir, hclear, missing_congr hbelow, hfaults]
        refine and_congr_right fun _ => ⟨fun h i hi => ?_, fun h i hi => h (i + 1) (Nat.succ_lt_succ hi)⟩
        cases i with
        | zero => exact hfault
        | succ i => exact h i (Nat.lt_of_succ_lt_succ hi)

/-- When it is done, as many operations have been carried out as directories were missing. -/
theorem faults_createFrom {d : Disk} {base rest : Path} (h : (d.createFrom base rest).1 = true) :
    (d.createFrom base rest).2.faults = fun n => d.faults (n + missing d.tree.node base rest) := by
  induction rest generalizing d base with
  | nil => rfl
  | cons x rest ih =>
    rw [createFrom] at h ⊢
    rw [missing]
    cases hnode : d.tree.node (base ++ [x]) with
    | some node =>
      rw [hnode] at h
      cases node with
      | file contents => exact absurd h Bool.false_ne_true
      | dir =>
        rw [if_neg (Option.some_ne_none _), Nat.zero_add]
        exact ih h
    | none =>
      have hfaults := d.faults_mkdir (base ++ [x])
      have hnodes := d.node_mkdir (base ++ [x])
      rw [hnode] at h
      rcases hmkdir : d.mkdir (base ++ [x]) with ⟨ok, d'⟩
      rw [hmkdir] at h hfaults hnodes
      cases ok with
      | false => exact absurd h Bool.false_ne_true
      | true =>
        have hbelow : ∀ r, r ≠ [] → d'.tree.node (base ++ [x] ++ r) = d.tree.node (base ++ [x] ++ r) := by
          intro r hr
          rw [hnodes, if_neg fun heq => hr (List.append_right_eq_self.mp heq.2)]
        refine (ih h).trans ?_
        rw [missing_congr hbelow, hfaults, if_pos rfl]
        funext n
        exact congrArg d.faults (by omega)

theorem dir_createFrom {d : Disk} {base rest : Path} (hbase : d.tree.node base = some .dir)
    (h : (d.createFrom base rest).1 = true) : (d.createFrom base rest).2.tree.node (base ++ rest) = some .dir := by
  induction rest generalizing d base with
  | nil => rwa [List.append_nil]
  | cons x rest ih =>
    have hsplit : base ++ x :: rest = base ++ [x] ++ rest := by rw [List.append_assoc, List.singleton_append]
    rw [createFrom, hsplit] at *
    cases hnode : d.tree.node (base ++ [x]) with
    | some node =>
      rw [hnode] at h
      cases node with
      | file contents => exact absurd h Bool.false_ne_true
      | dir => exact ih hnode h
    | none =>
      have hnodes := d.node_mkdir (base ++ [x])
      rw [hnode] at h
      rcases hmkdir : d.mkdir (base ++ [x]) with ⟨ok, d'⟩
      rw [hmkdir] at h hnodes
      cases ok with
      | false => exact absurd h Bool.false_ne_true
      | true => exact ih (by rw [hnodes, if_pos ⟨rfl, rfl⟩]) h

/-- The first missing directory is made unless its operation fails. -/
theorem createFrom_first {d : Disk} {base : Path} {x : Str} (hbase : d.tree.node base = some .dir)
    (hnone : d.tree.node (base ++ [x]) = none) (rest : Path) :
    (d.createFrom base (x :: rest)).2.tree.node (base ++ [x]) = if d.faults 0 = none then some .dir else none := by
  have hopen : d.tree.Open (base ++ [x]) := by
    refine ⟨by simp, ?_, by simp [hnone]⟩
    rw [List.dropLast_concat, hbase]
  have hmade := mkdir_iff (d := d) (p := base ++ [x])
  have hnodes := d.node_mkdir (base ++ [x]) (base ++ [x])
  rw [and_iff_right hopen, and_iff_right hnone] at hmade
  rw [createFrom, hnone]
  rcases hmkdir : d.mkdir (base ++ [x]) with ⟨ok, d'⟩
  rw [hmkdir] at hmade hnodes
  cases ok with
  | false =>
    rw [if_neg fun hfault => Bool.false_ne_true (hmade.mpr hfault)]
    exact hnodes.trans ((if_neg fun h => Bool.false_ne_true h.1).trans hnone)
  | true =>
    rw [if_pos (hmade.mp rfl)]
    have hdir := hnodes.trans (if_pos ⟨rfl, rfl⟩)
    rcases d'.createFrom_frame (base ++ [x]) rest (base ++ [x]) with h | ⟨-, h, -⟩
    · exact h.trans hdir
    · exact h

/-- What is there already is passed over. -/
theorem createFrom_append {d : Disk} {base : Path} {there : Path} (hthere : d.tree.node (base ++ there) = some .dir)
    (rest : Path) : d.createFrom base (there ++ rest) = d.createFrom (base ++ there) rest := by
  induction there generalizing base with
  | nil => rw [List.append_nil, List.nil_append]
  | cons x there ih =>
    have hsplit : base ++ x :: there = base ++ [x] ++ there := by rw [List.append_assoc, List.singleton_append]
    rw [hsplit] at hthere ⊢
    have hx : d.tree.node (base ++ [x]) = some .dir := by
      by_cases heq : there = []
      · rwa [heq, List.append_nil] at hthere
      · exact d.tree.dir_above (by rw [hthere]; exact Option.some_ne_none _) (List.prefix_append _ _)
          fun h => heq (List.append_right_eq_self.mp h.symm)
    rw [List.cons_append, createFrom, hx]
    exact ih hthere

theorem missing_append {t : Tree} {base : Path} {there : Path} (hthere : t.node (base ++ there) = some .dir)
    (rest : Path) : missing t.node base (there ++ rest) = missing t.node (base ++ there) rest := by
  induction there generalizing base with
  | nil => rw [List.append_nil, List.nil_append]
  | cons x there ih =>
    have hsplit : base ++ x :: there = base ++ [x] ++ there := by rw [List.append_assoc, List.singleton_append]
    rw [hsplit] at hthere ⊢
    have hx : t.node (base ++ [x]) ≠ none := by
      intro hnone
      rw [t.none_below hnone (List.prefix_append _ _)] at hthere
      exact Option.some_ne_none _ hthere.symm
    rw [List.cons_append, missing, if_neg hx, Nat.zero_add, ih hthere]

theorem createDirAll_iff (d : Disk) (p : Path) :
    (d.createDirAll p).1 = true ↔
      Clear d.tree.node [] p ∧ ∀ i < missing d.tree.node [] p, d.faults i = none :=
  createFrom_iff d.tree.root p

theorem faults_createDirAll {d : Disk} {p : Path} (h : (d.createDirAll p).1 = true) :
    (d.createDirAll p).2.faults = fun n => d.faults (n + missing d.tree.node [] p) :=
  faults_createFrom h

theorem dir_createDirAll {d : Disk} {p : Path} (h : (d.createDirAll p).1 = true) :
    (d.createDirAll p).2.tree.node p = some .dir :=
  dir_createFrom d.tree.root h

/-- From a directory that is there, only what is below it is made. -/
theorem createDirAll_append {d : Disk} {there : Path} (h : d.tree.node there = some .dir) (rest : Path) :
    d.createDirAll (there ++ rest) = d.createFrom there rest :=
  createFrom_append (by exact h) rest

end Disk

end Arcature.Lib.FileTree

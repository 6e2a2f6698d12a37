import Arcature.Templates

/-! The generated TypeScript (`cli/commands/typegen.rs`).

    Four files are written one after the other, and a file that has the right contents already is passed
    over:

        routes.ts     as it should be     passed over
        pages.d.ts    other contents      written
        forms.ts      missing             fails, and pages.d.ts has been changed

    The emission is documented as all or nothing. It is so if and only if the first write is the only
    one that fails, and leaves its file alone (`emitted_iff`). -/

namespace Arcature.Cli.Typegen
open Arcature.Lib Arcature.Lib.FileTree Arcature.Templates

/-- `TypegenError` of `emit`, for diagnostics `δ` and without the errors of the system. -/
inductive TypegenError (δ : Type) where
  | invalid (diagnostics : List δ)
  | write (path : Path)

/-- `OUTPUT_DIR`. -/
def outputDir : Path := ["resources".toList, "js".toList, "generated".toList]

/-- What `routes_ts`, `pages_dts`, `forms_ts` and `index_ts` have generated. -/
structure Generated where
  routes : Str
  pages : Str
  forms : Str
  index : Str

/-- The files in the order of emission. -/
def Generated.files (generated : Generated) : List (Str × Str) :=
  [("routes.ts".toList, generated.routes), ("pages.d.ts".toList, generated.pages),
    ("forms.ts".toList, generated.forms), ("index.ts".toList, generated.index)]

/-- The loop of `emit`. -/
def emitFiles {δ : Type} (d : Disk) (directory : Path) (written : List Path) :
    List (Str × Str) → Except (TypegenError δ) (List Path) × Disk
  | [] => (.ok written, d)
  | (name, contents) :: files =>
    let path := directory ++ [name]
    if d.tree.node path = some (.file contents) then emitFiles d directory (written ++ [path]) files
    else match d.write path contents with
      | (false, d) => (.error (.write path), d)
      | (true, d) => emitFiles d directory (written ++ [path]) files

/-- `emit`, for what `validate` finds and the codegen generates. -/
def emit {δ : Type} (validate : Tree → List δ) (generated : Generated) (d : Disk) (root : Path) :
    Except (TypegenError δ) (List Path) × Disk :=
  match validate d.tree with
  | diagnostic :: diagnostics => (.error (.invalid (diagnostic :: diagnostics)), d)
  | [] =>
    let directory := root ++ outputDir
    match d.createDirAll directory with
    | (false, d) => (.error (.write directory), d)
    | (true, d) => emitFiles d directory [] generated.files

/-! ### What is written -/

/-- The files that do not have the right contents yet. -/
def stale (t : Tree) (directory : Path) (files : List (Str × Str)) : List (Str × Str) :=
  files.filter fun file => t.node (directory ++ [file.1]) ≠ some (.file file.2)

/-- The write of a file that comes after some operations does not fail. -/
def Fits (d : Disk) (directory : Path) (n : ℕ) (file : Str × Str) : Prop :=
  d.tree.node (directory ++ [file.1]) ≠ some .dir ∧ d.faults n = none

/-- The write of a file fails and leaves what is there. -/
def Kept (d : Disk) (directory : Path) (n : ℕ) (file : Str × Str) : Prop :=
  d.tree.node (directory ++ [file.1]) = some .dir ∨ d.faults n = some .clean ∨
    ∃ k, d.faults n = some (.cut k) ∧ d.tree.node (directory ++ [file.1]) = some (.file (file.2.take k))

/-- No write fails, or it is the first and leaves what is there. -/
def Untorn (d : Disk) (directory : Path) (n : ℕ) (files : List (Str × Str)) : Prop :=
  (∀ j file, (stale d.tree directory files)[j]? = some file → Fits d directory (n + j) file) ∨
    ∃ file, (stale d.tree directory files).head? = some file ∧ Kept d directory n file

section emitFiles

variable {δ : Type} {d : Disk} {directory : Path}

theorem emitFiles_cons (d : Disk) (directory : Path) (written : List Path) (file : Str × Str)
    (files : List (Str × Str)) :
    @emitFiles δ d directory written (file :: files) =
      if d.tree.node (directory ++ [file.1]) = some (.file file.2) then
        emitFiles d directory (written ++ [directory ++ [file.1]]) files
      else if (d.write (directory ++ [file.1]) file.2).1 = true then
        emitFiles (d.write (directory ++ [file.1]) file.2).2 directory (written ++ [directory ++ [file.1]]) files
      else (.error (.write (directory ++ [file.1])), (d.write (directory ++ [file.1]) file.2).2) := by
  rw [emitFiles]
  split_ifs with hsame hwrote
  · rfl
  · rcases hw : d.write (directory ++ [file.1]) file.2 with ⟨wrote, d'⟩
    rw [hw] at hwrote
    obtain rfl : wrote = true := hwrote
    rfl
  · rcases hw : d.write (directory ++ [file.1]) file.2 with ⟨wrote, d'⟩
    rw [hw] at hwrote
    obtain rfl : wrote = false := Bool.eq_false_iff.mpr hwrote
    rfl

/-- Only the files are written. -/
theorem emitFiles_frame (d : Disk) (written : List Path) {files : List (Str × Str)} {q : Path}
    (hq : ∀ file ∈ files, q ≠ directory ++ [file.1]) :
    (@emitFiles δ d directory written files).2.tree.node q = d.tree.node q := by
  induction files generalizing d written with
  | nil => rfl
  | cons file files ih =>
    obtain ⟨hne, hrest⟩ := List.forall_mem_cons.mp hq
    have hwrite := (d.node_write (directory ++ [file.1]) q file.2).trans (if_neg hne)
    rw [emitFiles_cons]
    split_ifs
    · exact ih d _ hrest
    · exact (ih _ _ hrest).trans hwrite
    · exact hwrite

/-- In a directory that is there, a write is done unless there is a directory in the place or the operation fails. -/
theorem write_fits (hdir : d.tree.node directory = some .dir) (file : Str × Str) :
    (d.write (directory ++ [file.1]) file.2).1 = true ↔ Fits d directory 0 file := by
  rw [Disk.write_iff, Tree.Open, List.dropLast_concat, Fits]
  simp [hdir]

/-- What a write leaves is what was there, if it is not done and only then. -/
theorem written_kept (hdir : d.tree.node directory = some .dir) {file : Str × Str}
    (hstale : d.tree.node (directory ++ [file.1]) ≠ some (.file file.2)) :
    d.written (directory ++ [file.1]) file.2 = d.tree.node (directory ++ [file.1]) ↔ Kept d directory 0 file := by
  have hopen : d.tree.Open (directory ++ [file.1]) ↔ d.tree.node (directory ++ [file.1]) ≠ some .dir := by
    rw [Tree.Open, List.dropLast_concat]
    simp [hdir]
  rw [Disk.written, Kept]
  by_cases hnode : d.tree.node (directory ++ [file.1]) = some .dir
  · rw [if_neg fun h => hopen.mp h hnode]
    exact iff_of_true rfl (.inl hnode)
  · rw [if_pos (hopen.mpr hnode), or_iff_right hnode]
    cases d.faults 0 with
    | none => simp [Ne.symm hstale]
    | some fault =>
      cases fault with
      | clean => simp
      | cut kept => simp [eq_comm]

/-- What is stale stays so when another file is written. -/
theorem stale_congr {t t' : Tree} {files : List (Str × Str)}
    (h : ∀ file ∈ files, t'.node (directory ++ [file.1]) = t.node (directory ++ [file.1])) :
    stale t' directory files = stale t directory files :=
  List.filter_congr fun file hfile => by rw [h file hfile]

theorem stale_cons (t : Tree) (directory : Path) (file : Str × Str) (files : List (Str × Str)) :
    stale t directory (file :: files) =
      if t.node (directory ++ [file.1]) = some (.file file.2) then stale t directory files
      else file :: stale t directory files := by
  simp only [stale, List.filter_cons, ne_eq, decide_not, Bool.not_eq_true', decide_eq_false_iff_not, ite_not]

/-- Every file is written that has to be if and only if no write fails. -/
theorem emitFiles_isOk (hdir : d.tree.node directory = some .dir) (written : List Path) {files : List (Str × Str)}
    (hnames : (files.map Prod.fst).Nodup) :
    (@emitFiles δ d directory written files).1.isOk = true ↔
      ∀ j file, (stale d.tree directory files)[j]? = some file → Fits d directory j file := by
  induction files generalizing d written with
  | nil => exact iff_of_true rfl fun j file h => by simp [stale] at h
  | cons file files ih =>
    obtain ⟨hname, hrest⟩ := List.nodup_cons.mp hnames
    rw [emitFiles_cons, stale_cons]
    by_cases hsame : d.tree.node (directory ++ [file.1]) = some (.file file.2)
    · rw [if_pos hsame, if_pos hsame]
      exact ih hdir _ hrest
    · rw [if_neg hsame, if_neg hsame]
      have hfits := write_fits hdir file
      by_cases hwrote : (d.write (directory ++ [file.1]) file.2).1 = true
      · have hnode := d.node_write (directory ++ [file.1])
        have hothers : ∀ f ∈ files, (d.write (directory ++ [file.1]) file.2).2.tree.node (directory ++ [f.1]) =
            d.tree.node (directory ++ [f.1]) := by
          intro f hf
          refine (hnode _ _).trans (if_neg fun heq => hname ?_)
          exact List.mem_map.mpr ⟨f, hf, List.singleton_inj.mp (List.append_cancel_left heq)⟩
        rw [if_pos hwrote, ih (Disk.dir_write hdir _ _) _ hrest, stale_congr hothers]
        constructor
        · intro h j f hf
          cases j with
          | zero => exact Option.some.inj hf ▸ hfits.mp hwrote
          | succ j =>
            obtain ⟨hplace, hfault⟩ := h j f hf
            rw [hothers f (List.mem_of_mem_filter (List.mem_of_getElem? hf))] at hplace
            rw [Disk.faults_write] at hfault
            exact ⟨hplace, hfault⟩
        · intro h j f hf
          obtain ⟨hplace, hfault⟩ := h (j + 1) f hf
          refine ⟨?_, ?_⟩
          · rw [hothers f (List.mem_of_mem_filter (List.mem_of_getElem? hf))]
            exact hplace
          · rw [Disk.faults_write]
            exact hfault
      · rw [if_neg hwrote]
        exact iff_of_false (by simp [Except.isOk, Except.toBool]) fun h => hwrote (hfits.mpr (h 0 file rfl))

/-- Files are left as they are where the first write fails and leaves its own, and only there. -/
theorem emitFiles_unchanged (hdir : d.tree.node directory = some .dir) (written : List Path)
    {files : List (Str × Str)} (hnames : (files.map Prod.fst).Nodup)
    (hfailed : ¬ (@emitFiles δ d directory written files).1.isOk = true) :
    (∀ file ∈ files, (@emitFiles δ d directory written files).2.tree.node (directory ++ [file.1]) =
        d.tree.node (directory ++ [file.1])) ↔
      ∃ file, (stale d.tree directory files).head? = some file ∧ Kept d directory 0 file := by
  induction files generalizing d written with
  | nil => exact absurd rfl hfailed
  | cons file files ih =>
    obtain ⟨hname, hrest⟩ := List.nodup_cons.mp hnames
    -- The other files are not this one.
    have hother : ∀ f ∈ files, directory ++ [f.1] ≠ directory ++ [file.1] := fun f hf heq =>
      hname (List.mem_map.mpr ⟨f, hf, List.singleton_inj.mp (List.append_cancel_left heq)⟩)
    rw [emitFiles_cons] at hfailed ⊢
    rw [stale_cons, List.forall_mem_cons]
    by_cases hsame : d.tree.node (directory ++ [file.1]) = some (.file file.2)
    · rw [if_pos hsame] at hfailed ⊢
      rw [if_pos hsame, ih hdir _ hrest hfailed, and_iff_right]
      exact emitFiles_frame d _ fun f hf => (hother f hf).symm
    · rw [if_neg hsame] at hfailed ⊢
      rw [if_neg hsame]
      have hkept := written_kept hdir hsame
      have hself := (d.node_write (directory ++ [file.1]) (directory ++ [file.1]) file.2).trans (if_pos rfl)
      by_cases hwrote : (d.write (directory ++ [file.1]) file.2).1 = true
      · -- What is written is not what was there, and it stays.
        rw [if_pos hwrote]
        have hput : d.written (directory ++ [file.1]) file.2 = some (.file file.2) := by
          obtain ⟨hopen, hfault⟩ := Disk.write_iff.mp hwrote
          rw [Disk.written, if_pos hopen, hfault]
        refine iff_of_false (fun h => hsame ?_) ?_
        · rw [← h.1, emitFiles_frame _ _ fun f hf => (hother f hf).symm, hself, hput]
        · rintro ⟨f, hf, hfkept⟩
          obtain rfl := Option.some.inj hf
          exact hsame ((hkept.mpr hfkept).symm.trans hput)
      · rw [if_neg hwrote]
        have hrests : ∀ f ∈ files, (d.write (directory ++ [file.1]) file.2).2.tree.node (directory ++ [f.1]) =
            d.tree.node (directory ++ [f.1]) := fun f hf => (d.node_write _ _ _).trans (if_neg (hother f hf))
        rw [and_iff_left hrests, hself, hkept]
        simp

end emitFiles

/-! ### All or nothing -/

/-- The four files have four names. -/
theorem Generated.nodup_names (generated : Generated) : (generated.files.map Prod.fst).Nodup := by
  simp only [Generated.files, List.map_cons, List.map_nil]
  decide

/-- An emission that fails leaves the generated files as they were. -/
def Emitted {δ : Type} (validate : Tree → List δ) (generated : Generated) (d : Disk) (root : Path) : Prop :=
  (emit validate generated d root).1.isOk = false → ∀ file ∈ generated.files,
    (emit validate generated d root).2.tree.node (root ++ outputDir ++ [file.1]) =
      d.tree.node (root ++ outputDir ++ [file.1])

/-- The emission is all or nothing if and only if it does not begin to write, or no write fails, or the first does and
    leaves its file alone. -/
theorem emitted_iff {δ : Type} (validate : Tree → List δ) (generated : Generated) (d : Disk) (root : Path) :
    Emitted validate generated d root ↔
      (validate d.tree = [] → Disk.Clear d.tree.node [] (root ++ outputDir) →
        (∀ i < Disk.missing d.tree.node [] (root ++ outputDir), d.faults i = none) →
        Untorn d (root ++ outputDir) (Disk.missing d.tree.node [] (root ++ outputDir)) generated.files) := by
  have hcreate := d.createDirAll_iff (root ++ outputDir)
  have hframe := fun name => d.createFrom_frame [] (root ++ outputDir) (root ++ outputDir ++ [name])
  have hfaults := @Disk.faults_createDirAll d (root ++ outputDir)
  have hdir := @Disk.dir_createDirAll d (root ++ outputDir)
  -- The directories that are made are above the files.
  have hplaces : ∀ name, (d.createDirAll (root ++ outputDir)).2.tree.node (root ++ outputDir ++ [name]) =
      d.tree.node (root ++ outputDir ++ [name]) := by
    intro name
    refine (hframe name).resolve_right fun h => ?_
    have hlen := h.2.2.2.length_le
    simp only [List.nil_append, List.length_append, List.length_singleton] at hlen
    omega
  rw [Emitted, emit]
  cases validate d.tree with
  | cons diagnostic diagnostics => exact iff_of_true (fun _ _ _ => rfl) fun h => absurd h (by simp)
  | nil =>
    rw [imp_iff_right rfl]
    dsimp only
    rcases hmade : d.createDirAll (root ++ outputDir) with ⟨made, d'⟩
    rw [hmade] at hcreate hfaults hdir hplaces
    cases made with
    | false =>
      exact iff_of_true (fun _ file _ => hplaces file.1) fun hclear hnone =>
        absurd (hcreate.mpr ⟨hclear, hnone⟩) Bool.false_ne_true
    | true =>
      obtain ⟨hclear, hnone⟩ := hcreate.mp rfl
      dsimp only at hplaces hfaults
      have hnames := generated.nodup_names
      have hstale : stale d'.tree (root ++ outputDir) generated.files =
          stale d.tree (root ++ outputDir) generated.files := stale_congr fun file _ => hplaces file.1
      have hfits : ∀ j file, Fits d' (root ++ outputDir) j file ↔
          Fits d (root ++ outputDir) (Disk.missing d.tree.node [] (root ++ outputDir) + j) file := by
        intro j file
        rw [Fits, Fits, hplaces, hfaults rfl, Nat.add_comm]
      have hkept : ∀ file, Kept d' (root ++ outputDir) 0 file ↔
          Kept d (root ++ outputDir) (Disk.missing d.tree.node [] (root ++ outputDir)) file := by
        intro file
        rw [Kept, Kept, hplaces, hfaults rfl]
        simp only [Nat.zero_add]
      have hok := @emitFiles_isOk δ _ _ (hdir rfl) [] _ hnames
      have hunchanged := @emitFiles_unchanged δ _ _ (hdir rfl) [] _ hnames
      simp only [hstale, hfits, hkept, hplaces] at hok hunchanged
      rw [imp_iff_right hclear, imp_iff_right hnone, Untorn, ← hok]
      by_cases h : (@emitFiles δ d' (root ++ outputDir) [] generated.files).1.isOk = true
      · exact iff_of_true (fun hno => absurd (h.symm.trans hno) (by simp)) (.inl h)
      · rw [or_iff_right h, ← hunchanged h, imp_iff_right (Bool.eq_false_iff.mpr h)]

/-- Generating an application is all or nothing if and only if no operation fails between the staging directory and
    the rename, and emitting the TypeScript is if and only if the first write alone can fail and leaves its file. -/
theorem all_or_nothing_iff {δ : Type} (d : Disk) :
    (∀ target files, AllOrNothing d target files ↔ (Ready d.tree target files → ¬ Interrupted d target files)) ∧
      ∀ (validate : Tree → List δ) (generated : Generated) (root : Path), Emitted validate generated d root ↔
        (validate d.tree = [] → Disk.Clear d.tree.node [] (root ++ outputDir) →
          (∀ i < Disk.missing d.tree.node [] (root ++ outputDir), d.faults i = none) →
          Untorn d (root ++ outputDir) (Disk.missing d.tree.node [] (root ++ outputDir)) generated.files) :=
  ⟨allOrNothing_iff d, fun validate generated root => emitted_iff validate generated d root⟩

/-- A tree with nothing in it. -/
def bare : Tree where
  node p := if p = [] then some .dir else none
  root := rfl
  inside p hp hnode := by
    rw [if_neg hp] at hnode
    exact absurd rfl hnode

/-- A bare disk on which one operation fails and does nothing. -/
def failing (n : ℕ) : Disk := ⟨bare, fun i => if i = n then some .clean else none⟩

/-- The file of a small application. -/
def manifest : Rendered := ⟨[], "Cargo.toml".toList, "[package]".toList⟩

/-- The first file of an application fails, and the next call stops at the staging directory. The second of the
    generated files fails, and the first has been written. -/
theorem half_generated :
    ¬ AllOrNothing (failing 1) ["shop".toList] [manifest] ∧
      (generate (generate (failing 1) ["shop".toList] [manifest]).2.sound ["shop".toList] [manifest]).1 =
        .error (.invalidDestination "staging directory already exists: .shop.arcature-staging".toList) ∧
      ¬ Emitted (fun _ => ([] : List Unit)) ⟨"r".toList, "p".toList, "f".toList, "i".toList⟩ (failing 4) [] := by
  have hagain : (generate (generate (failing 1) ["shop".toList] [manifest]).2.sound ["shop".toList] [manifest]).1 =
      .error (.invalidDestination "staging directory already exists: .shop.arcature-staging".toList) := by rfl
  refine ⟨fun h => ?_, hagain, fun h => ?_⟩
  · have hfailed : (generate (failing 1) ["shop".toList] [manifest]).1 =
        .error (.io [".shop.arcature-staging".toList, "Cargo.toml".toList]) := by rfl
    have hrerun := (h.2 (by rw [hfailed]; simp)).2 rfl
    rw [hagain] at hrerun
    simp at hrerun
  · have hroutes := h rfl ("routes.ts".toList, "r".toList) List.mem_cons_self
    have hwritten : (emit (fun _ => ([] : List Unit)) ⟨"r".toList, "p".toList, "f".toList, "i".toList⟩ (failing 4)
        []).2.tree.node ([] ++ outputDir ++ ["routes.ts".toList]) = some (.file "r".toList) := by rfl
    rw [hwritten] at hroutes
    exact Option.some_ne_none _ hroutes

end Arcature.Cli.Typegen

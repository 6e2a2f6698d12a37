import Arcature.Lib.FileTree

/-! The generator of new applications (`templates/mod.rs`).

    The files are written into a hidden directory next to the target, which is renamed when they are all
    there:

        above the target    made if missing
        .my_app.arcature-staging    made, with the files in it
        rename              to the target, and the directory is deleted if that fails

    A directory or a file that cannot be made ends the call too, but then the hidden directory stays, and
    the next call stops at it. All or nothing is generated if and only if that does not happen
    (`allOrNothing_iff`). -/

namespace Arcature.Templates
open Arcature.Lib Arcature.Lib.FileTree

/-- `TemplateError`, without the errors of the system. -/
inductive TemplateError where
  | existingTarget (path : Path)
  | invalidDestination (reason : Str)
  | invalidName (reason : Str)
  | io (path : Path)
  | rename (staging target : Path)
  deriving DecidableEq

/-- `ProjectName`. -/
structure ProjectName where
  raw : Str
  deriving DecidableEq

namespace ProjectName

/-- `parse`. -/
def parse (s : Str) : Except TemplateError ProjectName :=
  if s = [] then .error (.invalidName "name must not be empty".toList)
  else if s.len > 64 then .error (.invalidName "name must not exceed 64 characters".toList)
  else if !(s.head?.map Char.isLower).getD false then
    .error (.invalidName "name must start with an ASCII lowercase letter".toList)
  else if !s.all fun c => c.isLower || c.isDigit || c = '-' then
    .error (.invalidName "name must contain only ASCII lowercase, digits, or hyphens".toList)
  else if s.getLast? = some '-' then .error (.invalidName "name must not end with a hyphen".toList)
  else if "--".toList <:+: s then .error (.invalidName "name must not contain consecutive hyphens".toList)
  else .ok ⟨s⟩

/-- `rust_identifier`. -/
def rustIdentifier (self : ProjectName) : Str := self.raw.map fun c => if c = '-' then '_' else c

end ProjectName

/-- A file of the templates with the path it has in the project, rendered. -/
structure Rendered where
  dirs : List Str
  name : Str
  contents : Str

/-- The path of a file in the project. -/
def Rendered.path (file : Rendered) : Path := file.dirs ++ [file.name]

/-- One turn of the loop that writes the files. -/
def writeFile (d : Disk) (staging : Path) (file : Rendered) : Except TemplateError Unit × Disk :=
  match d.createDirAll (staging ++ file.dirs) with
  | (false, d) => (.error (.io (staging ++ file.dirs)), d)
  | (true, d) =>
    match d.write (staging ++ file.path) file.contents with
    | (false, d) => (.error (.io (staging ++ file.path)), d)
    | (true, d) => (.ok (), d)

/-- The loop that writes the files to the staging directory. -/
def writeFiles (d : Disk) (staging : Path) : List Rendered → Except TemplateError Unit × Disk
  | [] => (.ok (), d)
  | file :: files =>
    match writeFile d staging file with
    | (.error e, d) => (.error e, d)
    | (.ok _, d) => writeFiles d staging files

/-- The name of the staging directory. -/
def stagingName (name : ProjectName) : Str := ".".toList ++ name.rustIdentifier ++ ".arcature-staging".toList

/-- `generate`, for a target by its names from the working directory on. -/
def generate (d : Disk) (target : Path) (files : List Rendered) : Except TemplateError Unit × Disk :=
  if d.pathExists target then (.error (.existingTarget target), d)
  else match target.getLast? with
    | none => (.error (.invalidDestination "destination has no final path component".toList), d)
    | some last =>
      match ProjectName.parse last with
      | .error e => (.error e, d)
      | .ok name =>
        let parent := target.dropLast
        match if d.pathExists parent then (true, d) else d.createDirAll parent with
        | (false, d) => (.error (.io parent), d)
        | (true, d) =>
          let staging := parent ++ [stagingName name]
          if d.pathExists staging then
            (.error (.invalidDestination
              ("staging directory already exists: ".toList ++ "/".toList.intercalate staging)), d)
          else match writeFiles d staging files with
            | (.error e, d) => (.error e, d)
            | (.ok _, d) =>
              match d.rename staging target with
              | (true, d) => (.ok (), d)
              | (false, d) => (.error (.rename staging target), d.removeDirAll staging)

/-! ### What is to be generated -/

/-- What files come to: the directories above them, and the files with what was written last. -/
def rendered (files : List Rendered) (p : Path) : Option Node :=
  if ∃ file ∈ files, p <+: file.dirs then some .dir
  else (files.reverse.find? (·.path = p)).map fun file => .file file.contents

/-- No file stands where another needs a directory. -/
def Consistent (files : List Rendered) : Prop := ∀ f ∈ files, ∀ g ∈ files, ¬ f.path <+: g.dirs

/-- How many operations it takes to write a file when others have been written. -/
def fileOperations (done : List Rendered) (file : Rendered) : ℕ :=
  (if done = [] then 1 else 0) + Disk.missing (rendered done) [] file.dirs + 1

/-- How many operations it takes to write files. -/
def operations (done : List Rendered) : List Rendered → ℕ
  | [] => 0
  | file :: files => fileOperations done file + operations (done ++ [file]) files

/-- What files come to has been written under a directory. -/
def Staged (t : Tree) (staging : Path) (done : List Rendered) : Prop := ∀ p, t.node (staging ++ p) = rendered done p

theorem rendered_nil (p : Path) : rendered [] p = none := by simp [rendered]

theorem rendered_root {files : List Rendered} : rendered files [] = none ↔ files = [] := by
  constructor
  · intro h
    by_contra hne
    obtain ⟨file, files, rfl⟩ := List.exists_cons_of_ne_nil hne
    rw [rendered, if_pos ⟨file, List.mem_cons_self, List.nil_prefix⟩] at h
    exact Option.some_ne_none _ h
  · rintro rfl
    exact rendered_nil []

/-- Where the files have come to a file. -/
theorem rendered_file {files : List Rendered} (hfiles : Consistent files) {p : Path} :
    (∃ contents, rendered files p = some (.file contents)) ↔ ∃ f ∈ files, f.path = p := by
  have hfind : (files.reverse.find? (·.path = p)).isSome ↔ ∃ f ∈ files, f.path = p := by
    simp [List.find?_isSome]
  rw [← hfind]
  unfold rendered
  split_ifs with hdir
  · obtain ⟨g, hg, hpre⟩ := hdir
    refine iff_of_false (by simp) fun hsome => ?_
    obtain ⟨f, hf, hpath⟩ := hfind.mp hsome
    exact hfiles f hf g hg (hpath ▸ hpre)
  · cases files.reverse.find? (·.path = p) <;> simp

theorem rendered_dir {files : List Rendered} {p : Path} :
    rendered files p = some .dir ↔ ∃ f ∈ files, p <+: f.dirs := by
  unfold rendered
  split_ifs with hdir
  · exact iff_of_true rfl hdir
  · refine iff_of_false (fun h => ?_) hdir
    obtain ⟨f, -, hf⟩ := Option.map_eq_some_iff.mp h
    simp at hf

/-- One more file. -/
theorem rendered_concat {done : List Rendered} {file : Rendered} (hfile : ∀ f ∈ done, ¬ file.path <+: f.dirs)
    (p : Path) : rendered (done ++ [file]) p =
      if p <+: file.dirs then some .dir
      else if p = file.path then some (.file file.contents) else rendered done p := by
  by_cases hpre : p <+: file.dirs
  · rw [if_pos hpre]
    exact rendered_dir.mpr ⟨file, List.mem_append_right _ (List.mem_singleton_self _), hpre⟩
  · have hdirs : (∃ f ∈ done ++ [file], p <+: f.dirs) ↔ ∃ f ∈ done, p <+: f.dirs := by
      simp [or_and_right, exists_or, hpre]
    rw [if_neg hpre]
    unfold rendered
    simp only [hdirs, List.reverse_append, List.reverse_cons, List.reverse_nil, List.nil_append, List.cons_append,
      List.find?_cons]
    by_cases hp : p = file.path
    · have hno : ¬ ∃ f ∈ done, p <+: f.dirs := fun ⟨f, hf, h⟩ => hfile f hf (hp ▸ h)
      rw [if_neg hno, if_pos hp, hp]
      simp
    · rw [if_neg hp, decide_eq_false (Ne.symm hp)]

/-- What one more file has to agree with. -/
theorem consistent_concat {done : List Rendered} {file : Rendered} :
    Consistent (done ++ [file]) ↔
      Consistent done ∧ (∀ f ∈ done, ¬ f.path <+: file.dirs) ∧ ∀ f ∈ done, ¬ file.path <+: f.dirs := by
  have hself : ¬ file.path <+: file.dirs := by
    intro h
    have hlen := h.length_le
    rw [Rendered.path, List.length_append, List.length_singleton] at hlen
    omega
  unfold Consistent
  simp only [List.forall_mem_append, List.forall_mem_singleton]
  grind

theorem Consistent.left {done files : List Rendered} (h : Consistent (done ++ files)) : Consistent done :=
  fun f hf g hg => h f (List.mem_append_left _ hf) g (List.mem_append_left _ hg)

/-! ### One file -/

/-- One turn of the loop by what its two parts come to. -/
theorem writeFile_eq (d : Disk) (staging : Path) (file : Rendered) :
    writeFile d staging file =
      if (d.createDirAll (staging ++ file.dirs)).1 = true then
        (if ((d.createDirAll (staging ++ file.dirs)).2.write (staging ++ file.path) file.contents).1 = true then .ok ()
            else .error (.io (staging ++ file.path)),
          ((d.createDirAll (staging ++ file.dirs)).2.write (staging ++ file.path) file.contents).2)
      else (.error (.io (staging ++ file.dirs)), (d.createDirAll (staging ++ file.dirs)).2) := by
  rw [writeFile]
  rcases d.createDirAll (staging ++ file.dirs) with ⟨made, d'⟩
  cases made with
  | false => rfl
  | true =>
    dsimp only
    rcases d'.write (staging ++ file.path) file.contents with ⟨wrote, d''⟩
    cases wrote <;> rfl

/-- What is not in the staging directory, and not above it, is not touched. -/
theorem writeFile_frame (d : Disk) {staging q : Path} (file : Rendered) (hbelow : ¬ staging <+: q)
    (habove : ¬ q <+: staging) : (writeFile d staging file).2.tree.node q = d.tree.node q := by
  have hcreate : (d.createDirAll (staging ++ file.dirs)).2.tree.node q = d.tree.node q := by
    rcases d.createFrom_frame [] (staging ++ file.dirs) q with h | ⟨-, -, -, hpre⟩
    · exact h
    · rcases List.prefix_or_prefix_of_prefix hpre (List.prefix_append staging file.dirs) with h | h
      · exact absurd h habove
      · exact absurd h hbelow
  have hne : q ≠ staging ++ file.path := by
    rintro rfl
    exact hbelow (List.prefix_append _ _)
  rw [writeFile_eq]
  by_cases hmade : (d.createDirAll (staging ++ file.dirs)).1 = true
  · rw [if_pos hmade]
    exact (Disk.node_write ..).trans ((if_neg hne).trans hcreate)
  · rw [if_neg hmade]
    exact hcreate

/-- Directories stay. -/
theorem writeFile_dir {d : Disk} {q : Path} (hq : d.tree.node q = some .dir) (staging : Path) (file : Rendered) :
    (writeFile d staging file).2.tree.node q = some .dir := by
  have hcreate : (d.createDirAll (staging ++ file.dirs)).2.tree.node q = some .dir := by
    rcases d.createFrom_frame [] (staging ++ file.dirs) q with h | ⟨-, h, -⟩
    · exact h.trans hq
    · exact h
  rw [writeFile_eq]
  by_cases hmade : (d.createDirAll (staging ++ file.dirs)).1 = true
  · rw [if_pos hmade]
    exact Disk.dir_write hcreate _ _
  · rw [if_neg hmade]
    exact hcreate

section step

variable {d : Disk} {parent : Path} {x : Str} {done : List Rendered}

/-- The directories for a file are made from the parent of the staging directory on. -/
theorem createDirAll_staging (hparent : d.tree.node parent = some .dir) (dirs : Path) :
    d.createDirAll (parent ++ [x] ++ dirs) = d.createFrom parent (x :: dirs) := by
  rw [List.append_assoc, List.singleton_append, Disk.createDirAll_append hparent]

theorem missing_staging (hstaged : Staged d.tree (parent ++ [x]) done) (dirs : Path) :
    Disk.missing d.tree.node parent (x :: dirs) =
      (if done = [] then 1 else 0) + Disk.missing (rendered done) [] dirs := by
  have hroot := hstaged []
  rw [List.append_nil] at hroot
  have hbelow : ∀ r, r ≠ [] → d.tree.node (parent ++ [x] ++ r) = rendered done ([] ++ r) := fun r _ => hstaged r
  rw [Disk.missing, hroot, Disk.missing_congr hbelow]
  simp only [rendered_root]

theorem clear_staging (hparent : d.tree.node parent = some .dir) (hdone : Consistent done)
    (hstaged : Staged d.tree (parent ++ [x]) done) (dirs : Path) :
    Disk.Clear d.tree.node parent (x :: dirs) ↔ ∀ f ∈ done, ¬ f.path <+: dirs := by
  rw [Disk.clear_cons hparent]
  constructor
  · intro h f hf hpre
    obtain ⟨contents, hcontents⟩ := (rendered_file hdone).mpr ⟨f, hf, rfl⟩
    exact h f.path hpre contents ((hstaged f.path).trans hcontents)
  · intro h r hr contents hnode
    obtain ⟨f, hf, rfl⟩ := (rendered_file hdone).mp ⟨contents, (hstaged r).symm.trans hnode⟩
    exact h f hf hr

/-- What is left of the tree when the directories for a file are made: they are there, and nothing else has changed. -/
theorem node_createDirs (hparent : d.tree.node parent = some .dir) (dirs q : Path)
    (hok : (d.createFrom parent (x :: dirs)).1 = true) :
    (d.createFrom parent (x :: dirs)).2.tree.node q =
      if q <+: parent ++ [x] ++ dirs then some .dir else d.tree.node q := by
  have hsplit : parent ++ x :: dirs = parent ++ [x] ++ dirs := by rw [List.append_assoc, List.singleton_append]
  have hlast := Disk.dir_createFrom hparent hok
  rw [hsplit] at hlast
  split_ifs with hq
  · by_cases heq : q = parent ++ [x] ++ dirs
    · rw [heq, hlast]
    · exact Tree.dir_above _ (by rw [hlast]; exact Option.some_ne_none _) hq heq
  · rcases d.createFrom_frame parent (x :: dirs) q with h | ⟨-, -, -, hpre⟩
    · exact h
    · rw [hsplit] at hpre
      exact absurd hpre hq

/-- The path of a file is longer than that of the directory it is in. -/
theorem path_too_long (base : Path) (file : Rendered) : ¬ base ++ file.path <+: base ++ file.dirs := by
  intro hpre
  have hlen := hpre.length_le
  simp only [List.length_append, Rendered.path, List.length_singleton] at hlen
  omega

/-- When its directories are there, a file can be put there unless there is a directory in its place. -/
theorem open_iff (hparent : d.tree.node parent = some .dir) (hstaged : Staged d.tree (parent ++ [x]) done)
    {file : Rendered} (hmade : (d.createFrom parent (x :: file.dirs)).1 = true) :
    (d.createFrom parent (x :: file.dirs)).2.tree.Open (parent ++ [x] ++ file.path) ↔
      ∀ f ∈ done, ¬ file.path <+: f.dirs := by
  have hnodes := fun q => node_createDirs hparent file.dirs q hmade
  have hdrop : (parent ++ [x] ++ file.path).dropLast = parent ++ [x] ++ file.dirs := by
    rw [Rendered.path, ← List.append_assoc, List.dropLast_concat]
  rw [Tree.Open, hdrop, hnodes, hnodes, if_pos (List.prefix_refl _), if_neg (path_too_long _ _), hstaged, ne_eq,
    ne_eq, rendered_dir]
  simp [Rendered.path]

/-- A file is written if and only if it agrees with the others and no operation for it fails. -/
theorem writeFile_iff (hparent : d.tree.node parent = some .dir) (hdone : Consistent done)
    (hstaged : Staged d.tree (parent ++ [x]) done) (file : Rendered) :
    (writeFile d (parent ++ [x]) file).1 = .ok () ↔
      Consistent (done ++ [file]) ∧ ∀ i < fileOperations done file, d.faults i = none := by
  have hcreate := Disk.createFrom_iff (d := d) hparent (x :: file.dirs)
  rw [clear_staging hparent hdone hstaged, missing_staging hstaged] at hcreate
  rw [writeFile_eq, createDirAll_staging hparent, consistent_concat, fileOperations]
  by_cases hmade : (d.createFrom parent (x :: file.dirs)).1 = true
  · obtain ⟨hfree, hnone⟩ := hcreate.mp hmade
    have hfaults := Disk.faults_createFrom hmade
    rw [missing_staging hstaged] at hfaults
    have hok : ∀ (b : Bool) (e : TemplateError), (if b = true then Except.ok () else .error e) = .ok () ↔ b = true := by
      intro b e
      cases b <;> simp
    rw [if_pos hmade, hok, Disk.write_iff, open_iff hparent hstaged hmade, hfaults, and_iff_right hdone,
      and_iff_right hfree]
    simp only [Nat.zero_add]
    refine and_congr_right fun _ => ⟨fun h i hi => ?_, fun h => h _ (Nat.lt_succ_self _)⟩
    rcases Nat.lt_succ_iff_lt_or_eq.mp hi with hlt | rfl
    · exact hnone i hlt
    · exact h
  · rw [if_neg hmade]
    exact iff_of_false (by simp) fun h => hmade (hcreate.mpr ⟨h.1.2.1, fun i hi => h.2 i (Nat.lt_succ_of_lt hi)⟩)

/-- A file that is written is there with the others, and its operations have been carried out. -/
theorem writeFile_spec (hparent : d.tree.node parent = some .dir) (hdone : Consistent done)
    (hstaged : Staged d.tree (parent ++ [x]) done) {file : Rendered}
    (h : (writeFile d (parent ++ [x]) file).1 = .ok ()) :
    Staged (writeFile d (parent ++ [x]) file).2.tree (parent ++ [x]) (done ++ [file]) ∧
      (writeFile d (parent ++ [x]) file).2.faults = fun n => d.faults (n + fileOperations done file) := by
  have hfile := (consistent_concat.mp ((writeFile_iff hparent hdone hstaged file).mp h).1).2.2
  rw [writeFile_eq, createDirAll_staging hparent] at h ⊢
  split_ifs at h ⊢ with hmade hwrote
  have hfaults := Disk.faults_createFrom hmade
  rw [missing_staging hstaged] at hfaults
  obtain ⟨hopen, hnone⟩ := Disk.write_iff.mp hwrote
  constructor
  · intro p
    rw [rendered_concat hfile]
    refine (Disk.node_write ..).trans ?_
    rw [Disk.written, if_pos hopen, hnone]
    by_cases heq : p = file.path
    · have hlong : ¬ p <+: file.dirs := heq ▸ path_too_long [] file
      rw [if_pos (by rw [heq]), if_neg hlong, if_pos heq]
    · rw [if_neg fun h => heq (List.append_cancel_left h), node_createDirs hparent _ _ hmade, hstaged]
      simp only [List.prefix_append_right_inj, if_neg heq]
  · refine (Disk.faults_write ..).trans ?_
    rw [hfaults]
    funext n
    exact congrArg d.faults (by rw [fileOperations]; omega)

/-- The first file is begun unless its first operation fails, and then the staging directory is there. -/
theorem writeFile_first (hparent : d.tree.node parent = some .dir) (hnone : d.tree.node (parent ++ [x]) = none)
    (file : Rendered) :
    (writeFile d (parent ++ [x]) file).2.tree.node (parent ++ [x]) = if d.faults 0 = none then some .dir else none := by
  have hfirst := Disk.createFrom_first hparent hnone file.dirs
  rw [writeFile_eq, createDirAll_staging hparent]
  by_cases hmade : (d.createFrom parent (x :: file.dirs)).1 = true
  · have hfault : d.faults 0 = none := by
      refine ((Disk.createFrom_iff hparent _).mp hmade).2 0 ?_
      rw [Disk.missing, if_pos hnone]
      omega
    rw [if_pos hfault] at hfirst ⊢
    rw [if_pos hmade]
    exact Disk.dir_write hfirst _ _
  · rw [if_neg hmade]
    exact hfirst

end step

/-! ### All files -/

theorem writeFiles_cons (d : Disk) (staging : Path) (file : Rendered) (files : List Rendered) :
    writeFiles d staging (file :: files) =
      if (writeFile d staging file).1 = .ok () then writeFiles (writeFile d staging file).2 staging files
      else writeFile d staging file := by
  rw [writeFiles]
  rcases writeFile d staging file with ⟨result, d'⟩
  cases result <;> simp

theorem writeFiles_frame (d : Disk) {staging q : Path} (files : List Rendered) (hbelow : ¬ staging <+: q)
    (habove : ¬ q <+: staging) : (writeFiles d staging files).2.tree.node q = d.tree.node q := by
  induction files generalizing d with
  | nil => rfl
  | cons file files ih =>
    have hfile := writeFile_frame d file hbelow habove
    rw [writeFiles_cons]
    split_ifs with hok
    · exact (ih _).trans hfile
    · exact hfile

theorem writeFiles_dir {d : Disk} {q : Path} (hq : d.tree.node q = some .dir) (staging : Path) (files : List Rendered) :
    (writeFiles d staging files).2.tree.node q = some .dir := by
  induction files generalizing d with
  | nil => exact hq
  | cons file files ih =>
    have hfile := writeFile_dir hq staging file
    rw [writeFiles_cons]
    split_ifs with hok
    · exact ih hfile
    · exact hfile

section all

variable {parent : Path} {x : Str}

/-- The files are written if and only if they agree and no operation for them fails. -/
theorem writeFiles_iff {d : Disk} {done : List Rendered} (hparent : d.tree.node parent = some .dir)
    (hdone : Consistent done) (hstaged : Staged d.tree (parent ++ [x]) done) (files : List Rendered) :
    (writeFiles d (parent ++ [x]) files).1 = .ok () ↔
      Consistent (done ++ files) ∧ ∀ i < operations done files, d.faults i = none := by
  induction files generalizing d done with
  | nil =>
    rw [List.append_nil]
    exact iff_of_true rfl ⟨hdone, fun i hi => absurd hi (Nat.not_lt_zero i)⟩
  | cons file files ih =>
    have hone := writeFile_iff hparent hdone hstaged file
    have hsplit : done ++ file :: files = done ++ [file] ++ files := by rw [List.append_assoc, List.singleton_append]
    rw [writeFiles_cons, hsplit, operations]
    by_cases hok : (writeFile d (parent ++ [x]) file).1 = .ok ()
    · obtain ⟨hconsistent, hnone⟩ := hone.mp hok
      obtain ⟨hstaged', hfaults⟩ := writeFile_spec hparent hdone hstaged hok
      rw [if_pos hok, ih (writeFile_dir hparent _ _) hconsistent hstaged', hfaults]
      refine and_congr_right fun _ => ⟨fun h i hi => ?_, fun h i hi => h _ (by omega)⟩
      by_cases hlt : i < fileOperations done file
      · exact hnone i hlt
      · have hi' := h (i - fileOperations done file) (by omega)
        simp only [Nat.sub_add_cancel (Nat.not_lt.mp hlt)] at hi'
        exact hi'
    · rw [if_neg hok]
      exact iff_of_false hok fun h => hok (hone.mpr ⟨h.1.left, fun i hi => h.2 i (by omega)⟩)

/-- Files that are written are there with the others. -/
theorem writeFiles_spec {d : Disk} {done : List Rendered} (hparent : d.tree.node parent = some .dir)
    (hdone : Consistent done) (hstaged : Staged d.tree (parent ++ [x]) done) {files : List Rendered}
    (h : (writeFiles d (parent ++ [x]) files).1 = .ok ()) :
    Staged (writeFiles d (parent ++ [x]) files).2.tree (parent ++ [x]) (done ++ files) ∧
      (writeFiles d (parent ++ [x]) files).2.faults = fun n => d.faults (n + operations done files) := by
  induction files generalizing d done with
  | nil =>
    rw [List.append_nil]
    exact ⟨hstaged, rfl⟩
  | cons file files ih =>
    have hsplit : done ++ file :: files = done ++ [file] ++ files := by rw [List.append_assoc, List.singleton_append]
    rw [writeFiles_cons] at h ⊢
    by_cases hok : (writeFile d (parent ++ [x]) file).1 = .ok ()
    · rw [if_pos hok] at h ⊢
      have hconsistent := ((writeFile_iff hparent hdone hstaged file).mp hok).1
      obtain ⟨hstaged', hfaults⟩ := writeFile_spec hparent hdone hstaged hok
      obtain ⟨hall, hfaults'⟩ := ih (writeFile_dir hparent _ _) hconsistent hstaged' h
      refine ⟨hsplit ▸ hall, hfaults'.trans ?_⟩
      rw [hfaults, operations]
      funext n
      exact congrArg d.faults (by omega)
    · rw [if_neg hok] at h
      exact absurd h hok

/-- Once the first file is begun, the staging directory is there. -/
theorem writeFiles_first {d : Disk} (hparent : d.tree.node parent = some .dir)
    (hnone : d.tree.node (parent ++ [x]) = none) {files : List Rendered} (hfiles : files ≠ []) :
    (writeFiles d (parent ++ [x]) files).2.tree.node (parent ++ [x]) =
      if d.faults 0 = none then some .dir else none := by
  obtain ⟨file, files, rfl⟩ := List.exists_cons_of_ne_nil hfiles
  have hfirst := writeFile_first hparent hnone file
  have hstaged : Staged d.tree (parent ++ [x]) [] := fun p => by
    rw [rendered_nil, d.tree.none_below hnone (List.prefix_append _ _)]
  rw [writeFiles_cons]
  split_ifs with hok hfault hfault
  · exact writeFiles_dir (hfirst.trans (if_pos hfault)) _ _
  · have hnofault := ((writeFile_iff hparent (fun _ hf => absurd hf List.not_mem_nil) hstaged file).mp hok).2
    exact absurd (hnofault 0 (Nat.succ_pos _)) hfault
  · exact hfirst.trans (if_pos hfault)
  · exact hfirst.trans (if_neg hfault)

end all

/-! ### The whole call -/

/-- The parent of the target is there, or it is made. -/
def makeParent (d : Disk) (parent : Path) : Bool × Disk :=
  if d.pathExists parent then (true, d) else d.createDirAll parent

theorem makeParent_frame (d : Disk) (parent q : Path) :
    (makeParent d parent).2.tree.node q = d.tree.node q ∨
      d.tree.node q = none ∧ (makeParent d parent).2.tree.node q = some .dir ∧ q <+: parent := by
  unfold makeParent
  split_ifs
  · exact .inl rfl
  · exact (d.createFrom_frame [] parent q).imp_right fun ⟨hnone, hdir, _, hpre⟩ => ⟨hnone, hdir, hpre⟩

/-- With no file in the way, there is no difference between the two. -/
theorem makeParent_eq {d : Disk} {parent : Path} (hclear : Disk.Clear d.tree.node [] parent) :
    makeParent d parent = d.createDirAll parent := by
  unfold makeParent
  split_ifs with hthere
  · have hdir : d.tree.node parent = some .dir := by
      rw [Disk.pathExists] at hthere
      obtain ⟨node, hnode⟩ := Option.isSome_iff_exists.mp hthere
      cases node with
      | dir => exact hnode
      | file contents => exact absurd hnode (hclear parent (List.prefix_refl _) contents)
    have happend := Disk.createDirAll_append hdir []
    rw [List.append_nil] at happend
    rw [happend]
    rfl
  · rfl

/-- What the files are written to and renamed from. -/
def finish (d : Disk) (staging target : Path) (files : List Rendered) : Except TemplateError Unit × Disk :=
  match writeFiles d staging files with
  | (.error e, d) => (.error e, d)
  | (.ok _, d) =>
    match d.rename staging target with
    | (true, d) => (.ok (), d)
    | (false, d) => (.error (.rename staging target), d.removeDirAll staging)

theorem generate_eq {d : Disk} {parent : Path} {last : Str} {name : ProjectName}
    (habsent : d.tree.node (parent ++ [last]) = none) (hname : ProjectName.parse last = .ok name)
    (files : List Rendered) :
    generate d (parent ++ [last]) files =
      if (makeParent d parent).1 = true then
        if (makeParent d parent).2.pathExists (parent ++ [stagingName name]) = true then
          (.error (.invalidDestination ("staging directory already exists: ".toList ++
            "/".toList.intercalate (parent ++ [stagingName name]))), (makeParent d parent).2)
        else finish (makeParent d parent).2 (parent ++ [stagingName name]) (parent ++ [last]) files
      else (.error (.io parent), (makeParent d parent).2) := by
  have hexists : d.pathExists (parent ++ [last]) = false := by rw [Disk.pathExists, habsent]; rfl
  rw [generate, hexists, List.getLast?_concat]
  simp only [Bool.false_eq_true, if_false, hname, List.dropLast_concat]
  rw [← makeParent]
  rcases makeParent d parent with ⟨made, d'⟩
  cases made <;> rfl

theorem finish_eq (d : Disk) (staging target : Path) (files : List Rendered) :
    finish d staging target files =
      if (writeFiles d staging files).1 = .ok () then
        if ((writeFiles d staging files).2.rename staging target).1 = true then
          (.ok (), ((writeFiles d staging files).2.rename staging target).2)
        else (.error (.rename staging target),
          ((writeFiles d staging files).2.rename staging target).2.removeDirAll staging)
      else writeFiles d staging files := by
  rw [finish]
  rcases writeFiles d staging files with ⟨result, d'⟩
  cases result with
  | error e => simp
  | ok _ =>
    dsimp only
    rw [if_pos rfl]
    rcases d'.rename staging target with ⟨renamed, d''⟩
    cases renamed <;> rfl

/-- The target and what the staging directory needs are free. -/
structure Free (t : Tree) (parent : Path) (last : Str) (name : ProjectName) : Prop where
  target : t.node (parent ++ [last]) = none
  staging : t.node (parent ++ [stagingName name]) = none
  clear : Disk.Clear t.node [] parent

/-- Everything is there for a call that no operation fails in. -/
def Ready (t : Tree) (target : Path) (files : List Rendered) : Prop :=
  ∃ parent last name, target = parent ++ [last] ∧ ProjectName.parse last = .ok name ∧ Free t parent last name ∧
    files ≠ [] ∧ Consistent files

/-- An operation fails when the staging directory has been made, and before it is renamed. -/
def Interrupted (d : Disk) (target : Path) (files : List Rendered) : Prop :=
  (∀ i ≤ Disk.missing d.tree.node [] target.dropLast, d.faults i = none) ∧
    ∃ i < Disk.missing d.tree.node [] target.dropLast + operations [] files, d.faults i ≠ none

/-- The name of a target begins with a letter. -/
theorem stagingName_ne {last : Str} {name : ProjectName} (h : ProjectName.parse last = .ok name) :
    stagingName name ≠ last := by
  rintro rfl
  unfold ProjectName.parse at h
  rw [if_neg (by simp [stagingName])] at h
  split_ifs at h with hlen hhead
  exact hhead rfl

section whole

variable {d : Disk} {parent : Path} {last : Str} {name : ProjectName} {files : List Rendered}

/-- The target and the staging directory lie side by side. -/
theorem apart (parent : Path) {x y : Str} (hne : x ≠ y) (p : Path) : ¬ parent ++ [x] <+: parent ++ [y] ++ p := by
  rw [List.append_assoc, List.prefix_append_right_inj, List.singleton_append, List.cons_prefix_cons]
  exact fun h => hne h.1

theorem apart' (parent : Path) {x y : Str} (hne : x ≠ y) (p : Path) : ¬ parent ++ [y] ++ p <+: parent ++ [x] := by
  rw [List.append_assoc, List.prefix_append_right_inj, List.singleton_append, List.cons_prefix_cons]
  exact fun h => hne h.1.symm

theorem not_above (parent : Path) (x : Str) (p : Path) : ¬ parent ++ [x] ++ p <+: parent := by
  intro h
  have hlen := h.length_le
  simp only [List.length_append, List.length_singleton] at hlen
  omega

theorem makeParent_apart (d : Disk) (parent : Path) (x : Str) (p : Path) :
    (makeParent d parent).2.tree.node (parent ++ [x] ++ p) = d.tree.node (parent ++ [x] ++ p) :=
  (makeParent_frame d parent _).resolve_right fun h => not_above parent x p h.2.2

/-- A parent that is made has no file in the way, and none has come. -/
theorem makeParent_clear (hclear : Disk.Clear d.tree.node [] parent) :
    Disk.Clear (makeParent d parent).2.tree.node [] parent := by
  intro r hr contents
  rcases makeParent_frame d parent ([] ++ r) with h | ⟨-, h, -⟩
  · rw [h]
    exact hclear r hr contents
  · rw [h]
    simp

/-- A call that fails leaves the target as it is. -/
theorem finish_frame (hname : ProjectName.parse last = .ok name)
    (h : (finish d (parent ++ [stagingName name]) (parent ++ [last]) files).1 ≠ .ok ()) (p : Path) :
    (finish d (parent ++ [stagingName name]) (parent ++ [last]) files).2.tree.node (parent ++ [last] ++ p) =
      d.tree.node (parent ++ [last] ++ p) := by
  have hne := stagingName_ne hname
  have hwrite := writeFiles_frame d files (apart parent hne p) (apart' parent hne p)
  rw [finish_eq] at h ⊢
  by_cases hok : (writeFiles d (parent ++ [stagingName name]) files).1 = .ok ()
  · rw [if_pos hok] at h ⊢
    by_cases hrename : ((writeFiles d (parent ++ [stagingName name]) files).2.rename (parent ++ [stagingName name])
        (parent ++ [last])).1 = true
    · rw [if_pos hrename] at h
      exact absurd rfl h
    · rw [if_neg hrename]
      refine (Disk.node_removeDirAll _ (by simp) _).trans ?_
      rw [if_neg (apart parent hne p), Disk.tree_rename hrename, hwrite]
  · rw [if_neg hok]
    exact hwrite

theorem staged_nil {t : Tree} {staging : Path} (h : t.node staging = none) : Staged t staging [] := fun p => by
  rw [rendered_nil, t.none_below h (List.prefix_append _ _)]

theorem consistent_nil : Consistent [] := fun _ h => absurd h List.not_mem_nil

/-- What the files come to has been written, and it can be renamed. -/
theorem movable_of_written (hparent : d.tree.node parent = some .dir)
    (hstaging : d.tree.node (parent ++ [stagingName name]) = none) (htarget : d.tree.node (parent ++ [last]) = none)
    (hname : ProjectName.parse last = .ok name) (hfiles : files ≠ [])
    (hok : (writeFiles d (parent ++ [stagingName name]) files).1 = .ok ()) :
    (writeFiles d (parent ++ [stagingName name]) files).2.tree.Movable (parent ++ [stagingName name])
      (parent ++ [last]) := by
  obtain ⟨hstaged, -⟩ := writeFiles_spec hparent consistent_nil (staged_nil hstaging) hok
  have hne := stagingName_ne hname
  have hbeside := apart parent hne []
  have hbeside' := apart' parent hne []
  rw [List.append_nil] at hbeside hbeside'
  refine ⟨?_, ?_, by simp, ?_, hbeside⟩
  · have hroot := hstaged []
    rw [List.append_nil, List.nil_append] at hroot
    rw [hroot, ne_eq, rendered_root]
    exact hfiles
  · rw [writeFiles_frame d files hbeside hbeside', htarget]
  · rw [List.dropLast_concat]
    exact writeFiles_dir hparent _ _

/-- What the second half of a call comes to where it can begin. -/
theorem finish_run (hparent : d.tree.node parent = some .dir)
    (hstaging : d.tree.node (parent ++ [stagingName name]) = none) (htarget : d.tree.node (parent ++ [last]) = none)
    (hname : ProjectName.parse last = .ok name) (hfiles : files ≠ []) (hconsistent : Consistent files) :
    let result := finish d (parent ++ [stagingName name]) (parent ++ [last]) files
    (result.1 = .ok () ↔ ∀ i < operations [] files + 1, d.faults i = none) ∧
      (result.1 = .ok () → (∀ p, result.2.tree.node (parent ++ [last] ++ p) = rendered files p) ∧
        result.2.tree.node (parent ++ [stagingName name]) = none) ∧
      (result.1 ≠ .ok () → (result.2.tree.node (parent ++ [stagingName name]) = none ↔
        ¬ (d.faults 0 = none ∧ ∃ i < operations [] files, d.faults i ≠ none))) := by
  intro result
  have hiff := writeFiles_iff hparent consistent_nil (staged_nil hstaging) files
  have hfirst := writeFiles_first hparent hstaging hfiles
  rw [List.nil_append, and_iff_right hconsistent] at hiff
  simp only [result, finish_eq]
  by_cases hok : (writeFiles d (parent ++ [stagingName name]) files).1 = .ok ()
  · have hnone := hiff.mp hok
    obtain ⟨hstaged, hfaults⟩ := writeFiles_spec hparent consistent_nil (staged_nil hstaging) hok
    have hrename := Disk.rename_iff (d := (writeFiles d (parent ++ [stagingName name]) files).2)
      (a := parent ++ [stagingName name]) (b := parent ++ [last])
    rw [and_iff_right (movable_of_written hparent hstaging htarget hname hfiles hok), hfaults] at hrename
    simp only [Nat.zero_add] at hrename
    rw [if_pos hok]
    by_cases hrenamed : ((writeFiles d (parent ++ [stagingName name]) files).2.rename (parent ++ [stagingName name])
        (parent ++ [last])).1 = true
    · rw [if_pos hrenamed]
      refine ⟨iff_of_true rfl fun i hi => ?_, fun _ => ⟨fun p => ?_, ?_⟩, fun h => absurd rfl h⟩
      · rcases Nat.lt_succ_iff_lt_or_eq.mp hi with hlt | rfl
        · exact hnone i hlt
        · exact hrename.mp hrenamed
      · refine (Disk.node_rename hrenamed _).trans ?_
        rw [if_pos (List.prefix_append _ _), List.drop_left, hstaged, List.nil_append]
      · refine (Disk.node_rename hrenamed _).trans ?_
        have hbeside := apart' parent (stagingName_ne hname) []
        rw [List.append_nil] at hbeside
        rw [if_neg hbeside, if_pos (List.prefix_refl _)]
    · rw [if_neg hrenamed]
      refine ⟨iff_of_false (by simp) fun h => hrenamed (hrename.mpr (h _ (Nat.lt_succ_self _))),
        fun h => absurd h (by simp), fun _ => iff_of_true ?_ ?_⟩
      · exact (Disk.node_removeDirAll _ (by simp) _).trans (if_pos (List.prefix_refl _))
      · rintro ⟨-, i, hi, hfault⟩
        exact hfault (hnone i hi)
  · rw [if_neg hok]
    refine ⟨iff_of_false hok fun h => hok (hiff.mpr fun i hi => h i (Nat.lt_succ_of_lt hi)), fun h => absurd h hok,
      fun _ => ?_⟩
    have hfault : ∃ i < operations [] files, d.faults i ≠ none := by
      by_contra hno
      push Not at hno
      exact hok (hiff.mpr hno)
    rw [hfirst, and_iff_left hfault]
    split_ifs with h0 <;> simp [h0]

/-- A call that fails leaves the directories above the target. -/
theorem finish_dir {staging target q : Path} (hq : d.tree.node q = some .dir) (habove : ¬ staging <+: q)
    (hstaging : staging ≠ []) (h : (finish d staging target files).1 ≠ .ok ()) :
    (finish d staging target files).2.tree.node q = some .dir := by
  have hwrite := writeFiles_dir hq staging files
  rw [finish_eq] at h ⊢
  by_cases hok : (writeFiles d staging files).1 = .ok ()
  · rw [if_pos hok] at h ⊢
    by_cases hrename : ((writeFiles d staging files).2.rename staging target).1 = true
    · rw [if_pos hrename] at h
      exact absurd rfl h
    · rw [if_neg hrename]
      refine (Disk.node_removeDirAll _ hstaging _).trans ?_
      rw [if_neg habove, Disk.tree_rename hrename, hwrite]
  · rw [if_neg hok]
    exact hwrite

/-- What a call comes to where all is ready for it. -/
theorem generate_run (hname : ProjectName.parse last = .ok name) (hfree : Free d.tree parent last name)
    (hfiles : files ≠ []) (hconsistent : Consistent files) :
    let result := generate d (parent ++ [last]) files
    let above := Disk.missing d.tree.node [] parent
    (result.1 = .ok () ↔ ∀ i < above + operations [] files + 1, d.faults i = none) ∧
      (result.1 = .ok () → (∀ p, result.2.tree.node (parent ++ [last] ++ p) = rendered files p) ∧
        result.2.tree.node (parent ++ [stagingName name]) = none) ∧
      (result.1 ≠ .ok () → (Free result.2.tree parent last name ↔
        ¬ ((∀ i ≤ above, d.faults i = none) ∧ ∃ i < above + operations [] files, d.faults i ≠ none))) := by
  intro result above
  have hmade := d.createDirAll_iff parent
  have htarget := makeParent_apart d parent last []
  have hstaging := makeParent_apart d parent (stagingName name) []
  have hclear := makeParent_clear hfree.clear
  rw [List.append_nil] at htarget hstaging
  rw [hfree.target] at htarget
  rw [hfree.staging] at hstaging
  rw [and_iff_right hfree.clear, ← makeParent_eq hfree.clear] at hmade
  simp only [result, generate_eq hfree.target hname]
  by_cases hok : (makeParent d parent).1 = true
  · have habove := hmade.mp hok
    have hdir : (makeParent d parent).2.tree.node parent = some .dir := by
      rw [makeParent_eq hfree.clear] at hok ⊢
      exact Disk.dir_createDirAll hok
    have hfaults : (makeParent d parent).2.faults = fun n => d.faults (n + above) := by
      rw [makeParent_eq hfree.clear] at hok ⊢
      exact Disk.faults_createDirAll hok
    obtain ⟨hiff, hdone, hfailed⟩ := finish_run hdir hstaging htarget hname hfiles hconsistent
    have hexists : (makeParent d parent).2.pathExists (parent ++ [stagingName name]) = false := by
      rw [Disk.pathExists, hstaging]
      rfl
    rw [if_pos hok, hexists, if_neg Bool.false_ne_true]
    -- The operations above the target come before those that are counted from there.
    have hshift : ∀ n, (∀ i < n, (makeParent d parent).2.faults i = none) ↔ ∀ i < above + n, d.faults i = none := by
      intro n
      rw [hfaults]
      refine ⟨fun h i hi => ?_, fun h i hi => h _ (by omega)⟩
      by_cases hlt : i < above
      · exact habove i hlt
      · have hi' := h (i - above) (by omega)
        simp only [Nat.sub_add_cancel (Nat.not_lt.mp hlt)] at hi'
        exact hi'
    refine ⟨hiff.trans (hshift _), hdone, fun hne => ?_⟩
    have hfree' : Free (finish (makeParent d parent).2 (parent ++ [stagingName name]) (parent ++ [last]) files).2.tree
        parent last name ↔ (finish (makeParent d parent).2 (parent ++ [stagingName name]) (parent ++ [last])
          files).2.tree.node (parent ++ [stagingName name]) = none := by
      refine ⟨Free.staging, fun hnone => ⟨?_, hnone, fun r hr contents => ?_⟩⟩
      · have hframe := finish_frame hname hne []
        rw [List.append_nil] at hframe
        rw [hframe, htarget]
      · have hr' : (makeParent d parent).2.tree.node r = some .dir := by
          by_cases heq : r = parent
          · rw [heq, hdir]
          · exact Tree.dir_above _ (by rw [hdir]; exact Option.some_ne_none _) hr heq
        have hlong : ¬ parent ++ [stagingName name] <+: r := fun hpre => by
          have hnot := not_above parent (stagingName name) []
          rw [List.append_nil] at hnot
          exact hnot (hpre.trans hr)
        rw [List.nil_append, finish_dir hr' hlong (by simp) hne]
        simp
    have hzero := hshift 1
    have hall := hshift (operations [] files)
    rw [hfree', hfailed hne]
    refine not_congr (and_congr ?_ ?_)
    · rw [show (∀ i ≤ above, d.faults i = none) ↔ ∀ i < above + 1, d.faults i = none from by
        simp only [Nat.lt_succ_iff], ← hzero]
      simp
    · have hnot := not_congr hall
      push Not at hnot
      exact hnot
  · rw [if_neg hok]
    refine ⟨iff_of_false (by simp) fun h => hok (hmade.mpr fun i hi => h i (by omega)), fun h => absurd h (by simp),
      fun _ => iff_of_true ⟨htarget, hstaging, hclear⟩ fun h => hok (hmade.mpr fun i hi => h.1 i (by omega))⟩

/-- A call to a target that is there, or has no name that will do, changes nothing. -/
theorem generate_refused {target : Path} (h : ¬ ∃ parent last name, target = parent ++ [last] ∧
    ProjectName.parse last = .ok name ∧ d.tree.node target = none) :
    (generate d target files).1 ≠ .ok () ∧ (generate d target files).2 = d := by
  rw [generate]
  split_ifs with hexists
  · simp
  · rcases List.eq_nil_or_concat target with rfl | ⟨parent, last, rfl⟩
    · simp
    · rw [List.concat_eq_append] at *
      rw [List.getLast?_concat]
      cases hname : ProjectName.parse last with
      | error e =>
        dsimp only
        rw [hname]
        exact ⟨by simp, rfl⟩
      | ok name =>
        refine absurd ⟨parent, last, name, rfl, hname, ?_⟩ h
        rw [Disk.pathExists, Bool.not_eq_true, Option.isSome_eq_false_iff, Option.isNone_iff_eq_none] at hexists
        exact hexists

/-- A call that fails leaves the target as it is. -/
theorem generate_frame {target : Path} (h : (generate d target files).1 ≠ .ok ()) (p : Path) :
    (generate d target files).2.tree.node (target ++ p) = d.tree.node (target ++ p) := by
  by_cases hbegun : ∃ parent last name, target = parent ++ [last] ∧ ProjectName.parse last = .ok name ∧
      d.tree.node target = none
  · obtain ⟨parent, last, name, rfl, hname, habsent⟩ := hbegun
    have hmade := makeParent_apart d parent last p
    rw [generate_eq habsent hname] at h ⊢
    by_cases hok : (makeParent d parent).1 = true
    · rw [if_pos hok] at h ⊢
      by_cases hexists : (makeParent d parent).2.pathExists (parent ++ [stagingName name]) = true
      · rw [if_pos hexists]
        exact hmade
      · rw [if_neg hexists] at h ⊢
        exact (finish_frame hname h p).trans hmade
    · rw [if_neg hok]
      exact hmade
  · rw [(generate_refused hbegun).2]

/-- A call succeeds only where all is ready for it. -/
theorem ready_of_ok {target : Path} (h : (generate d target files).1 = .ok ()) : Ready d.tree target files := by
  have hbegun := not_not.mp fun hno => (generate_refused hno).1 h
  obtain ⟨parent, last, name, rfl, hname, habsent⟩ := hbegun
  rw [generate_eq habsent hname] at h
  split_ifs at h with hok hexists
  have hstaging : (makeParent d parent).2.tree.node (parent ++ [stagingName name]) = none := by
    rwa [Disk.pathExists, Bool.not_eq_true, Option.isSome_eq_false_iff, Option.isNone_iff_eq_none] at hexists
  have hwritten : (writeFiles (makeParent d parent).2 (parent ++ [stagingName name]) files).1 = .ok () := by
    by_contra hno
    rw [finish_eq, if_neg hno] at h
    exact hno h
  have hfiles : files ≠ [] := by
    rintro rfl
    rw [finish_eq, if_pos hwritten] at h
    by_cases hrename : ((writeFiles (makeParent d parent).2 (parent ++ [stagingName name]) []).2.rename
        (parent ++ [stagingName name]) (parent ++ [last])).1 = true
    · exact (Disk.rename_iff.mp hrename).1.1 hstaging
    · rw [if_neg hrename] at h
      simp at h
  -- The first file has found no file above it.
  obtain ⟨file, rest, rfl⟩ := List.exists_cons_of_ne_nil hfiles
  have hdirs : ((makeParent d parent).2.createDirAll (parent ++ [stagingName name] ++ file.dirs)).1 = true := by
    by_contra hno
    rw [writeFiles_cons, writeFile_eq, if_neg hno] at hwritten
    simp at hwritten
  have hclear := ((Disk.createDirAll_iff _ _).mp hdirs).1
  have hway : ∀ r, r <+: parent → ∀ contents, (makeParent d parent).2.tree.node r ≠ some (.file contents) := fun r hr =>
    hclear r (hr.trans (by rw [List.append_assoc]; exact List.prefix_append _ _))
  have hdir : (makeParent d parent).2.tree.node parent = some .dir := by
    have hthere : (makeParent d parent).2.tree.node parent ≠ none := by
      unfold makeParent at hok ⊢
      split_ifs at hok ⊢ with hexists'
      · intro hnone
        have hno : d.pathExists parent = false := congrArg Option.isSome hnone
        exact Bool.false_ne_true (hno.symm.trans hexists')
      · have hcreated := Disk.dir_createDirAll hok
        exact fun hnone => Option.some_ne_none _ (hcreated.symm.trans hnone)
    obtain ⟨node, hnode⟩ := Option.ne_none_iff_exists'.mp hthere
    cases node with
    | dir => exact hnode
    | file contents => exact absurd hnode (hway parent (List.prefix_refl _) contents)
  have hapart := makeParent_apart d parent (stagingName name) []
  rw [List.append_nil] at hapart
  refine ⟨parent, last, name, rfl, hname, ⟨habsent, hapart ▸ hstaging, fun r hr contents hfile => ?_⟩, hfiles, ?_⟩
  · rw [List.nil_append] at hfile
    rcases makeParent_frame d parent r with heq | ⟨hnone, -⟩
    · exact hway r hr contents (heq.trans hfile)
    · rw [hfile] at hnone
      exact Option.some_ne_none _ hnone
  · exact ((writeFiles_iff hdir consistent_nil (staged_nil hstaging) _).mp hwritten).1

end whole

/-! ### All or nothing -/

/-- A call leaves all that is to be generated and no staging directory, or it fails and leaves the target as it is and
    nothing that the same call would fail at when no operation fails any more. -/
def AllOrNothing (d : Disk) (target : Path) (files : List Rendered) : Prop :=
  ((generate d target files).1 = .ok () →
    (∀ p, (generate d target files).2.tree.node (target ++ p) = rendered files p) ∧
      ∀ parent last name, target = parent ++ [last] → ProjectName.parse last = .ok name →
        (generate d target files).2.tree.node (parent ++ [stagingName name]) = none) ∧
  ((generate d target files).1 ≠ .ok () →
    (∀ p, (generate d target files).2.tree.node (target ++ p) = d.tree.node (target ++ p)) ∧
      ((generate d.sound target files).1 = .ok () →
        (generate (generate d target files).2.sound target files).1 = .ok ()))

/-- Without faults a call succeeds where all is ready for it. -/
theorem sound_iff (d : Disk) (target : Path) (files : List Rendered) :
    (generate d.sound target files).1 = .ok () ↔ Ready d.tree target files := by
  constructor
  · exact ready_of_ok
  · rintro ⟨parent, last, name, rfl, hname, hfree, hfiles, hconsistent⟩
    exact (generate_run (d := d.sound) hname hfree hfiles hconsistent).1.mpr fun _ _ => rfl

/-- All or nothing is generated if and only if no operation fails between the staging directory and the rename. -/
theorem allOrNothing_iff (d : Disk) (target : Path) (files : List Rendered) :
    AllOrNothing d target files ↔ (Ready d.tree target files → ¬ Interrupted d target files) := by
  by_cases hready : Ready d.tree target files
  · rw [imp_iff_right hready]
    obtain ⟨parent, last, name, rfl, hname, hfree, hfiles, hconsistent⟩ := hready
    obtain ⟨hiff, hdone, hfailed⟩ := generate_run hname hfree hfiles hconsistent
    -- The names of a target are its own.
    have hagain : ∀ t : Tree, Ready t (parent ++ [last]) files ↔ Free t parent last name := by
      intro t
      constructor
      · rintro ⟨parent', last', name', heq, hname', hfree', -⟩
        obtain ⟨rfl, hlast⟩ := List.append_inj' heq rfl
        obtain rfl := List.singleton_inj.mp hlast
        obtain rfl := Except.ok.inj (hname.symm.trans hname')
        exact hfree'
      · exact fun hfree' => ⟨parent, last, name, rfl, hname, hfree', hfiles, hconsistent⟩
    rw [AllOrNothing, sound_iff, sound_iff, hagain, hagain, Interrupted, List.dropLast_concat]
    by_cases hok : (generate d (parent ++ [last]) files).1 = .ok ()
    · refine iff_of_true ⟨fun _ => ⟨(hdone hok).1, ?_⟩, fun h => absurd hok h⟩ ?_
      · intro parent' last' name' heq hname'
        obtain ⟨rfl, hlast⟩ := List.append_inj' heq rfl
        obtain rfl := List.singleton_inj.mp hlast
        obtain rfl := Except.ok.inj (hname.symm.trans hname')
        exact (hdone hok).2
      · rintro ⟨-, i, hi, hfault⟩
        exact hfault (hiff.mp hok i (by omega))
    · rw [← hfailed hok]
      exact ⟨fun h => (h.2 hok).2 hfree,
        fun h => ⟨fun hok' => absurd hok' hok, fun hne => ⟨generate_frame hne, fun _ => h⟩⟩⟩
  · refine iff_of_true ⟨fun hok => absurd (ready_of_ok hok) hready, fun hne => ⟨generate_frame hne, fun hsound => ?_⟩⟩
      fun h => absurd h hready
    exact absurd ((sound_iff d target files).mp hsound) hready

end Arcature.Templates

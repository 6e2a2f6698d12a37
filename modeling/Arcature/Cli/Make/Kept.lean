import Arcature.Cli.Make.Generate

/-! What a generation leaves alone.

    A computation over the files touches a set of paths, whatever it starts from and however it ends.
    Registering a file touches the `mod.rs` files on the way up from it, writing one the file as well.
    So the files of one plan stay free while the others are written, and the error that says a target
    exists comes before the first write (`untouched_of_targetExists`). -/

namespace Arcature.Cli.Make
open Lib Lib.Rust

/-! ### Touching -/

/-- All that a computation can change lies in a set of paths. -/
def Touches {α : Type} (m : Disk α) (paths : Set Path) : Prop := ∀ t p, p ∉ paths → (m t).2.get? p = t.get? p

section Touches

variable {α β : Type} {paths : Set Path}

theorem touches_pure (a : α) : Touches (pure a : Disk α) paths := fun _ _ _ => rfl

theorem touches_fail (e : MakeError) : Touches (Disk.fail e : Disk α) paths := fun _ _ _ => rfl

theorem touches_files : Touches Disk.files paths := fun _ _ _ => rfl

theorem touches_bind {m : Disk α} {f : α → Disk β} (hm : Touches m paths) (hf : ∀ a, Touches (f a) paths) :
    Touches (m >>= f) paths := by
  intro t p hp
  cases hrun : m t with
  | mk result t₁ =>
    have ht₁ := hm t p hp
    rw [hrun] at ht₁
    cases result with
    | ok a =>
      have hstep : (m >>= f) t = f a t₁ := by
        simp only [bind, hrun]
      rw [hstep, hf a t₁ p hp, ht₁]
    | error e =>
      have hstep : (m >>= f) t = (.error e, t₁) := by
        simp only [bind, hrun]
      rw [hstep, ht₁]

theorem Touches.mono {m : Disk α} (h : Touches m paths) {paths' : Set Path} (hsub : paths ⊆ paths') :
    Touches m paths' := fun t p hp => h t p fun hin => hp (hsub hin)

theorem touches_readFile (p : Path) : Touches (readFile p) paths := by
  refine touches_bind touches_files fun t => ?_
  split
  · exact touches_pure _
  · exact touches_fail _

theorem touches_createDirAll (d : Path) : Touches (createDirAll d) paths := by
  refine touches_bind touches_files fun t => ?_
  split_ifs
  · exact touches_fail _
  · exact touches_pure _

theorem touches_writeFile {p : Path} (hp : p ∈ paths) (contents : Str) : Touches (writeFile p contents) paths := by
  intro t q hq
  rw [writeFile]
  split_ifs
  · rfl
  · rw [Map.get?_insert, if_neg (ne_of_mem_of_not_mem hp hq).symm]

end Touches

/-- The module files on the way up from a directory. -/
def rootsAbove (d : Path) : Set Path := {p | ∃ e, e <+: d ∧ p = rootFile e}

theorem rootsAbove_mono {d e : Path} (h : d <+: e) : rootsAbove d ⊆ rootsAbove e := by
  rintro p ⟨above, habove, rfl⟩
  exact ⟨above, habove.trans h, rfl⟩

theorem touches_registerIn {dir : Path} {stem : Str} {up : Str → Generated → Disk Generated} {g : Generated}
    (hup : ∀ directory g, Touches (up directory g) (rootsAbove dir)) :
    Touches (registerIn dir stem up g) (rootsAbove dir) := by
  have hown : rootFile dir ∈ rootsAbove dir := ⟨dir, List.prefix_refl _, rfl⟩
  refine touches_bind (touches_bind touches_files fun t => ?_) fun g => touches_bind (touches_readFile _) fun text => ?_
  · split_ifs
    · exact touches_pure _
    · exact touches_bind (touches_writeFile hown _) fun _ => hup _ _
  · split_ifs
    · exact touches_pure _
    · exact touches_bind (touches_writeFile hown _) fun _ => touches_pure _

theorem touches_registerRev (rev : List Str) (stem : Str) (g : Generated) :
    Touches (registerRev rev stem g) (rootsAbove rev.reverse) := by
  induction rev generalizing stem g with
  | nil => exact touches_registerIn fun _ _ => touches_pure _
  | cons name above ih =>
    cases above with
    | nil => exact touches_registerIn fun _ _ => touches_pure _
    | cons parent above =>
      refine touches_registerIn fun directory g => (ih directory g).mono (rootsAbove_mono ?_)
      exact ⟨[name], (List.reverse_cons : (name :: parent :: above).reverse = _).symm⟩

/-- What writing an artifact can change. -/
def writtenBy (a : Artifact) : Set Path :=
  {p | p = a.path ∨ a.registerModule = true ∧ p ∈ rootsAbove a.path.dropLast}

theorem touches_write (a : Artifact) : Touches (write a) (writtenBy a) := by
  refine touches_bind touches_files fun t => ?_
  split
  · exact touches_fail _
  · refine touches_bind (touches_createDirAll _) fun _ => touches_bind (touches_writeFile (.inl rfl) _) fun _ => ?_
    dsimp only
    split_ifs with hreg
    · refine (touches_registerRev _ _ _).mono fun p hp => .inr ⟨hreg, ?_⟩
      rwa [List.reverse_reverse] at hp
    · exact touches_pure _

/-! ### Targets -/

theorem isThere_iff {t : Tree} {p : Path} : isThere t p = true ↔ ∃ q, Present t q ∧ p <+: q := by
  have hkeys : ∀ q, q ∈ t.keys ↔ Present t q := by
    intro q
    rw [Present, Map.get?]
    by_cases hq : q ∈ t.keys <;> simp [hq]
  rw [isThere, Bool.or_eq_true, isDir, decide_eq_true_iff]
  constructor
  · rintro (hfile | ⟨q, hq, hpre, -⟩)
    · exact ⟨p, hfile, List.prefix_refl _⟩
    · exact ⟨q, (hkeys q).mp hq, hpre⟩
  · rintro ⟨q, hq, hpre⟩
    by_cases heq : p = q
    · exact .inl (heq ▸ hq)
    · exact .inr ⟨q, (hkeys q).mpr hq, hpre, heq⟩

theorem not_present_of_isThere {t : Tree} {p : Path} (h : isThere t p = false) : ¬ Present t p := fun hp =>
  absurd (isThere_iff.mpr ⟨p, hp, List.prefix_refl _⟩) (by simp [h])

/-- A target stays free while what is written does not lie at or below it. -/
theorem Touches.isThere {α : Type} {m : Disk α} {paths : Set Path} (h : Touches m paths) {t : Tree} {p : Path}
    (hfree : isThere t p = false) (hoff : ∀ q ∈ paths, ¬ p <+: q) : Make.isThere (m t).2 p = false := by
  rw [Bool.eq_false_iff, ne_eq, isThere_iff]
  rintro ⟨q, hq, hpre⟩
  have hsame := h t q fun hin => hoff q hin hpre
  rw [Present, hsame] at hq
  exact absurd (isThere_iff.mpr ⟨q, hq, hpre⟩) (by simp [hfree])

/-- Files that are apart do not get in each other's way. -/
theorem Apart.free {a b : Artifact} (h : Apart a b) (ha : Dotted a.path) (hb : Dotted b.path) :
    ∀ q ∈ writtenBy a, ¬ b.path <+: q := by
  obtain ⟨d, n, hpath, -, hd⟩ := ha
  rintro q (rfl | ⟨hreg, e, he, rfl⟩) hpre
  · exact h.path (hb.eq_of_prefix hd hpath hpre).symm
  · have hplain : ∀ s ∈ e, '.' ∉ s := by
      rw [hpath, List.dropLast_concat] at he
      exact fun s hs => hd s (he.subset hs)
    refine h.file hreg ?_
    rw [hb.eq_of_prefix hplain rfl hpre]
    exact List.getLast?_concat

/-! ### Errors -/

/-- Every error of a computation is one of the file system. -/
def OnlyIo {α : Type} (m : Disk α) : Prop := ∀ t e t', m t = (.error e, t') → ∃ p, e = .io p

section OnlyIo

variable {α β : Type}

theorem onlyIo_pure (a : α) : OnlyIo (pure a : Disk α) := by
  intro t e t' h
  simp at h

theorem onlyIo_fail (p : Path) : OnlyIo (Disk.fail (.io p) : Disk α) := by
  intro t e t' h
  rw [Disk.fail_run, Prod.mk.injEq] at h
  exact ⟨p, (Except.error.inj h.1).symm⟩

theorem onlyIo_files : OnlyIo Disk.files := by
  intro t e t' h
  simp [Disk.files] at h

theorem onlyIo_bind {m : Disk α} {f : α → Disk β} (hm : OnlyIo m) (hf : ∀ a, OnlyIo (f a)) : OnlyIo (m >>= f) := by
  intro t e t' h
  rcases Disk.bind_error.mp h with h | ⟨a, t₁, -, h⟩
  · exact hm t e t' h
  · exact hf a t₁ e t' h

theorem onlyIo_readFile (p : Path) : OnlyIo (readFile p) := by
  refine onlyIo_bind onlyIo_files fun t => ?_
  split
  · exact onlyIo_pure _
  · exact onlyIo_fail _

theorem onlyIo_createDirAll (d : Path) : OnlyIo (createDirAll d) := by
  refine onlyIo_bind onlyIo_files fun t => ?_
  split_ifs
  · exact onlyIo_fail _
  · exact onlyIo_pure _

theorem onlyIo_writeFile (p : Path) (contents : Str) : OnlyIo (writeFile p contents) := by
  intro t e t' h
  rw [writeFile] at h
  split_ifs at h
  · exact ⟨p, (Except.error.inj (Prod.mk.inj h).1).symm⟩
  · simp at h

end OnlyIo

theorem onlyIo_registerIn {dir : Path} {stem : Str} {up : Str → Generated → Disk Generated} {g : Generated}
    (hup : ∀ directory g, OnlyIo (up directory g)) : OnlyIo (registerIn dir stem up g) := by
  refine onlyIo_bind (onlyIo_bind onlyIo_files fun t => ?_) fun g => onlyIo_bind (onlyIo_readFile _) fun text => ?_
  · split_ifs
    · exact onlyIo_pure _
    · exact onlyIo_bind (onlyIo_writeFile _ _) fun _ => hup _ _
  · split_ifs
    · exact onlyIo_pure _
    · exact onlyIo_bind (onlyIo_writeFile _ _) fun _ => onlyIo_pure _

theorem onlyIo_registerRev (rev : List Str) (stem : Str) (g : Generated) : OnlyIo (registerRev rev stem g) := by
  induction rev generalizing stem g with
  | nil => exact onlyIo_registerIn fun _ _ => onlyIo_pure _
  | cons name above ih =>
    cases above with
    | nil => exact onlyIo_registerIn fun _ _ => onlyIo_pure _
    | cons parent above => exact onlyIo_registerIn fun directory g => ih directory g

theorem onlyIo_registerFeatureModule (name : ArtifactName) (g : Generated) : OnlyIo (registerFeatureModule name g) := by
  refine onlyIo_bind (onlyIo_registerRev _ _ _) fun g => onlyIo_bind (onlyIo_readFile _) fun original => ?_
  dsimp only
  split_ifs
  · exact onlyIo_bind (onlyIo_writeFile _ _) fun _ => onlyIo_pure _
  · exact onlyIo_pure _

/-- Writing to a free target fails in the file system only. -/
theorem io_of_write_error {a : Artifact} {t t' : Tree} {e : MakeError} (hfree : isThere t a.path = false)
    (h : write a t = (.error e, t')) : ∃ p, e = .io p := by
  rcases Disk.bind_error.mp h with h | ⟨t₁, t₂, hfiles, h⟩
  · exact onlyIo_files t e t' h
  · obtain ⟨hsame, rfl⟩ := Prod.mk.inj hfiles
    obtain rfl := Except.ok.inj hsame
    rw [if_neg (by simp [hfree])] at h
    refine onlyIo_bind (onlyIo_createDirAll _) (fun _ => onlyIo_bind (onlyIo_writeFile _ _) fun _ => ?_) _ _ _ h
    dsimp only
    split_ifs
    · exact onlyIo_registerRev _ _ _
    · exact onlyIo_pure _

/-- The targets of one plan are written one after another, each of them free when its turn comes. -/
theorem io_of_writeAll_error {artifacts : List Artifact} {t t' : Tree} {e : MakeError}
    (hapart : artifacts.Pairwise Apart) (hdotted : ∀ a ∈ artifacts, Dotted a.path)
    (hfree : ∀ a ∈ artifacts, isThere t a.path = false) (h : writeAll artifacts t = (.error e, t')) :
    ∃ p, e = .io p := by
  induction artifacts generalizing t with
  | nil => exact onlyIo_pure _ _ _ _ h
  | cons a artifacts ih =>
    rw [List.pairwise_cons] at hapart
    rw [List.forall_mem_cons] at hdotted hfree
    rcases Disk.bind_error.mp h with h | ⟨g, t₁, hwrite, h⟩
    · exact io_of_write_error hfree.1 h
    · rcases Disk.bind_error.mp h with h | ⟨gs, t₂, -, h⟩
      · refine ih hapart.2 hdotted.2 (fun b hb => ?_) h
        have hoff := (hapart.1 b hb).free hdotted.1 (hdotted.2 b hb)
        have hstay := (touches_write a).isThere (hfree.2 b hb) hoff
        rwa [hwrite] at hstay
      · simp at h

/-- A call that answers that its target exists leaves every file as it was. -/
theorem untouched_of_targetExists {render : Template → Rendered → Str} {kind : MakeKind} {rawName : Str} {now : ℕ}
    {t t' : Tree} {p : Path} (h : generateAll render kind rawName now t = (.error (.targetExists p), t')) :
    t' = t := by
  have hfiles : ∀ {α : Type} {f : Tree → Disk α} {e : MakeError}, (Disk.files >>= f) t = (.error e, t') →
      f t t = (.error e, t') := fun h => h
  have hfail : ∀ {α : Type} {e e' : MakeError}, (Disk.fail e : Disk α) t = (.error e', t') → t' = t := fun h =>
    (Prod.mk.inj h).2.symm
  have h := hfiles h
  split_ifs at h with happ
  · cases hparse : ArtifactName.parse rawName with
    | error error =>
      rw [hparse] at h
      exact hfail h
    | ok parsed =>
      rw [hparse] at h
      have h := hfiles h
      cases hfind : (planAll render kind parsed now).find? fun a => isThere t a.path with
      | some a =>
        rw [hfind] at h
        exact hfail h
      | none =>
        rw [hfind] at h
        exfalso
        have hio : ∃ q, MakeError.targetExists p = .io q := by
          rcases Disk.bind_error.mp h with h | ⟨written, t₁, -, h⟩
          · refine io_of_writeAll_error (apart_planAll _ _ _ _) (fun a ha => dotted_planAll ha) (fun a ha => ?_) h
            simpa using List.find?_eq_none.mp hfind a ha
          · split_ifs at h
            · cases written with
              | nil => exact onlyIo_pure _ _ _ _ h
              | cons primary rest =>
                exact onlyIo_bind (onlyIo_registerFeatureModule _ _) (fun _ => onlyIo_pure _) _ _ _ h
            · exact onlyIo_pure _ _ _ _ h
        obtain ⟨q, hq⟩ := hio
        exact MakeError.noConfusion hq
  · exact hfail h

end Arcature.Cli.Make

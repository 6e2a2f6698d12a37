import Arcature.Cli.Make.Written

/-! A feature module in a well-formed tree.

    Its four files make a directory with a sound module file, which declares the other three; nothing
    declares the directory yet. Registering it does, and the entries that go into the lists of
    `app/modules/mod.rs` are no declarations:

        app/modules/billing/mod.rs    declares controller, routes and service
        app/modules/mod.rs            then declares billing -/

namespace Arcature.Cli.Make
open Lib Lib.Rust

section Module

variable {render : Template → Rendered → Str} {name : ArtifactName} {t t' : Tree} {gs : List Generated}

theorem moduleDir_eq (name : ArtifactName) : moduleDir name = modulesDir name ++ [name.fileStem []] := rfl

/-- Files that are not registered are written, and nothing else is. -/
theorem writeAll_unregistered {artifacts : List Artifact} (hreg : ∀ a ∈ artifacts, a.registerModule = false)
    (hrun : writeAll artifacts t = (.ok gs, t')) :
    t' = artifacts.foldl (fun t a => t.insert a.path a.contents) t ∧ gs.length = artifacts.length := by
  induction artifacts generalizing t gs with
  | nil =>
    obtain ⟨hgs, rfl⟩ := Prod.mk.inj hrun
    rw [← Except.ok.inj hgs]
    exact ⟨rfl, rfl⟩
  | cons a artifacts ih =>
    rw [List.forall_mem_cons] at hreg
    obtain ⟨g, t₁, hwrite, hrest⟩ := Disk.bind_ok.mp hrun
    obtain ⟨gs', t₂, hall, hdone⟩ := Disk.bind_ok.mp hrest
    obtain ⟨hgs, rfl⟩ := Prod.mk.inj hdone
    obtain ⟨-, ht₁⟩ := write_ok hwrite
    rw [if_neg (by simp [hreg.1])] at ht₁
    obtain ⟨ht', hlen⟩ := ih hreg.2 hall
    rw [← Except.ok.inj hgs, List.length_cons, hlen, List.foldl_cons, ← ht₁]
    exact ⟨ht', rfl⟩

/-! ### The directory -/

/-- A file in a directory without a module file is no module's. -/
theorem insert_sibling {d : Path} (hwf : WellFormed tops t) (hnone : ¬ Present t (rootFile d)) {file : Str}
    (hfile : file ≠ "mod".toList) (text : Str) :
    WellFormed tops (t.insert (leafFile d file) text) ∧
      ¬ Present (t.insert (leafFile d file) text) (rootFile d) := by
  have hne : ∀ e, rootFile e ≠ leafFile d file := fun e heq => hfile (leafFile_eq_rootFile.mp heq.symm).2
  refine ⟨hwf.insert_leaf (fun e _ => hne e) fun e name _ heq => ?_, fun hp => ?_⟩
  · obtain ⟨rfl, -⟩ := leafFile_inj.mp heq
    exact fun own hown => absurd (present_of_get? hown) hnone
  · exact (present_insert.mp hp).elim (hne d) hnone

/-- The tree with the files beside the root of a module. -/
def withParts (render : Template → Rendered → Str) (name : ArtifactName) (t : Tree) : Tree :=
  let rendered := Rendered.new name []
  ((t.insert (leafFile (moduleDir name) "controller".toList) (render .moduleController rendered)).insert
    (leafFile (moduleDir name) "service".toList) (render .moduleService rendered)).insert
    (leafFile (moduleDir name) "routes".toList) (render .moduleRoutes rendered)

/-- The files beside the root. -/
def parts : List Str := ["controller".toList, "service".toList, "routes".toList]

theorem present_withParts {p : Path} : Present (withParts render name t) p ↔
    (∃ file ∈ parts, p = leafFile (moduleDir name) file) ∨ Present t p := by
  simp only [withParts, parts, present_insert, List.mem_cons, List.not_mem_nil, or_false, exists_eq_or_imp,
    exists_eq_left]
  tauto

theorem get?_withParts {p : Path} (h : ∀ file ∈ parts, p ≠ leafFile (moduleDir name) file) :
    (withParts render name t).get? p = t.get? p := by
  simp only [parts, List.forall_mem_cons] at h
  rw [withParts, Map.get?_insert, if_neg h.2.2.1, Map.get?_insert, if_neg h.2.1, Map.get?_insert, if_neg h.1]

theorem ne_mod_of_mem_parts {file : Str} (h : file ∈ parts) : file ≠ "mod".toList := by
  revert file
  decide

/-- A module's own files in a tree that has none of them. -/
structure Fresh (t : Tree) (name : ArtifactName) : Prop where
  root : ¬ Present t (rootFile (moduleDir name))
  parts : ∀ file ∈ parts, ¬ Present t (leafFile (moduleDir name) file)

theorem inScope_modulesDir (name : ArtifactName) : InScope tops (modulesDir name) :=
  InScope.append (d := below ["app", "modules"]) (by decide) _

theorem withParts_wellFormed (hwf : WellFormed tops t) (hfresh : Fresh t name) :
    WellFormed tops (withParts render name t) ∧ ¬ Present (withParts render name t) (rootFile (moduleDir name)) := by
  have hcontroller : "controller".toList ≠ "mod".toList := by decide
  have hservice : "service".toList ≠ "mod".toList := by decide
  have hroutes : "routes".toList ≠ "mod".toList := by decide
  obtain ⟨hwf₁, hnone₁⟩ := insert_sibling hwf hfresh.root hcontroller _
  obtain ⟨hwf₂, hnone₂⟩ := insert_sibling hwf₁ hnone₁ hservice _
  exact insert_sibling hwf₂ hnone₂ hroutes _

theorem withParts_grows (hfresh : Fresh t name) : Grows t (withParts render name t) := by
  intro p text htext
  refine ⟨text, ?_, fun _ hm => hm⟩
  rw [get?_withParts, htext]
  rintro file hfile rfl
  exact hfresh.parts file hfile (present_of_get? htext)

/-- The root of a module is sound where the files beside it are. -/
theorem sound_moduleRoot (hwf : WellFormed tops t) (hfresh : Fresh t name) :
    Sound ((withParts render name t).insert (rootFile (moduleDir name)) (moduleRoot name).contents)
      (moduleDir name) (moduleRoot name).contents := by
  obtain ⟨hdecls, hinlines⟩ := decls_moduleRoot name
  have hmem : ∀ m ∈ decls (moduleRoot name).contents, m.name ∈ parts ∧ IsModuleName m.name := by
    rw [hdecls]
    decide
  refine ⟨by rw [hdecls]; decide, fun m hm => ?_, fun m hm => (hmem m hm).2, hinlines⟩
  obtain ⟨hpart, hname⟩ := hmem m hm
  refine .inl ⟨present_insert.mpr (.inr (present_withParts.mpr (.inl ⟨m.name, hpart, rfl⟩))), fun hp => ?_⟩
  rcases present_insert.mp hp with heq | hp
  · exact List.cons_ne_nil _ _ (List.self_eq_append_right.mp (rootFile_inj.mp heq).symm)
  · rcases present_withParts.mp hp with ⟨file, hfile, heq⟩ | hp
    · exact ne_mod_of_mem_parts hfile (leafFile_eq_rootFile.mp heq.symm).2
    · -- the module file below would have to be declared in the one that is missing
      have hscope : InScope tops (moduleDir name) := (inScope_modulesDir name).append _
      exact hfresh.root (hwf.placed _ _ hscope hp (Set.notMem_empty _)).present

theorem moduleFile_rs {file : String} {stem : Str} (h : file.toList = stem ++ ".rs".toList) :
    moduleFile name file = leafFile (moduleDir name) stem := congrArg (moduleDir name ++ [·]) h

theorem exists_part {file : Str} (h : file ∈ parts) :
    ∃ a ∈ module render name, a.path = leafFile (moduleDir name) file := by
  simp only [parts, List.mem_cons, List.not_mem_nil, or_false] at h
  simp only [module, List.exists_mem_cons_iff]
  rcases h with rfl | rfl | rfl
  · exact .inr (.inl (moduleFile_rs (by decide)))
  · exact .inr (.inr (.inl (moduleFile_rs (by decide))))
  · exact .inr (.inr (.inr (.inl (moduleFile_rs (by decide)))))

/-- All four files, the root last. -/
theorem foldl_module : (module render name).foldl (fun t a => t.insert a.path a.contents) t =
    (withParts render name t).insert (rootFile (moduleDir name)) (moduleRoot name).contents := by
  have hcontroller : moduleFile name "controller.rs" = leafFile (moduleDir name) "controller".toList :=
    moduleFile_rs (by decide)
  have hservice : moduleFile name "service.rs" = leafFile (moduleDir name) "service".toList :=
    moduleFile_rs (by decide)
  have hroutes : moduleFile name "routes.rs" = leafFile (moduleDir name) "routes".toList :=
    moduleFile_rs (by decide)
  have hne : ∀ {stem : Str}, stem ≠ "mod".toList → leafFile (moduleDir name) stem ≠ rootFile (moduleDir name) :=
    fun h heq => h (leafFile_eq_rootFile.mp heq).2
  simp only [module, List.foldl_cons, List.foldl_nil, modulePart, hcontroller, hservice, hroutes, withParts]
  rw [Map.insert_comm _ (hne (by decide)), Map.insert_comm _ (hne (by decide)), Map.insert_comm _ (hne (by decide))]
  rfl

/-- The tree with all four files. -/
def withModule (render : Template → Rendered → Str) (name : ArtifactName) (t : Tree) : Tree :=
  (withParts render name t).insert (rootFile (moduleDir name)) (moduleRoot name).contents

/-- What making a module asks of the tree. -/
structure Makeable (t : Tree) (name : ArtifactName) : Prop where
  fresh : Fresh t name
  word : name.fileStem [] ∉ keywords
  beside : ¬ Present t (leafFile (modulesDir name) (name.fileStem []))
  way : ClearWay t (modulesDir name)

theorem Makeable.undeclared (h : Makeable t name) (hwf : WellFormed tops t) :
    Undeclared t (modulesDir name) (name.fileStem []) :=
  hwf.undeclared (inScope_modulesDir name) h.beside h.fresh.root

/-- Paths that are shorter than those of the module's files are as they were. -/
theorem get?_withModule {p : Path} (h : p.length ≤ (moduleDir name).length) :
    (withModule render name t).get? p = t.get? p := by
  have hne : ∀ file : Str, p ≠ moduleDir name ++ [file] := by
    rintro file rfl
    rw [List.length_append, List.length_singleton] at h
    omega
  have hroot : p ≠ rootFile (moduleDir name) := hne _
  rw [withModule, Map.get?_insert, if_neg hroot]
  exact get?_withParts fun file _ => hne _

theorem withModule_wellFormed (hwf : WellFormed tops t) (h : Makeable t name) :
    WellFormedBut tops (insert (moduleDir name) ∅) (withModule render name t) := by
  obtain ⟨hwf₁, hnone⟩ : WellFormed tops (withParts render name t) ∧
      ¬ Present (withParts render name t) (rootFile (moduleDir name)) := withParts_wellFormed hwf h.fresh
  refine hwf₁.insert_root hnone (fun above stem _ hdir own hown => ?_) (sound_moduleRoot hwf h.fresh)
  obtain ⟨rfl, hstem⟩ := List.append_inj' hdir rfl
  rw [← List.singleton_inj.mp hstem]
  rw [get?_withParts] at hown
  · exact h.undeclared hwf own hown
  · exact fun file hfile heq => ne_mod_of_mem_parts hfile (leafFile_eq_rootFile.mp heq.symm).2

theorem withModule_grows (h : Makeable t name) : Grows t (withModule render name t) := by
  refine (withParts_grows h.fresh).trans (grows_insert_new fun hp => ?_)
  rcases present_withParts.mp hp with ⟨file, hfile, heq⟩ | hp
  · exact ne_mod_of_mem_parts hfile (leafFile_eq_rootFile.mp heq.symm).2
  · exact h.fresh.root hp

theorem withModule_registrable (hwf : WellFormed tops t) (h : Makeable t name) :
    Registrable (withModule render name t) (modulesDir name) (name.fileStem []) := by
  have hlen : (moduleDir name).length = (modulesDir name).length + 1 := by rw [moduleDir_eq, List.length_append]; rfl
  refine ⟨inScope_modulesDir name, fun s hs => isSnake_of_mem_moduleDir (List.mem_append_left _ hs),
    name.isSnake_fileStem (by decide), h.word, .inr ⟨present_insert.mpr (.inl rfl), ?_⟩, fun own hown => ?_⟩
  · rw [Present, get?_withModule (by rw [leafFile, List.length_append, hlen]; rfl)]
    exact h.beside
  · rw [get?_withModule (by rw [rootFile, List.length_append, hlen]; rfl)] at hown
    exact h.undeclared hwf own hown

theorem withModule_way (h : Makeable t name) : ClearWay (withModule render name t) (modulesDir name) := by
  have hlen : (moduleDir name).length = (modulesDir name).length + 1 := by rw [moduleDir_eq, List.length_append]; rfl
  intro e n he hpre hmissing
  have hbound := hpre.length_le
  rw [List.length_append] at hbound
  have hroot : (rootFile (e ++ [n])).length ≤ (moduleDir name).length := by
    rw [rootFile, List.length_append, List.length_append, hlen]
    exact Nat.add_le_add_right hbound 1
  have hleaf : (leafFile e n).length ≤ (moduleDir name).length := by
    rw [leafFile, List.length_append, hlen]
    exact hbound.trans (Nat.le_succ _)
  rw [Present, get?_withModule hroot] at hmissing
  rw [Present, get?_withModule hleaf]
  exact h.way e n he hpre hmissing

/-! ### The lists -/

/-- A character that neither ends a line nor parts two words. -/
def Solid (c : Char) : Prop := c ≠ '\n' ∧ c ≠ ' '

instance (c : Char) : Decidable (Solid c) := inferInstanceAs (Decidable (_ ∧ _))

theorem solid_of_isSnake {s : Str} (h : isSnake s = true) : ∀ c ∈ s, Solid c := by
  intro c hc
  have hsnake := isSnakeChar_of_isSnake h c hc
  constructor
  · rintro rfl
    exact absurd hsnake (by decide)
  · rintro rfl
    exact absurd hsnake (by decide)

theorem solid_accessor (name : ArtifactName) : ∀ c ∈ (name.typeName []).map Char.toLower, Solid c := by
  intro c hc
  obtain ⟨d, hd, rfl⟩ := List.mem_map.mp hc
  rw [name.typeName_nil] at hd
  have hsnake := isSnake_toSnakeCase (valid_of_isSnake (name.isSnake_base []))
  have hlower := isSnakeChar_toLower (isAlphanum_of_mem_pascal (isSnakeChar_of_isSnake hsnake) hd)
  constructor
  · intro h
    rw [h] at hlower
    exact absurd hlower (by decide)
  · intro h
    rw [h] at hlower
    exact absurd hlower (by decide)

/-- The entries of a module have no blanks. -/
theorem solid_moduleEntries {entry : Str × Str} (h : entry ∈ moduleEntries name) : ∀ c ∈ entry.2, Solid c := by
  have hstem : ∀ c ∈ name.fileStem [], Solid c := solid_of_isSnake (name.isSnake_fileStem (by decide))
  have hpath : ∀ c ∈ name.dirs.flatMap (· ++ "::".toList) ++ name.fileStem [], Solid c := by
    rw [List.forall_mem_append]
    refine ⟨fun c hc => ?_, hstem⟩
    obtain ⟨dir, hdir, hc⟩ := List.mem_flatMap.mp hc
    rcases List.mem_append.mp hc with hc | hc
    · exact solid_of_isSnake (ArtifactName.isSnake_of_mem_dirs hdir) c hc
    · exact (by decide : ∀ c ∈ "::".toList, Solid c) c hc
  simp only [moduleEntries, List.mem_cons, List.not_mem_nil, or_false] at h
  rcases h with rfl | rfl
  · simp only [List.forall_mem_append]
    exact ⟨⟨⟨List.forall_mem_append.mp hpath, by decide⟩, solid_accessor name, by decide⟩, by decide⟩
  · simp only [List.forall_mem_append]
    exact ⟨⟨⟨List.forall_mem_append.mp hpath, by decide⟩, hstem⟩, by decide⟩

/-- Nothing that is read of the module files is changed by the entries. -/
theorem readLines_insertEntries {α : Type} {f : Str → Option α} (hf : f [] = none)
    (hquiet : ∀ line, opened? line = none → f line = none) {entries : List (Str × Str)}
    (hsolid : ∀ entry ∈ entries, ∀ c ∈ entry.2, Solid c) (text : Str) (g : Generated) :
    Str.readLines f (entries.foldl insertEntry (text, g)).1 = Str.readLines f text := by
  induction entries generalizing text g with
  | nil => rfl
  | cons entry entries ih =>
    rw [List.forall_mem_cons] at hsolid
    obtain ⟨region, entry⟩ := entry
    rw [List.foldl_cons]
    have hstep : Str.readLines f (insertEntry (text, g) (region, entry)).1 = Str.readLines f text := by
      rw [insertEntry]
      split
      · next next hnext =>
        refine readLines_insertInRegion hf (fun hc => (hsolid.1 _ hc).1 rfl) (hquiet _ ?_) hnext
        exact opened?_eq_none_of_blank fun hc => (hsolid.1 _ ((Str.trim_infix_self entry).subset hc)).2 rfl
      · rfl
    exact (ih hsolid.2 _ _).trans hstep

/-- Writing the lists keeps the tree well formed. -/
theorem insert_lists {d : Path} {text updated : Str} (hwf : WellFormed tops t) (hd : InScope tops d)
    (htext : t.get? (rootFile d) = some text) (hdecls : decls updated = decls text)
    (hinlines : inlines updated = inlines text) :
    WellFormed tops (t.insert (rootFile d) updated) ∧ Grows t (t.insert (rootFile d) updated) := by
  have hkeep : ∀ m ∈ decls text, m ∈ decls updated := fun m hm => hdecls ▸ hm
  have hsound := hwf.sound d text hd htext
  have hsound' : Sound t d updated :=
    { nodup := hdecls ▸ hsound.nodup
      resolved := hdecls ▸ hsound.resolved
      named := hdecls ▸ hsound.named
      bodiless := hinlines.trans hsound.bodiless }
  refine ⟨hwf.edit_root htext hkeep hsound' fun e name hin => absurd hin (Set.notMem_empty _), ?_⟩
  exact grows_insert fun own hown => by rwa [Option.some.inj (hown.symm.trans htext)]

/-- Registering a module that was written. -/
theorem registerFeatureModule_grown {g g' : Generated} (h : Registrable t (modulesDir name) (name.fileStem []))
    (hway : ClearWay t (modulesDir name)) (hwf : WellFormedBut tops (insert (moduleDir name) ∅) t)
    (hrun : registerFeatureModule name g t = (.ok g', t')) : WellFormed tops t' ∧ Grows t t' := by
  obtain ⟨g₁, t₁, hregister, hlists⟩ := Disk.bind_ok.mp hrun
  obtain ⟨hwf₁, -, hgrows₁⟩ := register_grown h hway hwf hregister
  obtain ⟨original, t₂, hread, hupdate⟩ := Disk.bind_ok.mp hlists
  obtain ⟨htext, rfl⟩ := readFile_ok hread
  dsimp only at hupdate
  split_ifs at hupdate
  · obtain ⟨u, t₃, hwrite, hdone⟩ := Disk.bind_ok.mp hupdate
    obtain rfl := writeFile_ok hwrite
    obtain ⟨-, rfl⟩ := Prod.mk.inj hdone
    have hsolid : ∀ entry ∈ moduleEntries name, ∀ c ∈ entry.2, Solid c := fun _ => solid_moduleEntries
    obtain ⟨hwf', hgrows'⟩ := insert_lists hwf₁ (by decide) htext
      (readLines_insertEntries decl?_nil (fun _ hline => (unread_of_opened? hline).1) hsolid original g₁)
      (readLines_insertEntries inline?_nil (fun _ hline => (unread_of_opened? hline).2) hsolid original g₁)
    exact ⟨hwf', hgrows₁.trans hgrows'⟩
  · obtain ⟨-, rfl⟩ := Prod.mk.inj hupdate
    exact ⟨hwf₁, hgrows₁⟩

end Module

end Arcature.Cli.Make

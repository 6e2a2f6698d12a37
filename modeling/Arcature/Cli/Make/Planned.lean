import Arcature.Cli.Make.Blueprint
import Arcature.Cli.Make.ModFile

/-! Where the files of a plan lie, and what the root of a module declares.

    The registered ones lie in the module trees, each beside the `mod.rs` that is to declare it. The
    files of one plan are apart: none of them, and no `mod.rs` that is written on the way up from one,
    is another one of the plan.

        app/auth/admin/user.rs            registered in app/auth/admin/mod.rs
        app/auth/admin/user_routes.rs     registered in app/auth/admin/mod.rs
        tests/checkout.rs                 in neither tree -/

namespace Arcature.Cli.Make
open Lib Lib.Rust

/-! ### Where the files go -/

/-- The directories whose module trees the generators add to. -/
def tops : List Str := ["app".toList, "database".toList]

/-- A file beside a module file of the trees, its stem and its directories in snake case. -/
structure Placed (a : Artifact) (d : Path) (stem : Str) : Prop where
  path : a.path = leafFile d stem
  snake : isSnake stem = true
  dirs : ∀ s ∈ d, isSnake s = true
  inScope : InScope tops d

theorem isSnakeChar_padded {width n : ℕ} {c : Char} (h : c ∈ Observe.padded width n) : isSnakeChar c = true := by
  rcases List.mem_append.mp h with h | h
  · rw [List.eq_of_mem_replicate h]
    rfl
  · simp [isSnakeChar, Nat.isDigit_of_mem_toDigits (by norm_num) le_rfl h]

theorem isSnakeChar_utcStamp {seconds : ℕ} {c : Char} (h : c ∈ utcStamp seconds) : isSnakeChar c = true := by
  simp only [utcStamp, List.mem_append, List.mem_singleton] at h
  rcases h with ((((((h | h) | h) | rfl) | h) | h) | h)
  on_goal 4 => rfl
  all_goals exact isSnakeChar_padded h

theorem isSnake_migration (seconds : ℕ) {rest : Str} (h : ∀ c ∈ rest, isSnakeChar c = true) :
    isSnake ('m' :: utcStamp seconds ++ rest) = true := by
  refine isSnake_append (isSnake_append (s := ['m']) rfl fun c hc => isSnakeChar_utcStamp hc) h

theorem isSnakeChar_of_isSnake {s : Str} (h : isSnake s = true) : ∀ c ∈ s, isSnakeChar c = true :=
  (isSnake_iff.mp h).2

theorem isSnakeChar_pluralize {word : Str} (h : ∀ c ∈ word, isSnakeChar c = true) :
    ∀ c ∈ pluralize word, isSnakeChar c = true := by
  have hending : ∀ {stem ending : Str}, (∀ c ∈ stem, isSnakeChar c = true) → (∀ c ∈ ending, isSnakeChar c = true) →
      ∀ c ∈ stem ++ ending, isSnakeChar c = true :=
    fun hstem hend c hc => (List.mem_append.mp hc).elim (hstem c) (hend c)
  rw [pluralize]
  split
  · next stem hstem =>
    obtain ⟨hdrop, -⟩ := Option.filter_eq_some_iff.mp hstem
    obtain ⟨ending, hword, -⟩ := List.dropSuffix?_eq_some_iff.mp hdrop
    exact hending (fun c hc => h c (hword ▸ List.mem_append_left ending hc)) (by decide)
  · split_ifs
    · exact hending h (by decide)
    · exact hending h (by decide)

section plan

variable {render : Template → Rendered → Str} {kind : MakeKind} {name : ArtifactName} {now : ℕ} {a : Artifact}

theorem placed_destination {root : List String} {stem : Str} (hpath : a.path = destination (below root) name stem)
    (hstem : isSnake stem = true) (hroot : ∀ s ∈ below root, isSnake s = true) (hscope : InScope tops (below root)) :
    Placed a (below root ++ name.dirs) stem where
  path := hpath
  snake := hstem
  dirs := fun s hs => (List.mem_append.mp hs).elim (hroot s) ArtifactName.isSnake_of_mem_dirs
  inScope := hscope.append _

theorem placed_rendered {root : List String} {suffix : Str}
    (hpath : a.path = destination (below root) name (Rendered.new name suffix).stem)
    (hsuffix : ∀ c ∈ toSnakeCase suffix, isSnakeChar c = true) (hroot : ∀ s ∈ below root, isSnake s = true)
    (hscope : InScope tops (below root)) : Placed a (below root ++ name.dirs) (name.fileStem suffix) :=
  placed_destination hpath (name.isSnake_fileStem hsuffix) hroot hscope

/-- A registered file goes beside a module file of the trees. -/
theorem registered_placed (h : a ∈ planAll render kind name now) (hreg : a.registerModule = true) :
    ∃ d stem, Placed a d stem := by
  have hbase : isSnake (name.fileStem []) = true := name.isSnake_fileStem (by decide)
  have hmigration : ∀ c ∈ '_' :: name.fileStem [], isSnakeChar c = true := by
    simpa [isSnakeChar] using isSnakeChar_of_isSnake hbase
  have hcreate : isSnake ('m' :: utcStamp now ++ "_create_".toList ++ pluralize (name.fileStem [])) = true :=
    isSnake_append (isSnake_migration now (by decide)) (isSnakeChar_pluralize (isSnakeChar_of_isSnake hbase))
  cases kind with
  | module =>
    exfalso
    simp only [planAll, module, List.mem_cons, List.not_mem_nil, or_false] at h
    rcases h with rfl | rfl | rfl | rfl <;> exact Bool.noConfusion hreg
  | test =>
    obtain rfl := List.mem_singleton.mp h
    exact Bool.noConfusion hreg
  | migration =>
    obtain rfl := List.mem_singleton.mp h
    exact ⟨_, _, placed_destination rfl (isSnake_migration now hmigration) (by decide) (by decide)⟩
  | view =>
    simp only [planAll, view, List.mem_cons, List.not_mem_nil, or_false] at h
    rcases h with rfl | rfl
    · exact ⟨_, _, placed_rendered rfl (by decide) (by decide) (by decide)⟩
    · exact Bool.noConfusion hreg
  | auth =>
    simp only [planAll, auth, List.mem_cons, List.not_mem_nil, or_false] at h
    rcases h with rfl | rfl | rfl | rfl | rfl | rfl
    · exact ⟨_, _, placed_rendered rfl (by decide) (by decide) (by decide)⟩
    on_goal 5 => exact ⟨_, _, placed_destination rfl hcreate (by decide) (by decide)⟩
    all_goals exact ⟨_, _, placed_destination rfl (isSnake_append hbase (by decide)) (by decide) (by decide)⟩
  | _ =>
    obtain rfl := List.mem_singleton.mp h
    exact ⟨_, _, placed_rendered rfl (by decide) (by decide) (by decide)⟩

end plan

/-! ### The root of a module -/

namespace ArtifactName

theorem newline_slashPath (name : ArtifactName) : '\n' ∉ name.slashPath := by
  intro h
  rcases Str.mem_intercalate h with hsep | ⟨part, hpart, hc⟩
  · exact absurd hsep (by decide)
  · have hsnake : isSnake part = true := by
      rcases List.mem_append.mp hpart with hpart | hpart
      · exact isSnake_of_mem_dirs hpart
      · exact List.mem_singleton.mp hpart ▸ name.stem.2
    exact absurd (isSnakeChar_of_isSnake hsnake _ hc) (by decide)

theorem typeName_nil (name : ArtifactName) : name.typeName [] = toPascalCase (name.base []) := List.append_nil _

theorem newline_typeName (name : ArtifactName) : '\n' ∉ name.typeName [] := by
  intro h
  rw [typeName_nil] at h
  have hsnake := isSnake_toSnakeCase (valid_of_isSnake (name.isSnake_base []))
  exact absurd (isAlphanum_of_mem_pascal (isSnakeChar_of_isSnake hsnake) h) (by decide)

end ArtifactName

theorem quiet_moduleRootDoc (name : ArtifactName) (suffix : Str) :
    ∀ l ∈ moduleRootDoc (Rendered.new name suffix), Quiet l := by
  refine List.forall_mem_cons.mpr ⟨?_, by decide +kernel⟩
  exact Quiet.of_head (c := '/') (by decide) (by decide) name.newline_slashPath (by decide) (by decide) (by decide)

/-- The line that names the module opens none: the name has a capital. -/
theorem quiet_moduleRoot_type (name : ArtifactName) :
    Quiet ("    pub ".toList ++ name.typeName [] ++ " \x7b".toList) := by
  have hsnake := isSnake_toSnakeCase (valid_of_isSnake (name.isSnake_base []))
  obtain ⟨c, hc, hupper⟩ := exists_head_pascal hsnake
  obtain ⟨rest, hname⟩ : ∃ rest, name.typeName [] = c :: rest := by
    rw [name.typeName_nil, toPascalCase]
    exact ⟨_, (List.cons_head?_tail hc).symm⟩
  refine ⟨List.not_mem_append (List.not_mem_append (by decide) name.newline_typeName) (by decide), ?_⟩
  have hindent : "    pub ".toList = "    ".toList ++ "pub ".toList := by decide
  have hline : "    pub ".toList ++ name.typeName [] ++ " \x7b".toList =
      "    ".toList ++ ("pub ".toList ++ (c :: rest) ++ " \x7b".toList) := by
    rw [hname, ← List.append_assoc, ← List.append_assoc]
    exact congrArg (· ++ (c :: rest) ++ " \x7b".toList) hindent
  have hlast : ("pub ".toList ++ (c :: rest) ++ " \x7b".toList).getLast? = some '\x7b' := by
    rw [List.getLast?_append]
    rfl
  have htrim : Str.trim ("pub ".toList ++ (c :: rest) ++ " \x7b".toList) =
      "pub ".toList ++ (c :: rest) ++ " \x7b".toList :=
    Str.trim_eq_self (c := 'p') (d := '\x7b') rfl hlast rfl rfl
  rw [hline, Str.trim_append_of_space (by decide), htrim]
  by_contra h
  obtain ⟨⟨isPub, rest'⟩, hopened⟩ := Option.ne_none_iff_exists'.mp h
  have htext := opened?_eq_some.mp hopened
  cases isPub with
  | true =>
    have htail : c :: rest ++ " \x7b".toList = "mod ".toList ++ rest' :=
      List.append_cancel_left (show "pub ".toList ++ _ = "pub ".toList ++ _ from htext)
    have hm : c = 'm' := (List.cons.inj htail).1
    rw [hm] at hupper
    exact absurd hupper (by decide)
  | false => exact absurd (List.cons.inj htext).1 (by decide)

theorem newline_toUpper {s : Str} (h : isSnake s = true) : '\n' ∉ s.map Char.toUpper := by
  intro hmem
  obtain ⟨c, hc, hupper⟩ := List.mem_map.mp hmem
  have hsnake := isSnakeChar_of_isSnake h c hc
  simp only [isSnakeChar, Bool.or_eq_true, beq_iff_eq] at hsnake
  rcases hsnake with (hsnake | hsnake) | rfl
  · exact absurd (hupper ▸ Ascii.isUpper_toUpper hsnake) (by decide)
  · rw [Ascii.toUpper_of_isDigit hsnake] at hupper
    exact absurd (hupper ▸ hsnake) (by decide)
  · exact absurd hupper (by decide)

theorem quiet_moduleRootBody (name : ArtifactName) : ∀ l ∈ moduleRootBody (Rendered.new name []), Quiet l := by
  have htype := name.newline_typeName
  have hcontroller : '\n' ∉ name.typeName [] ++ "Controller".toList := List.not_mem_append htype (by decide)
  have hservice : '\n' ∉ name.typeName [] ++ "Service".toList := List.not_mem_append htype (by decide)
  have hroutes : '\n' ∉ (name.fileStem []).map Char.toUpper ++ "_ROUTES".toList :=
    List.not_mem_append (newline_toUpper (name.isSnake_fileStem (by decide))) (by decide)
  simp only [moduleRootBody, List.forall_mem_append, List.forall_mem_cons, List.mem_singleton, forall_eq]
  refine ⟨⟨⟨⟨⟨⟨by decide +kernel, ?_⟩, by decide +kernel⟩, ?_⟩, by decide +kernel⟩,
    quiet_moduleRoot_type name, ?_, ?_, ?_⟩, by decide +kernel⟩
  · exact Quiet.of_head (c := '/') (by decide) (by decide) hservice (by decide) (by decide) (by decide)
  · exact Quiet.of_head (c := 'u') (by decide) (by decide) hcontroller (by decide) (by decide) (by decide)
  · exact Quiet.of_head (c := 'c') (by decide) (by decide) hcontroller (by decide) (by decide) (by decide)
  · exact Quiet.of_head (c := 's') (by decide) (by decide) hservice (by decide) (by decide) (by decide)
  · exact Quiet.of_head (c := 'r') (by decide) (by decide) hroutes (by decide) (by decide) (by decide)

/-- The root of a module declares the three files beside it, and nothing else. -/
theorem decls_moduleRoot (name : ArtifactName) :
    decls (moduleRoot name).contents =
        [⟨true, "controller".toList⟩, ⟨true, "routes".toList⟩, ⟨true, "service".toList⟩] ∧
      inlines (moduleRoot name).contents = [] := by
  have hdoc := quiet_moduleRootDoc name []
  have hbody := quiet_moduleRootBody name
  have hbreak : ∀ l ∈ moduleRootDoc (Rendered.new name []) ++ moduleRootDecls ++ moduleRootBody (Rendered.new name []),
      '\n' ∉ l := by
    simp only [List.forall_mem_append]
    exact ⟨⟨fun l hl => (hdoc l hl).unbroken, by decide⟩, fun l hl => (hbody l hl).unbroken⟩
  rw [moduleRoot, decls, inlines, Str.readLines_unlines decl?_nil hbreak, Str.readLines_unlines inline?_nil hbreak]
  simp only [List.filterMap_append, (filterMap_quiet hdoc).1, (filterMap_quiet hdoc).2, (filterMap_quiet hbody).1,
    (filterMap_quiet hbody).2, List.nil_append, List.append_nil]
  decide

/-! ### The files of one plan -/

/-- A path whose directories have no dot in their names, and whose file has one. -/
def Dotted (p : Path) : Prop := ∃ d n, p = d ++ [n] ∧ '.' ∈ n ∧ ∀ s ∈ d, '.' ∉ s

theorem dot_of_isSnake {s : Str} (h : isSnake s = true) : '.' ∉ s := fun hmem =>
  absurd (isSnakeChar_of_isSnake h '.' hmem) (by decide)

theorem Dotted.of_snake {d : Path} {n : Str} (hd : ∀ s ∈ d, isSnake s = true) (hn : '.' ∈ n) : Dotted (d ++ [n]) :=
  ⟨d, n, rfl, hn, fun s hs => dot_of_isSnake (hd s hs)⟩

/-- Such a path lies on the way to another one only if it is that one. -/
theorem Dotted.eq_of_prefix {p q : Path} (hp : Dotted p) {d : Path} {n : Str} (hd : ∀ s ∈ d, '.' ∉ s)
    (hq : q = d ++ [n]) (h : p <+: q) : p = q := by
  obtain ⟨e, m, rfl, hm, -⟩ := hp
  subst hq
  rcases List.prefix_concat_iff.mp h with h | h
  · exact h
  · have hmem : m ∈ d := h.subset (List.mem_append_right e List.mem_cons_self)
    exact absurd hm (hd m hmem)

/-- Two files of which the first leaves the second alone, with all that it adds on the way up. -/
structure Apart (a b : Artifact) : Prop where
  path : a.path ≠ b.path
  file : a.registerModule = true → b.path.getLast? ≠ some "mod.rs".toList
  dirs : a.path.dropLast = b.path.dropLast ∨ a.path.head? ≠ b.path.head?

theorem leafFile_getLast? {d : Path} {stem : Str} : (leafFile d stem).getLast? = some (stem ++ ".rs".toList) :=
  List.getLast?_concat

/-- A stem of two words is not that of a module file. -/
theorem leafFile_ne_mod {d : Path} {stem : Str} (h : '_' ∈ stem) :
    (leafFile d stem).getLast? ≠ some "mod.rs".toList := by
  intro hmod
  rw [leafFile_getLast?] at hmod
  obtain rfl : stem = "mod".toList := List.append_cancel_right (Option.some.inj hmod)
  exact absurd h (by decide)

theorem apart_leafFile {a b : Artifact} {d : Path} {s s' : Str} (ha : a.path = leafFile d s)
    (hb : b.path = leafFile d s') (hne : s ≠ s') (hword : '_' ∈ s') : Apart a b where
  path := fun h => hne (leafFile_inj.mp (ha.symm.trans (h.trans hb))).2
  file := fun _ => hb ▸ leafFile_ne_mod hword
  dirs := .inl (by rw [ha, hb, leafFile, leafFile, List.dropLast_concat, List.dropLast_concat])

theorem apart_head {a b : Artifact} (hhead : a.path.head? ≠ b.path.head?)
    (hfile : b.path.getLast? ≠ some "mod.rs".toList) : Apart a b where
  path := fun h => hhead (congrArg List.head? h)
  file := fun _ => hfile
  dirs := .inr hhead

section plan

variable {render : Template → Rendered → Str} {kind : MakeKind} {name : ArtifactName} {now : ℕ} {a : Artifact}

/-- What is written for a module lies in the module's own directory. -/
theorem mem_module (h : a ∈ module render name) :
    a.registerModule = false ∧
      ∃ file ∈ ["mod.rs", "controller.rs", "service.rs", "routes.rs"], a.path = moduleFile name file := by
  simp only [module, List.mem_cons, List.not_mem_nil, or_false] at h
  rcases h with rfl | rfl | rfl | rfl <;> exact ⟨rfl, _, by decide, rfl⟩

theorem isSnake_of_mem_moduleDir {s : Str} (h : s ∈ moduleDir name) : isSnake s = true := by
  rcases List.mem_append.mp h with h | h
  · rcases List.mem_append.mp h with h | h
    · exact (by decide : ∀ s ∈ below ["app", "modules"], isSnake s = true) s h
    · exact ArtifactName.isSnake_of_mem_dirs h
  · exact List.mem_singleton.mp h ▸ name.isSnake_fileStem (by decide)

/-- Outside modules, what is not registered is outside the module trees. -/
theorem outside_planAll (hkind : kind ≠ .module) (h : a ∈ planAll render kind name now)
    (hreg : a.registerModule = false) :
    (∀ top ∈ tops, a.path.head? ≠ some top) ∧ Dotted a.path := by
  have htest : ∀ s ∈ below ["tests"] ++ name.dirs, isSnake s = true := fun s hs =>
    (List.mem_append.mp hs).elim ((by decide : ∀ s ∈ below ["tests"], isSnake s = true) s)
      ArtifactName.isSnake_of_mem_dirs
  have htemplate : ∀ s ∈ below ["templates"] ++ name.dirs, isSnake s = true := fun s hs =>
    (List.mem_append.mp hs).elim ((by decide : ∀ s ∈ below ["templates"], isSnake s = true) s)
      ArtifactName.isSnake_of_mem_dirs
  cases kind with
  | module => exact absurd rfl hkind
  | test =>
    obtain rfl := List.mem_singleton.mp h
    have hhead : ∀ top ∈ tops, some "tests".toList ≠ some top := by decide
    exact ⟨hhead, .of_snake htest (List.mem_append_right _ (by decide))⟩
  | view =>
    simp only [planAll, view, List.mem_cons, List.not_mem_nil, or_false] at h
    rcases h with rfl | rfl
    · exact Bool.noConfusion hreg
    · have hhead : ∀ top ∈ tops, some "templates".toList ≠ some top := by decide
      exact ⟨hhead, .of_snake htemplate (List.mem_append_right _ (by decide))⟩
  | auth =>
    simp only [planAll, auth, List.mem_cons, List.not_mem_nil, or_false] at h
    rcases h with rfl | rfl | rfl | rfl | rfl | rfl <;> exact Bool.noConfusion hreg
  | _ =>
    obtain rfl := List.mem_singleton.mp h
    exact Bool.noConfusion hreg

theorem dotted_planAll (h : a ∈ planAll render kind name now) : Dotted a.path := by
  by_cases hkind : kind = .module
  · subst hkind
    obtain ⟨-, file, hfile, hpath⟩ := mem_module h
    rw [hpath]
    refine .of_snake (fun s hs => isSnake_of_mem_moduleDir hs) ?_
    exact (by decide : ∀ file ∈ ["mod.rs", "controller.rs", "service.rs", "routes.rs"], '.' ∈ file.toList) file hfile
  · cases hreg : a.registerModule with
    | false => exact (outside_planAll hkind h hreg).2
    | true =>
      obtain ⟨d, stem, hplaced⟩ := registered_placed h hreg
      rw [hplaced.path]
      exact .of_snake hplaced.dirs (List.mem_append_right _ (by decide))

theorem apart_planAll (render : Template → Rendered → Str) (kind : MakeKind) (name : ArtifactName) (now : ℕ) :
    (planAll render kind name now).Pairwise Apart := by
  cases kind with
  | module =>
    have hfiles : ∀ {a b : Artifact} {file file' : String}, a.path = moduleFile name file →
        b.path = moduleFile name file' → a.registerModule = false → file.toList ≠ file'.toList → Apart a b :=
      fun ha hb hreg hne =>
        { path := fun h => hne (List.singleton_inj.mp (List.append_cancel_left (ha.symm.trans (h.trans hb))))
          file := fun h => absurd (hreg.symm.trans h) Bool.false_ne_true
          dirs := .inl (by rw [ha, hb, moduleFile, moduleFile, List.dropLast_concat, List.dropLast_concat]) }
    simp only [planAll, module, List.pairwise_cons, List.forall_mem_cons, List.mem_singleton, forall_eq]
    refine ⟨⟨?_, ?_, ?_⟩, ⟨?_, ?_⟩, ?_, fun _ h => absurd h List.not_mem_nil, .nil⟩
    all_goals exact hfiles rfl rfl rfl (by decide)
  | view =>
    simp only [planAll, view, List.pairwise_cons, List.mem_singleton, forall_eq]
    have hheads : some "app".toList ≠ some "templates".toList := by decide
    refine ⟨apart_head hheads fun hfile => ?_, fun _ h => absurd h List.not_mem_nil, .nil⟩
    have hlast : (name.fileStem [] ++ ".html".toList).getLast? = "mod.rs".toList.getLast? :=
      congrArg List.getLast? (Option.some.inj (List.getLast?_concat.symm.trans hfile))
    rw [List.getLast?_append] at hlast
    have hchars : some 'l' = some 's' := hlast
    exact absurd hchars (by decide)
  | auth =>
    have hbase : isSnake (name.fileStem []) = true := name.isSnake_fileStem (by decide)
    have hne : ∀ {part : Str}, name.fileStem [] ≠ name.fileStem [] ++ '_' :: part := fun h =>
      List.cons_ne_nil _ _ (List.self_eq_append_right.mp h)
    have hparts : ∀ {part part' : String}, part.toList ≠ part'.toList →
        name.fileStem [] ++ '_' :: part.toList ≠ name.fileStem [] ++ '_' :: part'.toList := fun hne h =>
      hne (List.cons.inj (List.append_cancel_left h)).2
    have hword : ∀ {part : Str}, '_' ∈ name.fileStem [] ++ '_' :: part := List.mem_append_right _ List.mem_cons_self
    have hmigration : (authMigration render name now).path.getLast? ≠ some "mod.rs".toList :=
      leafFile_ne_mod (List.mem_append_left _ (List.mem_append_right _ (by decide)))
    have hheads : some "app".toList ≠ some "database".toList := by decide
    simp only [planAll, auth, List.pairwise_cons, List.forall_mem_cons, List.mem_singleton, forall_eq]
    refine ⟨⟨?_, ?_, ?_, ?_, ?_⟩, ⟨?_, ?_, ?_, ?_⟩, ⟨?_, ?_, ?_⟩, ⟨?_, ?_⟩, ?_, fun _ h => absurd h List.not_mem_nil, .nil⟩
    all_goals first
      | exact apart_head hheads hmigration
      | exact apart_leafFile rfl rfl hne hword
      | exact apart_leafFile rfl rfl (hparts (by decide)) hword
  | _ => exact List.pairwise_singleton _ _

end plan

end Arcature.Cli.Make

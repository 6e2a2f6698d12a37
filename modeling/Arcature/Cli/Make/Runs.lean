import Arcature.Cli.Make.Feature

/-! Module trees over any run of generators.

    A call that succeeds keeps the module trees well formed if every name it is about to declare can be
    declared, and if no directory or file of that name is on the other side (`Call.Meets`). The plan says
    which names these are; the rest is asked of the tree before the call. Without it a name can be used
    twice, first for a file and then for a directory:

        make:model user           app/models/user.rs          declared in app/models/mod.rs
        make:model user/profile   app/models/user/mod.rs      the declaration now has two files -/

namespace Arcature.Cli.Make
open Lib Lib.Rust

/-! ### Deciding what a call asks for -/

theorem clearWay_iff {t : Tree} {d : Path} : ClearWay t d ↔
    ∀ p ∈ d.inits, p.dropLast ≠ [] → ¬ Present t (rootFile p) →
      p.getLast?.getD [] ∉ keywords ∧ ¬ Present t (leafFile p.dropLast (p.getLast?.getD [])) := by
  constructor
  · intro h p hp hdir hmissing
    have hne : p ≠ [] := by
      rintro rfl
      exact hdir rfl
    obtain ⟨last, hlast⟩ : ∃ last, p.getLast? = some last := ⟨_, List.getLast?_eq_some_getLast hne⟩
    obtain ⟨above, rfl⟩ := List.getLast?_eq_some_iff.mp hlast
    rw [List.dropLast_concat] at hdir ⊢
    rw [hlast, Option.getD_some]
    exact h above last hdir ((List.mem_inits _ _).mp hp) hmissing
  · intro h above name hdir hpre hmissing
    have hlevel := h (above ++ [name]) ((List.mem_inits _ _).mpr hpre)
    rw [List.dropLast_concat, List.getLast?_concat, Option.getD_some] at hlevel
    exact hlevel hdir hmissing

instance (t : Tree) (d : Path) : Decidable (ClearWay t d) := decidable_of_iff _ clearWay_iff.symm

instance (t : Tree) (d : Path) (stem : Str) : Decidable (Vacant t d stem) :=
  decidable_of_iff (stem ∉ keywords ∧ ¬ Present t (rootFile (d ++ [stem])) ∧ ClearWay t d)
    ⟨fun h => ⟨h.1, h.2.1, h.2.2⟩, fun h => ⟨h.word, h.alone, h.way⟩⟩

/-! ### Calls -/

/-- One call of `generate_all`, at a time in seconds since the epoch. -/
structure Call where
  kind : MakeKind
  rawName : Str
  now : ℕ

namespace Call

variable (render : Template → Rendered → Str)

def run (c : Call) : Disk (List Generated) := generateAll render c.kind c.rawName c.now

/-- What a call declares can be declared, and has no second file already. -/
def Meets (t : Tree) (c : Call) : Prop :=
  match ArtifactName.parse c.rawName with
  | .error _ => True
  | .ok name =>
    (∀ a ∈ planAll render c.kind name c.now, a.registerModule = true →
      Vacant t a.path.dropLast (stemOf (a.path.getLast?.getD []))) ∧
    (c.kind = .module → name.fileStem [] ∉ keywords ∧
      ¬ Present t (leafFile (modulesDir name) (name.fileStem [])) ∧ ClearWay t (modulesDir name))

instance (t : Tree) (c : Call) : Decidable (c.Meets render t) :=
  match h : ArtifactName.parse c.rawName with
  | .error _ => .isTrue (by rw [Meets, h]; trivial)
  | .ok name =>
    decidable_of_iff ((∀ a ∈ planAll render c.kind name c.now, a.registerModule = true →
        Vacant t a.path.dropLast (stemOf (a.path.getLast?.getD []))) ∧
      (c.kind = .module → name.fileStem [] ∉ keywords ∧
        ¬ Present t (leafFile (modulesDir name) (name.fileStem [])) ∧ ClearWay t (modulesDir name)))
      (by rw [Meets, h])

/-- The files that a call is to mount in the module trees: the registered ones, and the root of a module. -/
def mounted (c : Call) : List Path :=
  match ArtifactName.parse c.rawName with
  | .error _ => []
  | .ok name =>
    ((planAll render c.kind name c.now).filter Artifact.registerModule).map Artifact.path ++
      if c.kind = .module then [moduleFile name "mod.rs"] else []

end Call

/-- A run: one successful call after another, each of which finds what `ready` asks for. -/
inductive Run (render : Template → Rendered → Str) (ready : Tree → Call → Prop) : Tree → List Call → Tree → Prop where
  | done (t : Tree) : Run render ready t [] t
  | call {t t₁ t' : Tree} {c : Call} {cs : List Call} {gs : List Generated} (hready : ready t c)
      (hcall : c.run render t = (.ok gs, t₁)) (hrest : Run render ready t₁ cs t') : Run render ready t (c :: cs) t'

/-! ### One call -/

/-- A file that a chain of declarations can reach. -/
def Mounted (t : Tree) (p : Path) : Prop :=
  ∃ d, InScope tops d ∧ Present t p ∧ (p = rootFile d ∨ ∃ stem, p = leafFile d stem ∧ Declared t d stem)

theorem Mounted.grows {t t' : Tree} {p : Path} (h : Mounted t p) (hgrows : Grows t t') : Mounted t' p := by
  obtain ⟨d, hd, hp, hkind⟩ := h
  refine ⟨d, hd, hgrows.present hp, hkind.imp_right ?_⟩
  rintro ⟨stem, hpath, hdeclared⟩
  exact ⟨stem, hpath, hgrows.declared hdeclared⟩

theorem Mounted.reached {t : Tree} {p : Path} (h : Mounted t p) (hwf : WellFormed tops t) : Reached t p := by
  obtain ⟨d, hd, hp, rfl | ⟨stem, rfl, hdeclared⟩⟩ := h
  · exact reached_rootFile hwf hd hp
  · exact reached_leafFile hwf hd hdeclared hp

section Call

variable {render : Template → Rendered → Str} {t t' : Tree} {c : Call} {name : ArtifactName} {gs : List Generated}

/-- What a successful call did. -/
theorem run_ok (h : c.run render t = (.ok gs, t')) : ∃ name written t₁, ArtifactName.parse c.rawName = .ok name ∧
    (∀ a ∈ planAll render c.kind name c.now, isThere t a.path = false) ∧
    writeAll (planAll render c.kind name c.now) t = (.ok written, t₁) ∧
    ((c.kind ≠ .module ∧ t' = t₁) ∨
      (c.kind = .module ∧ ∃ primary rest g, written = primary :: rest ∧
        registerFeatureModule name primary t₁ = (.ok g, t'))) := by
  have hfiles : ∀ {α : Type} {f : Tree → Disk α} {a : α}, (Disk.files >>= f) t = (.ok a, t') →
      f t t = (.ok a, t') := fun h => h
  have hfail : ∀ {α : Type} {e : MakeError} {a : α}, (Disk.fail e : Disk α) t ≠ (.ok a, t') := by
    intro α e a h
    simp at h
  have h := hfiles h
  split_ifs at h
  · cases hparse : ArtifactName.parse c.rawName with
    | error error =>
      rw [hparse] at h
      exact absurd h hfail
    | ok name =>
      rw [hparse] at h
      have h := hfiles h
      cases hfind : (planAll render c.kind name c.now).find? fun a => isThere t a.path with
      | some a =>
        rw [hfind] at h
        exact absurd h hfail
      | none =>
        rw [hfind] at h
        obtain ⟨written, t₁, hwrite, hdone⟩ := Disk.bind_ok.mp h
        refine ⟨name, written, t₁, rfl, fun a ha => by simpa using List.find?_eq_none.mp hfind a ha, hwrite, ?_⟩
        by_cases hkind : c.kind = .module
        · refine .inr ⟨hkind, ?_⟩
          cases written with
          | nil =>
            rw [hkind] at hwrite
            obtain ⟨-, hlen⟩ := writeAll_unregistered (fun a ha => (mem_module ha).1) hwrite
            simp [module] at hlen
          | cons primary rest =>
            rw [if_pos hkind] at hdone
            obtain ⟨g, t₂, hregister, hlast⟩ := Disk.bind_ok.mp hdone
            obtain ⟨-, rfl⟩ := Prod.mk.inj hlast
            exact ⟨primary, rest, g, rfl, hregister⟩
        · refine .inl ⟨hkind, ?_⟩
          rw [if_neg hkind] at hdone
          exact (Prod.mk.inj hdone).2.symm
  · exact absurd h hfail

/-- What a call that is not about a module does to a well-formed tree. -/
theorem files_grown (hwf : WellFormed tops t) (hkind : c.kind ≠ .module)
    (hvacant : ∀ a ∈ planAll render c.kind name c.now, a.registerModule = true →
      Vacant t a.path.dropLast (stemOf (a.path.getLast?.getD [])))
    (hwrite : writeAll (planAll render c.kind name c.now) t = (.ok gs, t')) :
    WellFormed tops t' ∧ Grows t t' ∧
      ∀ a ∈ planAll render c.kind name c.now, a.registerModule = true → Mounted t' a.path := by
  have hasked : ∀ a ∈ planAll render c.kind name c.now, a.registerModule = true →
      ∀ d stem, a.path = leafFile d stem → Vacant t d stem := by
    intro a ha hreg d stem hpath
    obtain ⟨d', stem', hplaced⟩ := registered_placed ha hreg
    obtain ⟨rfl, rfl⟩ := leafFile_inj.mp (hpath.symm.trans hplaced.path)
    have hstem : stem ≠ [] := by
      rintro rfl
      exact absurd hplaced.snake (by decide)
    have hown := hvacant a ha hreg
    rwa [hpath, leafFile_getLast?, Option.getD_some, stemOf_rs hstem, leafFile, List.dropLast_concat] at hown
  obtain ⟨hwf', hgrows, hregistered⟩ := writeAll_grown (apart_planAll render c.kind name c.now)
    (fun a ha => registered_placed ha) (fun a ha hreg => (outside_planAll hkind ha hreg).1) hasked hwf hwrite
  refine ⟨hwf', hgrows, fun a ha hreg => ?_⟩
  obtain ⟨d, stem, hplaced, hdeclared, hpresent⟩ := hregistered a ha hreg
  rw [hplaced.path]
  exact ⟨d, hplaced.inScope, hpresent, .inr ⟨stem, rfl, hdeclared⟩⟩

/-- What a call that makes a module does. -/
theorem module_grown {g g' : Generated} {t₁ : Tree} (hwf : WellFormed tops t)
    (hfree : ∀ a ∈ module render name, isThere t a.path = false) (hword : name.fileStem [] ∉ keywords)
    (hbeside : ¬ Present t (leafFile (modulesDir name) (name.fileStem []))) (hway : ClearWay t (modulesDir name))
    (hwrite : writeAll (module render name) t = (.ok gs, t₁))
    (hregister : registerFeatureModule name g t₁ = (.ok g', t')) :
    WellFormed tops t' ∧ Grows t t' ∧ Mounted t' (moduleFile name "mod.rs") := by
  have hmake : Makeable t name := by
    refine ⟨⟨?_, fun file hfile hp => ?_⟩, hword, hbeside, hway⟩
    · exact not_present_of_isThere (hfree (moduleRoot name) List.mem_cons_self)
    · obtain ⟨a, ha, hpath⟩ : ∃ a ∈ module render name, a.path = leafFile (moduleDir name) file := exists_part hfile
      exact not_present_of_isThere (hfree a ha) (hpath ▸ hp)
  obtain ⟨rfl, -⟩ := writeAll_unregistered (fun a ha => (mem_module ha).1) hwrite
  rw [foldl_module] at hregister
  have hgrowsParts : Grows t (withModule render name t) := withModule_grows hmake
  obtain ⟨hwf', hgrows⟩ := registerFeatureModule_grown (withModule_registrable hwf hmake)
    (withModule_way hmake) (withModule_wellFormed hwf hmake) hregister
  refine ⟨hwf', hgrowsParts.trans hgrows, moduleDir name, (inScope_modulesDir name).append _, ?_, .inl rfl⟩
  exact hgrows.present (present_insert.mpr (.inl rfl))

/-- A call that meets the condition keeps the trees well formed, and mounts its files in them. -/
theorem call_grown (hwf : WellFormed tops t) (hmeets : c.Meets render t) (hrun : c.run render t = (.ok gs, t')) :
    WellFormed tops t' ∧ Grows t t' ∧ ∀ p ∈ c.mounted render, Mounted t' p := by
  obtain ⟨name, written, t₁, hparse, hfree, hwrite, hrest⟩ := run_ok hrun
  rw [Call.Meets, hparse] at hmeets
  obtain ⟨hvacant, hmodule⟩ := hmeets
  rw [Call.mounted, hparse]
  dsimp only
  rcases hrest with ⟨hkind, rfl⟩ | ⟨hkind, primary, rest, g, -, hregister⟩
  · obtain ⟨hwf', hgrows, hmounted⟩ := files_grown hwf hkind hvacant hwrite
    refine ⟨hwf', hgrows, fun p hp => ?_⟩
    rw [if_neg hkind, List.append_nil] at hp
    obtain ⟨a, ha, rfl⟩ := List.mem_map.mp hp
    obtain ⟨ha, hreg⟩ := List.mem_filter.mp ha
    exact hmounted a ha hreg
  · obtain ⟨hword, hbeside, hway⟩ := hmodule hkind
    rw [hkind] at hwrite hfree ⊢
    obtain ⟨hwf', hgrows, hmounted⟩ := module_grown hwf hfree hword hbeside hway hwrite hregister
    refine ⟨hwf', hgrows, fun p hp => ?_⟩
    rcases List.mem_append.mp hp with hp | hp
    · obtain ⟨a, ha, -⟩ := List.mem_map.mp hp
      obtain ⟨ha, hreg⟩ := List.mem_filter.mp ha
      exact absurd ((mem_module ha).1.symm.trans hreg) Bool.false_ne_true
    · rw [if_pos rfl] at hp
      exact List.mem_singleton.mp hp ▸ hmounted

end Call

/-! ### Runs -/

section Runs

variable {render : Template → Rendered → Str} {t t' : Tree} {cs : List Call}

/-- Along a run the trees stay well formed, and what was mounted stays mounted. -/
theorem run_grown (hrun : Run render (fun t c => c.Meets render t) t cs t') (hwf : WellFormed tops t) :
    WellFormed tops t' ∧ Grows t t' ∧ ∀ c ∈ cs, ∀ p ∈ c.mounted render, Mounted t' p := by
  induction hrun with
  | done t => exact ⟨hwf, Grows.refl t, fun c hc => absurd hc List.not_mem_nil⟩
  | call hmeets hcall _ ih =>
    obtain ⟨hwf₁, hgrows₁, hmounted⟩ := call_grown hwf hmeets hcall
    obtain ⟨hwf', hgrows', hothers⟩ := ih hwf₁
    refine ⟨hwf', hgrows₁.trans hgrows', List.forall_mem_cons.mpr ⟨fun p hp => ?_, hothers⟩⟩
    exact (hmounted p hp).grows hgrows'

/-- Generators whose calls all meet the condition keep the module trees well formed: every file they
    mounted is reached by exactly one chain of declarations. A call that refuses a target that exists
    changes no file. -/
theorem moduleTree_kept (hwf : WellFormed tops t) (hrun : Run render (fun t c => c.Meets render t) t cs t') :
    (WellFormed tops t' ∧ ∀ c ∈ cs, ∀ p ∈ c.mounted render, Reached t' p) ∧
      ∀ (c : Call) (s s' : Tree) (p : Path), c.run render s = (.error (.targetExists p), s') → s' = s := by
  obtain ⟨hwf', -, hmounted⟩ := run_grown hrun hwf
  refine ⟨⟨hwf', fun c hc p hp => (hmounted c hc p hp).reached hwf'⟩, fun c s s' p h => ?_⟩
  exact untouched_of_targetExists h

end Runs

/-! ### A project without modules -/

/-- Nothing but a manifest. -/
def manifestOnly : Tree := Map.empty.insert (below ["Cargo.toml"]) []

theorem manifestOnly_wellFormed : WellFormed tops manifestOnly := by
  have hnone : ∀ d, InScope tops d → manifestOnly.get? (rootFile d) = none := by
    intro d hd
    have hne : rootFile d ≠ below ["Cargo.toml"] := by
      intro heq
      have hlen := congrArg List.length heq
      have hpos := List.length_pos_of_ne_nil hd.ne_nil
      rw [rootFile, List.length_append] at hlen
      simp [below] at hlen
      exact hd.ne_nil hlen
    rw [manifestOnly, Map.get?_insert, if_neg hne, Map.get?_empty]
  refine ⟨fun d name hd hp _ => ?_, fun d text hd htext => ?_⟩
  · rw [Present, hnone _ (hd.append [name])] at hp
    exact Bool.noConfusion hp
  · rw [hnone d hd] at htext
    exact absurd htext (Option.some_ne_none text).symm

/-- Models with their text, and other files without any. -/
def modelTexts : Template → Rendered → Str
  | .model, r => modelText r
  | _, _ => []

/-- The project after some calls. -/
def after (cs : List Call) (t : Tree) : Tree := cs.foldl (fun t c => (c.run modelTexts t).2) t

/-- A run of calls that succeed, each of them evaluated where the one before it ended. -/
theorem run_of_evaluated {ready : Tree → Call → Prop} {t : Tree} {c : Call} {cs : List Call}
    (hready : ready t c) (hok : (c.run modelTexts t).1.toOption.isSome = true)
    (hrest : Run modelTexts ready (c.run modelTexts t).2 cs (after cs (c.run modelTexts t).2)) :
    Run modelTexts ready t (c :: cs) (after (c :: cs) t) := by
  cases hresult : (c.run modelTexts t).1 with
  | error e =>
    rw [hresult] at hok
    exact Bool.noConfusion hok
  | ok gs => exact .call hready (Prod.ext hresult rfl) hrest

/-- A controller in a directory of its own, then a module. -/
def adminThenBilling : List Call := [⟨.controller, "admin/user".toList, 0⟩, ⟨.module, "billing".toList, 0⟩]

theorem adminThenBilling_reached : WellFormed tops (after adminThenBilling manifestOnly) ∧
    ∀ c ∈ adminThenBilling, ∀ p ∈ c.mounted modelTexts, Reached (after adminThenBilling manifestOnly) p :=
  (moduleTree_kept manifestOnly_wellFormed
    (run_of_evaluated (by decide +kernel) (by decide +kernel)
      (run_of_evaluated (by decide +kernel) (by decide +kernel) (.done _)))).1

/-- A name that is used for a file and then for a directory. -/
def userThenProfile : List Call := [⟨.model, "user".toList, 0⟩, ⟨.model, "user/profile".toList, 0⟩]

theorem userThenProfile_twoFiles :
    ¬ ∀ (t t' : Tree) (cs : List Call), WellFormed tops t → Run modelTexts (fun _ _ => True) t cs t' →
      WellFormed tops t' ∧ ∀ c ∈ cs, ∀ p ∈ c.mounted modelTexts, Reached t' p := by
  intro h
  have hrun : Run modelTexts (fun _ _ => True) manifestOnly userThenProfile (after userThenProfile manifestOnly) :=
    run_of_evaluated trivial (by decide +kernel) (run_of_evaluated trivial (by decide +kernel) (.done _))
  obtain ⟨hwf, -⟩ := h _ _ _ manifestOnly_wellFormed hrun
  obtain ⟨text, htext, hm⟩ : Declared (after userThenProfile manifestOnly) (below ["app", "models"]) "user".toList :=
    hwf.placed (below ["app", "models"]) "user".toList (by decide) (by decide +kernel) (Set.notMem_empty _)
  rcases (hwf.sound _ text (by decide) htext).resolved _ hm with ⟨-, hroot⟩ | ⟨-, hleaf⟩
  · exact hroot (by decide +kernel)
  · exact hleaf (by decide +kernel)

end Arcature.Cli.Make

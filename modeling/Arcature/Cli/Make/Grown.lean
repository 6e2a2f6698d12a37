import Arcature.Cli.Make.Kept

/-! Registering a file in a well-formed tree.

    The file, or the module file of its own directory, is there and nothing declares it yet. From its
    directory upward the missing `mod.rs` files are created, each to be declared by the next one, until
    one is there; then the declarations are put in on the way back:

        app/controllers/mod.rs           there, sound                 declares admin
        app/controllers/admin/mod.rs     missing, new and empty       declares user_controller

    A level that has no `mod.rs` must have a name that can be declared, and no file of that name beside
    it (`ClearWay`). -/

namespace Arcature.Cli.Make
open Lib Lib.Rust

/-! ### What a registration finds -/

/-- The levels of a directory that lack a module file can be declared. -/
def ClearWay (t : Tree) (d : Path) : Prop :=
  ∀ above name, above ≠ [] → above ++ [name] <+: d → ¬ Present t (rootFile (above ++ [name])) →
    name ∉ keywords ∧ ¬ Present t (leafFile above name)

/-- A file, or a directory with a module file, that can be registered. -/
structure Registrable (t : Tree) (d : Path) (stem : Str) : Prop where
  inScope : InScope tops d
  dirs : ∀ s ∈ d, isSnake s = true
  snake : isSnake stem = true
  word : stem ∉ keywords
  one : Xor (Present t (leafFile d stem)) (Present t (rootFile (d ++ [stem])))
  undeclared : Undeclared t d stem

theorem isIdent_of_isSnake {s : Str} (h : isSnake s = true) : isIdent s = true := by
  obtain ⟨⟨c, hc, hlower⟩, hall⟩ := isSnake_iff.mp h
  obtain ⟨rest, rfl⟩ : ∃ rest, s = c :: rest := ⟨_, (List.cons_head?_tail hc).symm⟩
  simp only [isIdent, Ascii.isAlpha_of_isLower hlower, Bool.true_or, Bool.true_and, List.all_eq_true]
  intro d hd
  have hd := hall d (List.mem_cons_of_mem c hd)
  simp only [isSnakeChar, Bool.or_eq_true] at hd
  rcases hd with (hd | hd) | hd
  · simp [isIdentChar, Ascii.isAlphanum_of_isLower hd]
  · simp [isIdentChar, Ascii.isAlphanum_of_isDigit hd]
  · simp [isIdentChar, hd]

theorem Registrable.isModuleName {t : Tree} {d : Path} {stem : Str} (h : Registrable t d stem) : IsModuleName stem :=
  ⟨isIdent_of_isSnake h.snake, h.word⟩

theorem Registrable.chars {t : Tree} {d : Path} {stem : Str} (h : Registrable t d stem) :
    ∀ c ∈ stem, isIdentChar c = true := isIdentChar_of_isIdent h.isModuleName.1

/-! ### The declaration -/

section Register

variable {except : Set Path} {t t' : Tree} {d : Path} {stem : Str} {g g' : Generated}

/-- Declaring what can be registered, in a module file that is there. -/
theorem declareIn_grown (h : Registrable t d stem) (hwf : WellFormedBut tops (insert (d ++ [stem]) except) t)
    (hrun : declareIn (rootFile d) stem g t = (.ok g', t')) :
    WellFormedBut tops except t' ∧ Declared t' d stem ∧ Grows t t' := by
  obtain ⟨text, t₁, hread, hdeclare⟩ := Disk.bind_ok.mp hrun
  obtain ⟨htext, rfl⟩ := readFile_ok hread
  have hnot : declares text stem = false := by
    by_contra hdeclared
    obtain ⟨m, hm, hname⟩ := exists_of_declares h.chars (Bool.eq_true_of_not_eq_false hdeclared)
    exact h.undeclared text htext m hm hname
  rw [if_neg (by simp [hnot])] at hdeclare
  obtain ⟨u, t₂, hwrite, hdone⟩ := Disk.bind_ok.mp hdeclare
  obtain rfl := writeFile_ok hwrite
  obtain rfl : _ = t' := (Prod.mk.inj hdone).2
  obtain ⟨l₁, l₂, hbefore, hafter⟩ := decls_withDeclaration text h.chars
  have hkeep : ∀ m ∈ decls text, m ∈ decls (withDeclaration text stem) := by
    rw [hbefore, hafter]
    intro m hm
    rcases List.mem_append.mp hm with hm | hm
    · exact List.mem_append_left _ hm
    · exact List.mem_append_right _ (List.mem_cons_of_mem _ hm)
  have hmem : (⟨true, stem⟩ : Decl) ∈ decls (withDeclaration text stem) := by
    rw [hafter]
    exact List.mem_append_right _ List.mem_cons_self
  have hsound : Sound t₁ d (withDeclaration text stem) :=
    (hwf.sound d text h.inScope htext).declare hbefore hafter (inlines_withDeclaration text h.chars)
      (h.undeclared text htext) h.isModuleName h.one
  have hdeclared : Declared (t₁.insert (rootFile d) (withDeclaration text stem)) d stem :=
    ⟨withDeclaration text stem, by rw [Map.get?_insert, if_pos rfl], hmem⟩
  have hgrows : Grows t₁ (t₁.insert (rootFile d) (withDeclaration text stem)) := by
    refine grows_insert fun own hown => ?_
    rwa [Option.some.inj (hown.symm.trans htext)]
  refine ⟨hwf.edit_root htext hkeep hsound fun e name hin => ?_, hdeclared, hgrows⟩
  rcases Set.mem_insert_iff.mp hin with heq | hin
  · obtain ⟨hdir, hname⟩ := List.append_inj' heq rfl
    rw [List.singleton_inj.mp hname]
    exact .inr ⟨hdir, hmem⟩
  · exact .inl hin

/-! ### A new module file -/

theorem newline_of_isSnake {s : Str} (h : isSnake s = true) : '\n' ∉ s := fun hmem =>
  absurd (isSnakeChar_of_isSnake h _ hmem) (by decide)

/-- A new module file is then to be declared one level up. -/
theorem insert_header (hwf : WellFormedBut tops except t) (hscope : InScope tops d) (hway : ClearWay t d)
    (hnone : ¬ Present t (rootFile d)) {directory : Str} (hline : '\n' ∉ directory) :
    WellFormedBut tops (insert d except) (t.insert (rootFile d) (newModuleHeader directory)) := by
  obtain ⟨hdecls, hinlines⟩ := decls_newModuleHeader hline
  refine hwf.insert_root hnone (fun above name habove hd => ?_) (.of_decls_eq_nil hdecls hinlines)
  subst hd
  exact hwf.undeclared habove (hway above name habove.ne_nil (List.prefix_refl _) hnone).2 hnone

/-- What is to be registered beside a new module file still is. -/
theorem Registrable.insert_header (h : Registrable t d stem) {directory : Str} (hline : '\n' ∉ directory) :
    Registrable (t.insert (rootFile d) (newModuleHeader directory)) d stem := by
  refine { h with one := ?_, undeclared := fun text htext m hm => ?_ }
  · have hleaf : leafFile d stem ≠ rootFile d := fun heq =>
      isModuleName_ne_mod h.isModuleName (leafFile_eq_rootFile.mp heq).2
    have hroot : rootFile (d ++ [stem]) ≠ rootFile d := fun heq =>
      List.cons_ne_nil _ _ (List.self_eq_append_right.mp (rootFile_inj.mp heq).symm)
    rw [present_insert, present_insert, or_iff_right hleaf, or_iff_right hroot]
    exact h.one
  · rw [Map.get?_insert, if_pos rfl] at htext
    rw [← Option.some.inj htext, (decls_newModuleHeader hline).1] at hm
    exact absurd hm List.not_mem_nil

/-- The directory of a new module file can be registered, -/
theorem registrable_directory {above : Path} {name : Str} (hwf : WellFormedBut tops except t)
    (hscope : InScope tops above) (hsnake : ∀ s ∈ above ++ [name], isSnake s = true)
    (hway : ClearWay t (above ++ [name])) (hnone : ¬ Present t (rootFile (above ++ [name]))) (text : Str) :
    Registrable (t.insert (rootFile (above ++ [name])) text) above name := by
  obtain ⟨hword, hleaf⟩ := hway above name hscope.ne_nil (List.prefix_refl _) hnone
  have hsnakeName := hsnake name (List.mem_append_right _ List.mem_cons_self)
  refine ⟨hscope, fun s hs => hsnake s (List.mem_append_left _ hs), hsnakeName, hword, ?_, fun own hown => ?_⟩
  · refine .inr ⟨present_insert.mpr (.inl rfl), fun hp => ?_⟩
    rcases present_insert.mp hp with heq | hp
    · have hlen := congrArg List.length (leafFile_eq_rootFile.mp heq).1
      simp at hlen
    · exact hleaf hp
  · have hother : rootFile above ≠ rootFile (above ++ [name]) := fun heq =>
      List.cons_ne_nil _ _ (List.self_eq_append_right.mp (rootFile_inj.mp heq))
    rw [Map.get?_insert, if_neg hother] at hown
    exact hwf.undeclared hscope hleaf hnone own hown

/-- and the way up from it is as clear as before. -/
theorem ClearWay.insert_root {above : Path} {name : Str} (h : ClearWay t (above ++ [name])) (text : Str) :
    ClearWay (t.insert (rootFile (above ++ [name])) text) above := by
  intro e n he hpre hmissing
  have hmissing : ¬ Present t (rootFile (e ++ [n])) := fun hp => hmissing (present_insert.mpr (.inr hp))
  obtain ⟨hword, hleaf⟩ := h e n he (hpre.trans (List.prefix_append _ _)) hmissing
  refine ⟨hword, fun hp => ?_⟩
  rcases present_insert.mp hp with heq | hp
  · obtain ⟨-, rfl⟩ := leafFile_eq_rootFile.mp heq
    exact hword (by decide)
  · exact hleaf hp

/-- A registration that other steps came before, none of which touched its files. -/
theorem Registrable.congr (h : Registrable t d stem)
    (hleaf : t'.get? (leafFile d stem) = t.get? (leafFile d stem))
    (hroot : t'.get? (rootFile (d ++ [stem])) = t.get? (rootFile (d ++ [stem])))
    (hown : t'.get? (rootFile d) = t.get? (rootFile d)) : Registrable t' d stem := by
  refine { h with one := ?_, undeclared := ?_ }
  · rw [Present, Present, hleaf, hroot]
    exact h.one
  · intro text htext
    exact h.undeclared text (hown ▸ htext)

/-! ### All the way up -/

/-- `register` in a directory, from what it does one level up. -/
theorem registerIn_grown {up : Str → Generated → Disk Generated} (h : Registrable t d stem) (hway : ClearWay t d)
    (hwf : WellFormedBut tops (insert (d ++ [stem]) except) t)
    (hup : ∀ {E : Set Path} {directory : Str} {g₁ g₂ : Generated} {t₂ : Tree}, ¬ Present t (rootFile d) →
      d.getLast? = some directory → WellFormedBut tops E t →
      WellFormedBut tops (insert d E) (t.insert (rootFile d) (newModuleHeader directory)) →
      up directory g₁ (t.insert (rootFile d) (newModuleHeader directory)) = (.ok g₂, t₂) →
      WellFormedBut tops E t₂ ∧ Grows (t.insert (rootFile d) (newModuleHeader directory)) t₂ ∧
        ∀ p, p ∉ rootsAbove d.dropLast → t₂.get? p = (t.insert (rootFile d) (newModuleHeader directory)).get? p)
    (hrun : registerIn d stem up g t = (.ok g', t')) :
    WellFormedBut tops except t' ∧ Declared t' d stem ∧ Grows t t' := by
  obtain ⟨g₁, t₂, hcreate, hdeclare⟩ := Disk.bind_ok.mp hrun
  have hcreate : (if isThere t (rootFile d) then pure g else do
      writeFile (rootFile d) (newModuleHeader (d.getLast?.getD []))
      up (d.getLast?.getD []) { g with touchedModules := g.touchedModules ++ [rootFile d] } : Disk Generated) t =
        (.ok g₁, t₂) := hcreate
  split_ifs at hcreate with hthere
  · obtain rfl : t = t₂ := (Prod.mk.inj hcreate).2
    exact declareIn_grown h hwf hdeclare
  · have hnone := not_present_of_isThere (Bool.eq_false_of_not_eq_true hthere)
    obtain ⟨directory, hlast⟩ : ∃ directory, d.getLast? = some directory :=
      ⟨_, List.getLast?_eq_some_getLast h.inScope.ne_nil⟩
    have hline : '\n' ∉ directory := newline_of_isSnake (h.dirs directory (List.mem_of_mem_getLast? hlast))
    rw [hlast, Option.getD_some] at hcreate
    obtain ⟨u, t₁, hwrite, hgoup⟩ := Disk.bind_ok.mp hcreate
    obtain rfl := writeFile_ok hwrite
    obtain ⟨hwf₂, hgrows₂, hframe⟩ := hup hnone hlast hwf (insert_header hwf h.inScope hway hnone hline) hgoup
    -- nothing that the stem needs lies further up
    have hreg₁ := h.insert_header hline
    have hreg₂ : Registrable t₂ d stem := by
      have hdrop : d.dropLast.length < d.length := by
        have hpos := List.length_pos_of_ne_nil h.inScope.ne_nil
        rw [List.length_dropLast]
        omega
      refine hreg₁.congr (hframe _ ?_) (hframe _ ?_) (hframe _ ?_)
      · rintro ⟨e, -, heq⟩
        exact isModuleName_ne_mod h.isModuleName (leafFile_eq_rootFile.mp heq).2
      · rintro ⟨e, he, heq⟩
        have hlen := he.length_le
        rw [← rootFile_inj.mp heq, List.length_append] at hlen
        omega
      · rintro ⟨e, he, heq⟩
        have hlen := he.length_le
        rw [← rootFile_inj.mp heq] at hlen
        omega
    obtain ⟨hwf', hdeclared, hgrows'⟩ := declareIn_grown hreg₂ hwf₂ hdeclare
    exact ⟨hwf', hdeclared, (grows_insert_new hnone).trans (hgrows₂.trans hgrows')⟩

theorem registerRev_grown {rev : List Str} (h : Registrable t rev.reverse stem) (hway : ClearWay t rev.reverse)
    (hwf : WellFormedBut tops (insert (rev.reverse ++ [stem]) except) t)
    (hrun : registerRev rev stem g t = (.ok g', t')) :
    WellFormedBut tops except t' ∧ Declared t' rev.reverse stem ∧ Grows t t' := by
  induction rev generalizing stem g g' t t' except with
  | nil => exact absurd rfl h.inScope.ne_nil
  | cons name above ih =>
    cases above with
    | nil =>
      -- a top directory: there is nowhere to declare it
      refine registerIn_grown h hway hwf (fun _ _ _ hwf₁ hgoup => ?_) hrun
      obtain ⟨-, rfl⟩ := Prod.mk.inj hgoup
      exact ⟨hwf₁.of_top, Grows.refl _, fun _ _ => rfl⟩
    | cons parent above =>
      have hdir : (name :: parent :: above).reverse = (parent :: above).reverse ++ [name] := List.reverse_cons
      refine registerIn_grown h hway hwf (fun {E directory g₁ g₂ t₂} hnone hlast hwf₀ hwf₁ hgoup => ?_) hrun
      have hscope := h.inScope
      have hdirs := h.dirs
      rw [hdir] at hnone hlast hwf₁ hgoup hway hscope hdirs ⊢
      obtain rfl : name = directory := Option.some.inj (List.getLast?_concat.symm.trans hlast)
      have habove : InScope tops (parent :: above).reverse :=
        hscope.of_concat.resolve_right fun hnil => by simp at hnil
      have hreg := registrable_directory hwf₀ habove hdirs hway hnone (newModuleHeader name)
      obtain ⟨hwf₂, -, hgrows⟩ := ih hreg (hway.insert_root _) hwf₁ hgoup
      refine ⟨hwf₂, hgrows, fun p hp => ?_⟩
      rw [List.dropLast_concat] at hp
      have hframe := touches_registerRev (parent :: above) name g₁
        (t.insert (rootFile ((parent :: above).reverse ++ [name])) (newModuleHeader name)) p hp
      rwa [hgoup] at hframe

/-- Registering adds one declaration in the directory, and what it takes to reach it from the top. -/
theorem register_grown (h : Registrable t d stem) (hway : ClearWay t d)
    (hwf : WellFormedBut tops (insert (d ++ [stem]) except) t) (hrun : register d stem g t = (.ok g', t')) :
    WellFormedBut tops except t' ∧ Declared t' d stem ∧ Grows t t' := by
  have hrev : d.reverse.reverse = d := List.reverse_reverse d
  rw [← hrev] at h hway hwf ⊢
  exact registerRev_grown h hway hwf hrun

end Register

end Arcature.Cli.Make

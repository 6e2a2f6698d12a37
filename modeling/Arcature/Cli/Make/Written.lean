import Arcature.Cli.Make.Grown

/-! The files of one plan, written one after another into a well-formed tree.

    A file can be written and registered if its name can be declared, no directory of its name is a
    module, and the way up is clear (`Vacant`). The files that are written before it leave that so: they
    lie beside it, or in the other tree. -/

namespace Arcature.Cli.Make
open Lib Lib.Rust

/-! ### One file -/

/-- What a registered file asks of the tree. -/
structure Vacant (t : Tree) (d : Path) (stem : Str) : Prop where
  word : stem ∉ keywords
  alone : ¬ Present t (rootFile (d ++ [stem]))
  way : ClearWay t d

theorem ne_mod_of_notMem {stem : Str} (h : stem ∉ keywords) : stem ≠ "mod".toList := by
  rintro rfl
  exact h (by decide)

section Write

variable {t t' : Tree} {a b : Artifact} {d : Path} {stem : Str} {g : Generated}

/-- The way up from a file is as clear with the file. -/
theorem ClearWay.insert_leaf (h : ClearWay t d) (stem text : Str) :
    ClearWay (t.insert (leafFile d stem) text) d := by
  intro e n he hpre hmissing
  have hmissing : ¬ Present t (rootFile (e ++ [n])) := fun hp => hmissing (present_insert.mpr (.inr hp))
  obtain ⟨hword, hleaf⟩ := h e n he hpre hmissing
  refine ⟨hword, fun hp => ?_⟩
  rcases present_insert.mp hp with heq | hp
  · obtain ⟨rfl, -⟩ := leafFile_inj.mp heq
    have hlen := hpre.length_le
    simp at hlen
  · exact hleaf hp

/-- Writing a registered file keeps the tree well formed, and the file is declared. -/
theorem write_registered (hplaced : Placed a d stem) (hreg : a.registerModule = true) (hvacant : Vacant t d stem)
    (hwf : WellFormed tops t) (hrun : write a t = (.ok g, t')) :
    WellFormed tops t' ∧ Grows t t' ∧ Declared t' d stem ∧ Present t' (leafFile d stem) := by
  obtain ⟨hthere, hregister⟩ := write_ok hrun
  rw [if_pos hreg, hplaced.path] at hregister
  obtain ⟨g₀, hregister⟩ := hregister
  have hstem : stem ≠ [] := by
    rintro rfl
    exact absurd hplaced.snake (by decide)
  rw [leafFile_getLast?, Option.getD_some, stemOf_rs hstem, leafFile, List.dropLast_concat, ← leafFile] at hregister
  have hfree : ¬ Present t (leafFile d stem) := hplaced.path ▸ not_present_of_isThere hthere
  have hmod := ne_mod_of_notMem hvacant.word
  have hundeclared := hwf.undeclared hplaced.inScope hfree hvacant.alone
  have hwf₁ : WellFormed tops (t.insert (leafFile d stem) a.contents) := by
    refine hwf.insert_leaf (fun e _ heq => hmod (leafFile_eq_rootFile.mp heq.symm).2) fun e name _ heq => ?_
    obtain ⟨rfl, rfl⟩ := leafFile_inj.mp heq
    exact hundeclared
  have hregistrable : Registrable (t.insert (leafFile d stem) a.contents) d stem := by
    refine ⟨hplaced.inScope, hplaced.dirs, hplaced.snake, hvacant.word, .inl ⟨?_, ?_⟩, fun own hown => ?_⟩
    · exact present_insert.mpr (.inl rfl)
    · exact fun hp => (present_insert.mp hp).elim (fun heq => hmod (leafFile_eq_rootFile.mp heq.symm).2) hvacant.alone
    · rw [Map.get?_insert, if_neg fun heq => hmod (leafFile_eq_rootFile.mp heq.symm).2] at hown
      exact hundeclared own hown
  obtain ⟨hwf', hdeclared, hgrows⟩ := register_grown hregistrable (hvacant.way.insert_leaf stem _)
    (hwf₁.mono (Set.empty_subset _)) hregister
  exact ⟨hwf', (grows_insert_new hfree).trans hgrows, hdeclared, hgrows.present (present_insert.mpr (.inl rfl))⟩

/-- A file outside the trees does nothing to them. -/
theorem write_outside (hout : ∀ top ∈ tops, a.path.head? ≠ some top) (hreg : a.registerModule = false)
    (hwf : WellFormed tops t) (hrun : write a t = (.ok g, t')) : WellFormed tops t' ∧ Grows t t' := by
  obtain ⟨hthere, hwrite⟩ := write_ok hrun
  rw [if_neg (by simp [hreg])] at hwrite
  subst hwrite
  have hhead : ∀ {e : Path} {file : Str}, InScope tops e → e ++ [file] ≠ a.path := by
    rintro e file ⟨top, htop, rest, rfl⟩ heq
    exact hout top htop (heq ▸ rfl)
  refine ⟨hwf.insert_leaf (fun e he => hhead he) fun e name he heq => absurd heq (hhead he), ?_⟩
  exact grows_insert_new (not_present_of_isThere hthere)

/-! ### One file after another -/

/-- Files that others were written before find what they found in the beginning. -/
theorem Vacant.of_grows {paths : Set Path} (h : Vacant t d stem) (hgrows : Grows t t')
    (hsame : ∀ p, p ∉ paths → t'.get? p = t.get? p) (hroot : rootFile (d ++ [stem]) ∉ paths)
    (hleaf : ∀ e n, e ≠ [] → e ++ [n] <+: d → n ≠ "mod".toList → leafFile e n ∉ paths) : Vacant t' d stem := by
  refine ⟨h.word, ?_, fun e n he hpre hmissing => ?_⟩
  · rw [Present, hsame _ hroot]
    exact h.alone
  · obtain ⟨hword, hfree⟩ := h.way e n he hpre fun hp => hmissing (hgrows.present hp)
    refine ⟨hword, ?_⟩
    rw [Present, hsame _ (hleaf e n he hpre (ne_mod_of_notMem hword))]
    exact hfree

/-- A path starts as what is on the way to it does. -/
theorem head?_of_prefix {p q : Path} (hp : p ≠ []) (h : p <+: q) : p.head? = q.head? := by
  obtain ⟨rest, rfl⟩ := h
  rw [List.head?_append_of_ne_nil _ hp]

/-- What is written for an artifact starts as its path does, unless it is at the very top. -/
theorem head?_of_writtenBy {p : Path} (h : p ∈ writtenBy a) (hlen : 1 < p.length) : p.head? = a.path.head? := by
  rcases h with rfl | ⟨-, e, he, rfl⟩
  · rfl
  · have hne : e ≠ [] := by
      rintro rfl
      exact absurd hlen (lt_irrefl 1)
    rw [rootFile, List.head?_append_of_ne_nil _ hne]
    exact head?_of_prefix hne (he.trans (List.dropLast_prefix _))

/-- An artifact leaves alone what one that is apart from it and comes after it asks for. -/
theorem Vacant.write (h : Vacant t d stem) (hb : Placed b d stem) (hapart : Apart a b) (hgrows : Grows t t')
    (hrun : Make.write a t = (.ok g, t')) : Vacant t' d stem := by
  have hsame : ∀ p, p ∉ writtenBy a → t'.get? p = t.get? p := by
    intro p hp
    have htouch := touches_write a t p hp
    rwa [hrun] at htouch
  have hne := hb.inScope.ne_nil
  have hpos : 0 < d.length := List.length_pos_of_ne_nil hne
  have hhead : d.head? = b.path.head? := by
    rw [hb.path, leafFile, List.head?_append_of_ne_nil _ hne]
  refine h.of_grows hgrows hsame (fun hin => ?_) fun e n he hpre hmod hin => ?_
  · rcases hapart.dirs with hdir | hother
    · -- beside it: what is written lies no deeper
      rw [hb.path, leafFile, List.dropLast_concat] at hdir
      rcases hin with heq | ⟨-, f, hf, heq⟩
      · rw [← heq, rootFile, List.dropLast_concat] at hdir
        exact List.cons_ne_nil _ _ (List.self_eq_append_right.mp hdir.symm)
      · have hlen := hf.length_le
        rw [hdir, ← rootFile_inj.mp heq, List.length_append] at hlen
        exact absurd hlen (by simp)
    · refine hother ((head?_of_writtenBy hin (by simp [rootFile])).symm.trans ?_)
      rw [rootFile, List.append_assoc, List.head?_append_of_ne_nil _ hne, hhead]
  · rcases hapart.dirs with hdir | hother
    · rw [hb.path, leafFile, List.dropLast_concat] at hdir
      rcases hin with heq | ⟨-, f, hf, heq⟩
      · rw [← heq, leafFile, List.dropLast_concat] at hdir
        have hlen := hpre.length_le
        rw [hdir] at hlen
        exact absurd hlen (by simp)
      · exact hmod (leafFile_eq_rootFile.mp heq).2
    · have hlong : 1 < (leafFile e n).length := by
        have := List.length_pos_of_ne_nil he
        rw [leafFile, List.length_append, List.length_singleton]
        omega
      refine hother ((head?_of_writtenBy hin hlong).symm.trans ?_)
      rw [leafFile, List.head?_append_of_ne_nil _ he, head?_of_prefix he ((List.prefix_append e [n]).trans hpre), hhead]

/-- The registered files of a plan are declared when all of it is written. -/
theorem writeAll_grown {artifacts : List Artifact} {gs : List Generated} (hapart : artifacts.Pairwise Apart)
    (hplaced : ∀ a ∈ artifacts, a.registerModule = true → ∃ d stem, Placed a d stem)
    (hout : ∀ a ∈ artifacts, a.registerModule = false → ∀ top ∈ tops, a.path.head? ≠ some top)
    (hvacant : ∀ a ∈ artifacts, a.registerModule = true → ∀ d stem, a.path = leafFile d stem → Vacant t d stem)
    (hwf : WellFormed tops t) (hrun : writeAll artifacts t = (.ok gs, t')) :
    WellFormed tops t' ∧ Grows t t' ∧ ∀ a ∈ artifacts, a.registerModule = true →
      ∃ d stem, Placed a d stem ∧ Declared t' d stem ∧ Present t' (leafFile d stem) := by
  induction artifacts generalizing t gs with
  | nil =>
    obtain ⟨-, rfl⟩ := Prod.mk.inj hrun
    exact ⟨hwf, Grows.refl _, by simp⟩
  | cons a artifacts ih =>
    rw [List.pairwise_cons] at hapart
    rw [List.forall_mem_cons] at hplaced hout hvacant
    obtain ⟨g, t₁, hwrite, hrest⟩ := Disk.bind_ok.mp hrun
    obtain ⟨gs', t₂, hall, hdone⟩ := Disk.bind_ok.mp hrest
    obtain ⟨-, rfl⟩ := Prod.mk.inj hdone
    have hfirst : WellFormed tops t₁ ∧ Grows t t₁ ∧ (a.registerModule = true →
        ∃ d stem, Placed a d stem ∧ Declared t₁ d stem ∧ Present t₁ (leafFile d stem)) := by
      cases hreg : a.registerModule with
      | false =>
        obtain ⟨hwf₁, hgrows⟩ := write_outside (hout.1 hreg) hreg hwf hwrite
        exact ⟨hwf₁, hgrows, fun h => Bool.noConfusion h⟩
      | true =>
        obtain ⟨d, stem, hp⟩ := hplaced.1 hreg
        obtain ⟨hwf₁, hgrows, hdeclared, hpresent⟩ :=
          write_registered hp hreg (hvacant.1 hreg d stem hp.path) hwf hwrite
        exact ⟨hwf₁, hgrows, fun _ => ⟨d, stem, hp, hdeclared, hpresent⟩⟩
    obtain ⟨hwf₁, hgrows₁, hregistered⟩ := hfirst
    have hvacant₁ : ∀ b ∈ artifacts, b.registerModule = true → ∀ d stem, b.path = leafFile d stem → Vacant t₁ d stem := by
      intro b hb hreg d stem hpath
      obtain ⟨d', stem', hp⟩ := hplaced.2 b hb hreg
      obtain ⟨rfl, rfl⟩ := leafFile_inj.mp (hpath.symm.trans hp.path)
      exact (hvacant.2 b hb hreg d stem hpath).write hp (hapart.1 b hb) hgrows₁ hwrite
    obtain ⟨hwf', hgrows', hothers⟩ := ih hapart.2 hplaced.2 hout.2 hvacant₁ hwf₁ hall
    refine ⟨hwf', hgrows₁.trans hgrows', List.forall_mem_cons.mpr ⟨fun hreg => ?_, hothers⟩⟩
    obtain ⟨d, stem, hp, hdeclared, hpresent⟩ := hregistered hreg
    exact ⟨d, stem, hp, hgrows'.declared hdeclared, hgrows'.present hpresent⟩

end Write

end Arcature.Cli.Make

import Arcature.Lib.ModuleTree

/-! Edits that keep a module tree well formed.

    An edit writes one file: a file of its own under a name nobody declared, a new module file, which
    is then still to be declared above, or a module file with its declarations kept and one added.
    `Grows` is what all of them have in common: no file goes away, and no declaration does. -/

namespace Arcature.Lib.Rust

theorem present_insert {t : Tree} {p q : Path} {text : Str} :
    Present (t.insert p text) q ↔ q = p ∨ Present t q := by
  rw [Present, Present, Map.get?_insert]
  by_cases h : q = p <;> simp [h]

/-! ### Growing -/

/-- Every file is still there, with every declaration it had. -/
def Grows (t t' : Tree) : Prop :=
  ∀ p text, t.get? p = some text → ∃ text', t'.get? p = some text' ∧ ∀ m ∈ decls text, m ∈ decls text'

theorem Grows.refl (t : Tree) : Grows t t := fun _ text h => ⟨text, h, fun _ hm => hm⟩

theorem Grows.trans {t₁ t₂ t₃ : Tree} (h : Grows t₁ t₂) (h' : Grows t₂ t₃) : Grows t₁ t₃ := by
  intro p text htext
  obtain ⟨text₂, h₂, hkeep₂⟩ := h p text htext
  obtain ⟨text₃, h₃, hkeep₃⟩ := h' p text₂ h₂
  exact ⟨text₃, h₃, fun m hm => hkeep₃ m (hkeep₂ m hm)⟩

theorem Grows.present {t t' : Tree} (h : Grows t t') {p : Path} (hp : Present t p) : Present t' p := by
  obtain ⟨text, htext⟩ := Option.isSome_iff_exists.mp hp
  obtain ⟨text', htext', -⟩ := h p text htext
  exact present_of_get? htext'

theorem Grows.declared {t t' : Tree} (h : Grows t t') {d : Path} {name : Str} (hd : Declared t d name) :
    Declared t' d name := by
  obtain ⟨text, htext, hm⟩ := hd
  obtain ⟨text', htext', hkeep⟩ := h _ text htext
  exact ⟨text', htext', hkeep _ hm⟩

theorem grows_insert {t : Tree} {p : Path} {text' : Str}
    (h : ∀ text, t.get? p = some text → ∀ m ∈ decls text, m ∈ decls text') : Grows t (t.insert p text') := by
  intro q text htext
  by_cases hq : q = p
  · subst hq
    exact ⟨text', by simp, h text htext⟩
  · exact ⟨text, by simp [hq, htext], fun _ hm => hm⟩

/-- A new file takes nothing away. -/
theorem grows_insert_new {t : Tree} {p : Path} {text : Str} (h : ¬ Present t p) : Grows t (t.insert p text) :=
  grows_insert fun _ htext => absurd (present_of_get? htext) h

/-! ### The edits -/

section Edits

variable {tops : List Str} {except : Set Path} {t : Tree}

/-- What is sound stays so while the files of the declared names do. -/
theorem Sound.congr {t' : Tree} {d : Path} {text : Str} (h : Sound t d text)
    (hleaf : ∀ m ∈ decls text, Present t' (leafFile d m.name) ↔ Present t (leafFile d m.name))
    (hroot : ∀ m ∈ decls text,
      Present t' (rootFile (d ++ [m.name])) ↔ Present t (rootFile (d ++ [m.name]))) : Sound t' d text where
  nodup := h.nodup
  resolved := fun m hm => by
    rw [hleaf m hm, hroot m hm]
    exact h.resolved m hm
  named := h.named
  bodiless := h.bodiless

/-- A text with one more declaration, of a name that is new, legal and has exactly one file. -/
theorem Sound.declare {d : Path} {text text' : Str} {name : Str} (h : Sound t d text) {l₁ l₂ : List Decl}
    (hbefore : decls text = l₁ ++ l₂) (hafter : decls text' = l₁ ++ ⟨true, name⟩ :: l₂)
    (hinlines : inlines text' = inlines text) (hnew : ∀ m ∈ decls text, m.name ≠ name)
    (hname : IsModuleName name)
    (hone : Xor (Present t (leafFile d name)) (Present t (rootFile (d ++ [name])))) : Sound t d text' := by
  have hmem : ∀ m, m ∈ decls text' ↔ m = ⟨true, name⟩ ∨ m ∈ decls text := by
    intro m
    rw [hafter, hbefore]
    simp only [List.mem_append, List.mem_cons]
    tauto
  refine ⟨?_, fun m hm => ?_, fun m hm => ?_, hinlines.trans h.bodiless⟩
  · have hperm : ((decls text').map Decl.name).Perm (name :: (decls text).map Decl.name) := by
      rw [hafter, hbefore]
      exact List.perm_middle.map Decl.name
    rw [hperm.nodup_iff, List.nodup_cons]
    refine ⟨fun hin => ?_, h.nodup⟩
    obtain ⟨m, hm, hmname⟩ := List.mem_map.mp hin
    exact hnew m hm hmname
  · rcases (hmem m).mp hm with rfl | hm
    · exact hone
    · exact h.resolved m hm
  · rcases (hmem m).mp hm with rfl | hm
    · exact hname
    · exact h.named m hm

/-- Writing a file that is no module file in scope, and that no declared name waits for. -/
theorem WellFormedBut.insert_leaf (h : WellFormedBut tops except t) {p : Path} {text : Str}
    (hroot : ∀ d, InScope tops d → rootFile d ≠ p)
    (hfree : ∀ d name, InScope tops d → leafFile d name = p → Undeclared t d name) :
    WellFormedBut tops except (t.insert p text) := by
  have hget : ∀ d, InScope tops d → (t.insert p text).get? (rootFile d) = t.get? (rootFile d) :=
    fun d hd => by rw [Map.get?_insert, if_neg (hroot d hd)]
  refine ⟨fun d name hd hp hexcept => ?_, fun d own hd hown => ?_⟩
  · rw [Present, hget _ (hd.append _)] at hp
    obtain ⟨above, habove, hm⟩ := h.placed d name hd hp hexcept
    exact ⟨above, (hget d hd).trans habove, hm⟩
  · rw [hget d hd] at hown
    refine (h.sound d own hd hown).congr (fun m hm => ?_) (fun m hm => ?_)
    · rw [present_insert, or_iff_right]
      exact fun hp => hfree d m.name hd hp own hown m hm rfl
    · rw [Present, hget _ (hd.append _), Present]

/-- Writing a module file where there was none: it is then to be declared above. -/
theorem WellFormedBut.insert_root (h : WellFormedBut tops except t) {d : Path} {text : Str}
    (hnone : ¬ Present t (rootFile d))
    (hfree : ∀ above name, InScope tops above → d = above ++ [name] → Undeclared t above name)
    (hsound : Sound (t.insert (rootFile d) text) d text) :
    WellFormedBut tops (insert d except) (t.insert (rootFile d) text) := by
  refine ⟨fun e name he hp hexcept => ?_, fun e own he hown => ?_⟩
  · rw [Set.mem_insert_iff, not_or] at hexcept
    have hold : Present t (rootFile (e ++ [name])) := by
      rcases present_insert.mp hp with heq | hold
      · exact absurd (rootFile_inj.mp heq) hexcept.1
      · exact hold
    exact (grows_insert_new hnone).declared (h.placed e name he hold hexcept.2)
  · by_cases hed : e = d
    · subst hed
      rw [Map.get?_insert, if_pos rfl] at hown
      exact Option.some.inj hown ▸ hsound
    · rw [Map.get?_insert, if_neg fun heq => hed (rootFile_inj.mp heq)] at hown
      have hsound := h.sound e own he hown
      refine hsound.congr (fun m hm => ?_) (fun m hm => ?_)
      · rw [present_insert, or_iff_right]
        exact fun heq => hsound.not_self hm (leafFile_eq_rootFile.mp heq).2
      · rw [present_insert, or_iff_right]
        exact fun heq => hfree e m.name he (rootFile_inj.mp heq).symm own hown m hm rfl

/-- Writing a module file again, with its declarations kept: what it now declares is placed. -/
theorem WellFormedBut.edit_root (h : WellFormedBut tops except t) {except' : Set Path} {d : Path}
    {text text' : Str} (htext : t.get? (rootFile d) = some text) (hkeep : ∀ m ∈ decls text, m ∈ decls text')
    (hsound : Sound t d text')
    (hplaced : ∀ e name, e ++ [name] ∈ except →
      e ++ [name] ∈ except' ∨ e = d ∧ ⟨true, name⟩ ∈ decls text') :
    WellFormedBut tops except' (t.insert (rootFile d) text') := by
  have hpresent : ∀ p, Present (t.insert (rootFile d) text') p ↔ Present t p := by
    intro p
    rw [present_insert, or_iff_right_iff_imp]
    rintro rfl
    exact present_of_get? htext
  have hgrows : Grows t (t.insert (rootFile d) text') :=
    grows_insert fun own hown => by rwa [Option.some.inj (hown.symm.trans htext)]
  refine ⟨fun e name he hp hexcept => ?_, fun e own he hown => ?_⟩
  · by_cases hin : e ++ [name] ∈ except
    · rcases hplaced e name hin with hin' | ⟨rfl, hm⟩
      · exact absurd hin' hexcept
      · exact ⟨text', by simp, hm⟩
    · exact hgrows.declared (h.placed e name he ((hpresent _).mp hp) hin)
  · by_cases hed : e = d
    · subst hed
      rw [Map.get?_insert, if_pos rfl] at hown
      rw [← Option.some.inj hown]
      exact hsound.congr (fun m _ => hpresent _) (fun m _ => hpresent _)
    · rw [Map.get?_insert, if_neg fun heq => hed (rootFile_inj.mp heq)] at hown
      exact (h.sound e own he hown).congr (fun m _ => hpresent _) (fun m _ => hpresent _)

theorem WellFormedBut.mono (h : WellFormedBut tops except t) {except' : Set Path} (hsub : except ⊆ except') :
    WellFormedBut tops except' t :=
  ⟨fun d name hd hp hexcept => h.placed d name hd hp fun hin => hexcept (hsub hin), h.sound⟩

/-- A top directory has nothing above it to be declared in. -/
theorem WellFormedBut.of_top {top : Str} (h : WellFormedBut tops (insert [top] except) t) :
    WellFormedBut tops except t := by
  refine ⟨fun d name hd hp hexcept => h.placed d name hd hp fun hin => ?_, h.sound⟩
  rcases Set.mem_insert_iff.mp hin with heq | hin
  · exact hd.ne_nil (List.append_eq_singleton_iff.mp heq |>.elim And.left fun h => absurd h.2 (List.cons_ne_nil _ _))
  · exact hexcept hin

/-- A module file without declarations is sound. -/
theorem Sound.of_decls_eq_nil {d : Path} {text : Str} (hdecls : decls text = []) (hinlines : inlines text = []) :
    Sound t d text where
  nodup := by rw [hdecls]; exact List.nodup_nil
  resolved := fun m hm => by simp [hdecls] at hm
  named := fun m hm => by simp [hdecls] at hm
  bodiless := hinlines

end Edits

end Arcature.Lib.Rust

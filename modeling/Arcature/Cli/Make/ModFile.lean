import Arcature.Lib.ModuleEdit
import Arcature.Lib.Ascii

/-! What a generator does to the text of a `mod.rs`.

    A declaration goes behind the last one, or to the end of a file without any; an entry of a list goes
    above the marker that closes it. Neither takes a line away, so that the declarations of the new text
    are those of the old one and the one that was put in:

        //! The application's `controllers`.      //! The application's `controllers`.
        pub mod home_controller;                  pub mod home_controller;
        pub use home_controller::*;               pub mod user_controller;
                                                  pub use home_controller::*; -/

namespace Arcature.Cli.Make
open Lib Lib.Rust Lib.Str

/-! ### The texts -/

/-- The header of a new `mod.rs`: `new_module_header`. -/
def newModuleHeader (directory : Str) : Str := "//! The application's `".toList ++ directory ++ "`.\n".toList

/-- The line `pub mod <stem>;`. -/
def declaration (stem : Str) : Str := "pub mod ".toList ++ stem ++ [';']

/-- `declares`: whether a text declares a module, in public or not. -/
def declares (source stem : Str) : Bool :=
  (lines source).any fun line => trim line = declaration stem ∨ trim line = "mod ".toList ++ stem ++ [';']

/-- The last place at which something holds. -/
def rposition {α : Type} (p : α → Bool) (l : List α) : Option ℕ :=
  (l.reverse.findIdx? p).map fun fromEnd => l.length - 1 - fromEnd

/-- `with_declaration`. -/
def withDeclaration (source stem : Str) : Str :=
  let ls := lines source
  let lastModule := rposition (fun line => ("pub mod ".toList).isPrefixOf (line.dropWhile isWhiteSpace)) ls
  let out :=
    match lastModule with
    | some index => ls.take (index + 1) ++ declaration stem :: ls.drop (index + 1)
    | none =>
      let merged := if ls.getLast?.any fun last => trim last ≠ [] then ls ++ [[]] else ls
      merged ++ [declaration stem]
  trimEnd (joinLines (out ++ [[]])) ++ ['\n']

/-- `insert_in_region`: `none` if the region is not there. -/
def insertInRegion (source region entry : Str) : Option Str := do
  let opened := "// arc:modules ".toList ++ region
  let ls := lines source
  let start ← ls.findIdx? fun line => trim line = opened
  let length ← (ls.drop start).findIdx? fun line => trim line = "// arc:end".toList
  let stop := length + start
  if ((ls.take stop).drop start).any fun line => trim line = entry then some source
  else
    let indent := ((ls.drop start).headD []).takeWhile isWhiteSpace
    some (joinLines (ls.take stop ++ (indent ++ entry) :: ls.drop stop) ++ ['\n'])

/-! ### What is read of them -/

section Reader

variable {α : Type} {f : Str → Option α}

/-- A text with one line more. -/
theorem readLines_insert_line (hf : f [] = none) {l₁ l₂ : List Str} {line : Str} (h₁ : ∀ l ∈ l₁, '\n' ∉ l)
    (h₂ : ∀ l ∈ l₂, '\n' ∉ l) (hline : '\n' ∉ line) :
    readLines f (joinLines (l₁ ++ line :: l₂)) =
      (l₁.filterMap fun l => f (trim l)) ++ (f (trim line)).toList ++ l₂.filterMap fun l => f (trim l) := by
  rw [readLines_joinLines hf, List.filterMap_append, List.filterMap_cons, List.append_assoc]
  · cases f (trim line) <;> rfl
  · intro l hl
    rcases List.mem_append.mp hl with hl | hl
    · exact h₁ l hl
    · rcases List.mem_cons.mp hl with rfl | hl
      · exact hline
      · exact h₂ l hl

theorem trim_declaration (stem : Str) : trim (declaration stem) = declaration stem :=
  trim_eq_self (c := 'p') (d := ';') rfl List.getLast?_concat rfl rfl

theorem newline_notMem_declaration {stem : Str} (h : '\n' ∉ stem) : '\n' ∉ declaration stem :=
  List.not_mem_append (List.not_mem_append (by decide) h) (by decide)

/-- A declaration is read between what was read before. -/
theorem readLines_withDeclaration (hf : f [] = none) (source : Str) {stem : Str} (hstem : '\n' ∉ stem) :
    ∃ l₁ l₂, readLines f source = l₁ ++ l₂ ∧
      readLines f (withDeclaration source stem) = l₁ ++ (f (declaration stem)).toList ++ l₂ := by
  have hlines : ∀ l ∈ lines source, '\n' ∉ l := fun l hl => newline_notMem_lines hl
  have hline : '\n' ∉ declaration stem := newline_notMem_declaration hstem
  have hnil : ∀ l ∈ ([[]] : List Str), '\n' ∉ l := by simp
  rw [withDeclaration]
  dsimp only
  rw [readLines_concat_space hf rfl, readLines_trimEnd hf]
  split
  · next index _ =>
    have htake : ∀ l ∈ (lines source).take (index + 1), '\n' ∉ l := fun l hl => hlines l (List.mem_of_mem_take hl)
    have hdrop : ∀ l ∈ (lines source).drop (index + 1) ++ [[]], '\n' ∉ l := fun l hl =>
      (List.mem_append.mp hl).elim (fun hl => hlines l (List.mem_of_mem_drop hl)) (hnil l)
    refine ⟨((lines source).take (index + 1)).filterMap fun l => f (trim l),
      ((lines source).drop (index + 1)).filterMap fun l => f (trim l), ?_, ?_⟩
    · rw [readLines, ← List.filterMap_append, List.take_append_drop]
    · rw [List.append_assoc, List.cons_append, readLines_insert_line hf htake hdrop hline, trim_declaration,
        List.filterMap_append, List.filterMap_cons, trim_nil, hf, List.filterMap_nil, List.append_nil]
  · have hmerged : ∀ l ∈ if ((lines source).getLast?.any fun last => trim last ≠ []) = true then
        lines source ++ [[]] else lines source, '\n' ∉ l := by
      split_ifs
      · exact fun l hl => (List.mem_append.mp hl).elim (hlines l) (hnil l)
      · exact hlines
    refine ⟨readLines f source, [], (List.append_nil _).symm, ?_⟩
    rw [List.append_assoc, List.singleton_append, readLines_insert_line hf hmerged hnil hline, trim_declaration]
    split_ifs <;> simp [readLines, hf]

/-- An entry that is not read changes nothing. -/
theorem readLines_insertInRegion (hf : f [] = none) {source region entry updated : Str} (hentry : '\n' ∉ entry)
    (hquiet : f (trim entry) = none) (h : insertInRegion source region entry = some updated) :
    readLines f updated = readLines f source := by
  obtain ⟨start, -, h⟩ := Option.bind_eq_some_iff.mp h
  obtain ⟨length, -, h⟩ := Option.bind_eq_some_iff.mp h
  dsimp only at h
  split_ifs at h with hthere
  · rw [Option.some.inj h]
  · rw [← Option.some.inj h, readLines_concat_space hf rfl]
    have hlines : ∀ l ∈ lines source, '\n' ∉ l := fun l hl => newline_notMem_lines hl
    have hindent : ∀ c ∈ (((lines source).drop start).headD []).takeWhile isWhiteSpace, isWhiteSpace c = true :=
      fun c hc => List.mem_takeWhile_imp hc
    have hblank : '\n' ∉ (((lines source).drop start).headD []).takeWhile isWhiteSpace := by
      intro hc
      have hc := (List.takeWhile_prefix _).sublist.mem hc
      cases hrest : (lines source).drop start with
      | nil => simp [hrest] at hc
      | cons l rest =>
        rw [hrest] at hc
        exact hlines l (List.mem_of_mem_drop (hrest ▸ List.mem_cons_self)) hc
    rw [readLines_insert_line hf (fun l hl => hlines l (List.mem_of_mem_take hl))
      (fun l hl => hlines l (List.mem_of_mem_drop hl))
      (fun hc => (List.mem_append.mp hc).elim hblank hentry), trim_append_of_space hindent, hquiet]
    rw [Option.toList_none, List.append_nil, ← List.filterMap_append, List.take_append_drop, readLines]

end Reader

/-! ### Declarations -/

theorem newline_of_isIdentChar {s : Str} (h : ∀ c ∈ s, isIdentChar c = true) : '\n' ∉ s := fun hmem =>
  absurd (h '\n' hmem) (by decide)

/-- What is found declared is. -/
theorem exists_of_declares {source stem : Str} (hstem : ∀ c ∈ stem, isIdentChar c = true)
    (h : declares source stem = true) : ∃ m ∈ decls source, m.name = stem := by
  obtain ⟨line, hline, htext⟩ := List.any_eq_true.mp h
  rcases of_decide_eq_true htext with htext | htext
  · have hread : decl? (trim line) = some ⟨true, stem⟩ := htext ▸ decl?_text (m := ⟨true, stem⟩) hstem
    exact ⟨⟨true, stem⟩, List.mem_filterMap.mpr ⟨line, hline, hread⟩, rfl⟩
  · have hread : decl? (trim line) = some ⟨false, stem⟩ := htext ▸ decl?_text (m := ⟨false, stem⟩) hstem
    exact ⟨⟨false, stem⟩, List.mem_filterMap.mpr ⟨line, hline, hread⟩, rfl⟩

/-- The declarations of a text with one more. -/
theorem decls_withDeclaration (source : Str) {stem : Str} (hstem : ∀ c ∈ stem, isIdentChar c = true) :
    ∃ l₁ l₂, decls source = l₁ ++ l₂ ∧ decls (withDeclaration source stem) = l₁ ++ ⟨true, stem⟩ :: l₂ := by
  obtain ⟨l₁, l₂, hbefore, hafter⟩ :=
    readLines_withDeclaration decl?_nil source (newline_of_isIdentChar hstem)
  have hread : decl? (declaration stem) = some ⟨true, stem⟩ := decl?_text (m := ⟨true, stem⟩) hstem
  refine ⟨l₁, l₂, hbefore, ?_⟩
  rw [decls, hafter, hread, Option.toList_some, List.append_assoc, List.singleton_append]

theorem inlines_withDeclaration (source : Str) {stem : Str} (hstem : ∀ c ∈ stem, isIdentChar c = true) :
    inlines (withDeclaration source stem) = inlines source := by
  obtain ⟨l₁, l₂, hbefore, hafter⟩ :=
    readLines_withDeclaration inline?_nil source (newline_of_isIdentChar hstem)
  have hread : inline? (declaration stem) = none := inline?_text (m := ⟨true, stem⟩) hstem
  rw [inlines, inlines, hafter, hbefore, hread, Option.toList_none, List.append_nil]

/-- A line that starts with neither word of a declaration opens no module. -/
theorem opened?_eq_none {c : Char} {rest : Str} (hp : c ≠ 'p') (hm : c ≠ 'm') : opened? (c :: rest) = none := by
  by_contra h
  obtain ⟨⟨isPub, name⟩, hopened⟩ := Option.ne_none_iff_exists'.mp h
  have htext := opened?_eq_some.mp hopened
  cases isPub with
  | true => exact hp (List.cons.inj htext).1
  | false => exact hm (List.cons.inj htext).1

/-- A line without a blank opens no module. -/
theorem opened?_eq_none_of_blank {line : Str} (h : ' ' ∉ line) : opened? line = none := by
  by_contra hne
  obtain ⟨⟨isPub, name⟩, hopened⟩ := Option.ne_none_iff_exists'.mp hne
  refine h ?_
  rw [opened?_eq_some.mp hopened]
  cases isPub <;> exact List.mem_append_left _ (by decide)

theorem trim_cons {c : Char} (hc : isWhiteSpace c = false) (rest : Str) : ∃ rest', trim (c :: rest) = c :: rest' := by
  obtain ⟨kept, hkept⟩ := List.rdropWhile_prefix isWhiteSpace (c :: rest)
  have htrim : trim (c :: rest) = (c :: rest).rdropWhile isWhiteSpace := by
    rw [trim, List.dropWhile_cons_of_neg (by simp [hc])]
    rfl
  rw [htrim]
  cases hstart : (c :: rest).rdropWhile isWhiteSpace with
  | nil =>
    rw [List.rdropWhile_eq_nil_iff] at hstart
    exact absurd (hstart c List.mem_cons_self) (by simp [hc])
  | cons d rest' =>
    rw [hstart, List.cons_append] at hkept
    exact ⟨rest', by rw [(List.cons.inj hkept).1]⟩

/-- A line that declares and opens nothing, and has no end inside. -/
structure Quiet (line : Str) : Prop where
  unbroken : '\n' ∉ line
  unread : opened? (trim line) = none

instance (line : Str) : Decidable (Quiet line) :=
  decidable_of_iff ('\n' ∉ line ∧ opened? (trim line) = none) ⟨fun h => ⟨h.1, h.2⟩, fun h => ⟨h.unbroken, h.unread⟩⟩

theorem Quiet.of_head {lit inner rest : Str} {c : Char} (hc : (lit.dropWhile isWhiteSpace).head? = some c)
    (hlit : '\n' ∉ lit) (hinner : '\n' ∉ inner) (hrest : '\n' ∉ rest) (hp : c ≠ 'p') (hm : c ≠ 'm') :
    Quiet (lit ++ inner ++ rest) := by
  refine ⟨List.not_mem_append (List.not_mem_append hlit hinner) hrest, ?_⟩
  obtain ⟨opening, hopening⟩ : ∃ opening, lit.dropWhile isWhiteSpace = c :: opening :=
    ⟨_, (List.cons_head?_tail hc).symm⟩
  have hspace : isWhiteSpace c = false := by
    have hnot := List.head_dropWhile_not isWhiteSpace (l := lit) (by simp [hopening])
    simpa [hopening] using hnot
  have hindent : ∀ d ∈ lit.takeWhile isWhiteSpace, isWhiteSpace d = true := fun d hd => List.mem_takeWhile_imp hd
  have hline : lit ++ inner ++ rest = lit.takeWhile isWhiteSpace ++ c :: (opening ++ inner ++ rest) := by
    conv_lhs => rw [← List.takeWhile_append_dropWhile (p := isWhiteSpace) (l := lit), hopening]
    simp
  obtain ⟨rest', htrim⟩ := trim_cons hspace (opening ++ inner ++ rest)
  rw [hline, trim_append_of_space hindent, htrim, opened?_eq_none hp hm]

theorem filterMap_quiet {ls : List Str} (h : ∀ l ∈ ls, Quiet l) :
    (ls.filterMap fun l => decl? (trim l)) = [] ∧ (ls.filterMap fun l => inline? (trim l)) = [] := by
  refine ⟨List.filterMap_eq_nil_iff.mpr fun l hl => ?_, List.filterMap_eq_nil_iff.mpr fun l hl => ?_⟩
  · exact (unread_of_opened? (h l hl).unread).1
  · exact (unread_of_opened? (h l hl).unread).2

/-- A new `mod.rs` declares nothing. -/
theorem decls_newModuleHeader {directory : Str} (h : '\n' ∉ directory) :
    decls (newModuleHeader directory) = [] ∧ inlines (newModuleHeader directory) = [] := by
  have hend : "`.\n".toList = "`.".toList ++ ['\n'] := by decide
  have hheader : newModuleHeader directory = unlines ["//! The application's `".toList ++ directory ++ "`.".toList] :=
    calc newModuleHeader directory
      _ = "//! The application's `".toList ++ directory ++ ("`.".toList ++ ['\n']) :=
          congrArg ("//! The application's `".toList ++ directory ++ ·) hend
      _ = "//! The application's `".toList ++ directory ++ "`.".toList ++ ['\n'] := (List.append_assoc _ _ _).symm
      _ = _ := (unlines_singleton _).symm
  have hquiet : ∀ l ∈ ["//! The application's `".toList ++ directory ++ "`.".toList], Quiet l := by
    rintro l hl
    rw [List.mem_singleton.mp hl]
    exact Quiet.of_head (c := '/') (by decide) (by decide) h (by decide) (by decide) (by decide)
  rw [hheader, decls, inlines, readLines_unlines decl?_nil fun l hl => (hquiet l hl).unbroken,
    readLines_unlines inline?_nil fun l hl => (hquiet l hl).unbroken]
  exact filterMap_quiet hquiet

end Arcature.Cli.Make

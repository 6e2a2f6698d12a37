import Arcature.Cli.Make.ModFile
import Mathlib.Data.List.ModifyLast

/-! Which edits of a `mod.rs` are confined (`cli/commands/make/mod.rs`).

    A declaration is put between lines that stay. Then the text is trimmed at its end, and with it the
    last line, unless the declaration is behind that one (`TidyEnd`):

        pub mod home;                             pub mod home;
        // the rest is old□□                      pub mod user;
                                                  // the rest is old

    An entry goes above the first end marker behind the marker that opens its region. If the region has
    no end of its own, this is the end of another one (`Listing.Own`):

        // arc:modules descriptors                // arc:modules descriptors
        // arc:modules routes                     // arc:modules routes
        // arc:end                                user::user_module().clone(),
                                                  // arc:end

    And what is compared with the entry is trimmed, so that one with white space around it is never
    found again. -/

namespace Arcature.Cli.Make
open Lib Lib.Str

/-! ### Declarations -/

/-- A line behind which declarations go. -/
def isPubMod (line : Str) : Bool := ("pub mod ".toList).isPrefixOf (line.dropWhile isWhiteSpace)

/-- The last line that is not blank has no white space at its end, or the declaration goes behind it. -/
def TidyEnd (source : Str) : Prop :=
  ∀ last, ((lines source).rdropWhile isBlankLine).getLast? = some last →
    (∃ line ∈ lines source, isPubMod line = true) → isPubMod last = true ∨ trimEnd last = bareLine last

/-- A declaration is put between the lines, with nothing else but blank lines, and is the only one declared with it. -/
structure Conservative (source stem : Str) : Prop where
  kept : ∃ front gap back, contentLines source = front ++ back ∧ (∀ line ∈ gap, isBlankLine line = true) ∧
    contentLines (withDeclaration source stem) = front ++ gap ++ declaration stem :: back
  declared : declares (withDeclaration source stem) stem = true
  others : ∀ other, other ≠ stem → declares (withDeclaration source stem) other = declares source other

section Places

variable {α : Type} {p : α → Bool}

theorem rposition_concat (l : List α) (x : α) :
    rposition p (l ++ [x]) = if p x = true then some l.length else rposition p l := by
  rw [rposition, List.reverse_concat, List.findIdx?_cons]
  split_ifs with hx
  · simp
  · rw [rposition, Option.map_map]
    refine congrArg (Option.map · _) (funext fun fromEnd => ?_)
    simp only [Function.comp_apply, List.length_append, List.length_singleton]
    omega

theorem rposition_eq_none {l : List α} (h : rposition p l = none) : ∀ x ∈ l, p x = false := by
  intro x hx
  rw [rposition, Option.map_eq_none_iff, List.findIdx?_eq_none_iff] at h
  exact h x (List.mem_reverse.mpr hx)

/-- What is in front of the last place, and what is behind it. -/
theorem rposition_eq_some {l : List α} {i : ℕ} (h : rposition p l = some i) :
    ∃ front x back, l = front ++ x :: back ∧ front.length = i ∧ p x = true ∧ ∀ y ∈ back, p y = false := by
  induction l using List.reverseRecOn with
  | nil => cases h
  | append_singleton l x ih =>
    rw [rposition_concat] at h
    split_ifs at h with hx
    · exact ⟨l, x, [], rfl, Option.some.inj h, hx, by simp⟩
    · obtain ⟨front, y, back, rfl, hlen, hy, hback⟩ := ih h
      refine ⟨front, y, back ++ [x], by simp, hlen, hy, ?_⟩
      rw [List.forall_mem_append, List.forall_mem_singleton]
      exact ⟨hback, Bool.eq_false_of_not_eq_true hx⟩

end Places

/-- Where a declaration is put. -/
theorem withDeclaration_cases (source stem : Str) :
    ((∀ line ∈ lines source, isPubMod line = false) ∧ ∃ gap, (∀ line ∈ gap, isBlankLine line = true) ∧
        (∀ line ∈ gap, '\n' ∉ line) ∧
        withDeclaration source stem = trimEnd (joinLines (lines source ++ gap ++ [declaration stem, []])) ++ ['\n']) ∨
      ∃ front line back, lines source = front ++ line :: back ∧ isPubMod line = true ∧
        (∀ l ∈ back, isPubMod l = false) ∧ withDeclaration source stem =
          trimEnd (joinLines (front ++ line :: declaration stem :: (back ++ [[]]))) ++ ['\n'] := by
  rw [withDeclaration]
  dsimp only
  split
  · next index hindex =>
    obtain ⟨front, line, back, hlines, hlen, hline, hback⟩ := rposition_eq_some hindex
    refine .inr ⟨front, line, back, hlines, hline, hback, ?_⟩
    have hsplit : lines source = (front ++ [line]) ++ back := by simp [hlines]
    have htake : (lines source).take (index + 1) = front ++ [line] := by
      rw [hsplit]
      exact List.take_left' (by simp [hlen])
    have hdrop : (lines source).drop (index + 1) = back := by
      rw [hsplit]
      exact List.drop_left' (by simp [hlen])
    rw [htake, hdrop]
    simp
  · next hnone =>
    refine .inl ⟨rposition_eq_none hnone, if (lines source).getLast?.any fun last => trim last ≠ [] then [[]] else [],
      ?_, ?_, ?_⟩
    · split_ifs <;> simp [isBlankLine]
    · split_ifs <;> simp
    · split_ifs <;> simp

theorem isBlankLine_of_isPubMod {line : Str} (h : isPubMod line = true) : isBlankLine line = false := by
  by_contra hblank
  rw [Bool.not_eq_false, isBlankLine, List.all_eq_true, ← List.dropWhile_eq_nil_iff] at hblank
  rw [isPubMod, hblank] at h
  exact absurd h (by decide)

theorem blank_singleton : ∀ b ∈ ([[]] : List Str), isBlankLine b = true := by simp [isBlankLine]

theorem isBlankLine_declaration (stem : Str) : isBlankLine (declaration stem) = false := rfl

theorem trimEnd_declaration (stem : Str) : trimEnd (declaration stem) = declaration stem :=
  List.rdropWhile_concat_neg _ _ _ (by decide)

theorem bareLine_declaration (stem : Str) : bareLine (declaration stem) = declaration stem := by
  rw [← trimEnd_declaration, bareLine_trimEnd]

/-- A declaration is put between the lines, and what is behind it is the same but for its end. -/
def PutIn (source stem : Str) : Prop :=
  ∃ front gap back, contentLines source = front ++ back ∧ (∀ line ∈ gap, isBlankLine line = true) ∧
    contentLines (withDeclaration source stem) = front ++ gap ++ declaration stem :: back.modifyLast trimEnd ∧
      (TidyEnd source ↔ back.modifyLast trimEnd = back)

section PutIn

variable {source stem : Str} (hstem : '\n' ∉ stem)
include hstem

/-- There is no declaration yet: it goes to the end. -/
theorem putIn_of_none {gap : List Str} (hnone : ∀ line ∈ lines source, isPubMod line = false)
    (hgap : ∀ line ∈ gap, isBlankLine line = true) (hbroken : ∀ line ∈ gap, '\n' ∉ line)
    (hnew : withDeclaration source stem =
      trimEnd (joinLines (lines source ++ gap ++ [declaration stem, []])) ++ ['\n']) :
    PutIn source stem := by
  have hall : ∀ k ∈ (lines source ++ gap) ++ [declaration stem], '\n' ∉ k := by
    rw [List.forall_mem_append, List.forall_mem_append, List.forall_mem_singleton]
    exact ⟨⟨fun l hl => newline_notMem_lines hl, hbroken⟩, newline_notMem_declaration hstem⟩
  refine ⟨contentLines source, ((lines source).map bareLine).rtakeWhile isBlankLine ++ gap.map bareLine, [],
    (List.append_nil _).symm, ?_, ?_, ?_⟩
  · rw [List.forall_mem_append, List.forall_mem_map]
    exact ⟨fun l hl => List.mem_rtakeWhile_imp hl, fun l hl => by rw [isBlankLine_bareLine, hgap l hl]⟩
  · rw [hnew, contentLines_trimEnd_joinLines (isBlankLine_declaration stem) blank_singleton hall, trimEnd_declaration,
      List.map_append, ← List.append_assoc, contentLines, List.rdropWhile_append_rtakeWhile]
    rfl
  · refine iff_of_true (fun last _ hex => ?_) rfl
    obtain ⟨l, hl, hpub⟩ := hex
    rw [hnone l hl] at hpub
    cases hpub

variable {front back : List Str} {line : Str} (hsplit : lines source = front ++ line :: back)
  (hpub : isPubMod line = true) (hnew : withDeclaration source stem =
    trimEnd (joinLines (front ++ line :: declaration stem :: (back ++ [[]]))) ++ ['\n'])
include hsplit hpub hnew

/-- There is nothing behind the last declaration. -/
theorem putIn_of_last (hblank : ∀ l ∈ back, isBlankLine l = true) : PutIn source stem := by
  have hlines : ∀ l ∈ lines source, '\n' ∉ l := fun l hl => newline_notMem_lines hl
  rw [hsplit, List.forall_mem_append, List.forall_mem_cons] at hlines
  have hblanks : ∀ b ∈ back ++ [[]], isBlankLine b = true := List.forall_mem_append.mpr ⟨hblank, blank_singleton⟩
  have hall : ∀ k ∈ (front ++ [line]) ++ [declaration stem], '\n' ∉ k := by
    simp only [List.forall_mem_append, List.forall_mem_singleton]
    exact ⟨⟨hlines.1, hlines.2.1⟩, newline_notMem_declaration hstem⟩
  have hcontent := contentLines_trimEnd_joinLines (isBlankLine_declaration stem) hblanks hall
  refine ⟨contentLines source, [], [], (List.append_nil _).symm, by simp, ?_, iff_of_true ?_ rfl⟩
  · rw [List.append_assoc, List.singleton_append, trimEnd_declaration] at hcontent
    rw [contentLines_of_lines hsplit (isBlankLine_of_isPubMod hpub) hblank, hnew, hcontent, List.map_append,
      List.append_nil]
    rfl
  · intro last hlast _
    rw [hsplit, rdropWhile_blank (isBlankLine_of_isPubMod hpub) hblank, List.getLast?_concat] at hlast
    rw [← Option.some.inj hlast]
    exact .inl hpub

/-- There are other lines behind the last declaration, and the last of them is trimmed. -/
theorem putIn_of_rest (hback : ∀ l ∈ back, isPubMod l = false) (hrest : ∃ l ∈ back, isBlankLine l = false) :
    PutIn source stem := by
  have hlines : ∀ l ∈ lines source, '\n' ∉ l := fun l hl => newline_notMem_lines hl
  have hex : ∃ l ∈ lines source, isPubMod l = true := ⟨line, by simp [hsplit], hpub⟩
  obtain ⟨l, blanks, heq, hl, hblanks⟩ := exists_last hrest
  generalize (back.rdropWhile isBlankLine).dropLast = mid at heq
  subst heq
  rw [hsplit] at hlines
  simp only [List.forall_mem_append, List.forall_mem_cons] at hlines hback
  have hsource : lines source = (front ++ line :: mid) ++ l :: blanks := by simp [hsplit]
  have hall : ∀ k ∈ (front ++ line :: declaration stem :: mid) ++ [l], '\n' ∉ k := by
    simp only [List.forall_mem_append, List.forall_mem_cons]
    exact ⟨⟨hlines.1, hlines.2.1, newline_notMem_declaration hstem, hlines.2.2.1⟩, hlines.2.2.2.1, by simp⟩
  have hcontent :=
    contentLines_trimEnd_joinLines hl (List.forall_mem_append.mpr ⟨hblanks, blank_singleton⟩) hall
  refine ⟨(front ++ [line]).map bareLine, [], mid.map bareLine ++ [bareLine l], ?_, by simp, ?_, ?_⟩
  · rw [contentLines_of_lines hsource hl hblanks]
    simp
  · have hsame : front ++ line :: declaration stem :: (mid ++ l :: blanks ++ [[]]) =
        (front ++ line :: declaration stem :: mid) ++ l :: (blanks ++ [[]]) := by simp
    rw [hnew, List.modifyLast_concat, trimEnd_bareLine, hsame, hcontent]
    simp [bareLine_declaration]
  · have hlast : ((lines source).rdropWhile isBlankLine).getLast? = some l := by
      rw [hsource, rdropWhile_blank hl hblanks, List.getLast?_concat]
    rw [List.modifyLast_concat, trimEnd_bareLine, List.append_right_inj, List.singleton_inj, TidyEnd, hlast]
    constructor
    · intro htidy
      exact (htidy l rfl hex).resolve_left (by simp [hback.2.1])
    · rintro heq last hsome -
      rw [← Option.some.inj hsome]
      exact .inr heq

end PutIn

theorem putIn_withDeclaration (source : Str) {stem : Str} (hstem : '\n' ∉ stem) : PutIn source stem := by
  obtain ⟨hnone, gap, hgap, hbroken, hnew⟩ | ⟨front, line, back, hsplit, hpub, hback, hnew⟩ :=
    withDeclaration_cases source stem
  · exact putIn_of_none hstem hnone hgap hbroken hnew
  · by_cases hblank : ∀ l ∈ back, isBlankLine l = true
    · exact putIn_of_last hstem hsplit hpub hnew hblank
    · refine putIn_of_rest hstem hsplit hpub hnew hback ?_
      simpa using hblank

/-- Whether a line declares a module. -/
def declared? (stem line : Str) : Option Unit :=
  if line = declaration stem ∨ line = "mod ".toList ++ stem ++ [';'] then some () else none

theorem declares_eq_true {source stem : Str} : declares source stem = true ↔
    ∃ line ∈ lines source, trim line = declaration stem ∨ trim line = "mod ".toList ++ stem ++ [';'] := by
  simp only [declares, List.any_eq_true, decide_eq_true_eq]

theorem declares_iff {source stem : Str} : declares source stem = true ↔ readLines (declared? stem) source ≠ [] := by
  simp only [declares_eq_true, readLines, declared?, ne_eq, List.filterMap_eq_nil_iff, not_forall, exists_prop]
  refine exists_congr fun line => and_congr_right fun _ => ?_
  split_ifs with h
  · exact iff_of_true h (by simp)
  · exact iff_of_false h (by simp)

theorem declared?_declaration {stem other : Str} :
    declared? other (declaration stem) = if other = stem then some () else none := by
  have hbare : declaration stem ≠ "mod ".toList ++ other ++ [';'] := by
    intro heq
    have hhead : some 'p' = some 'm' := congrArg List.head? heq
    simp at hhead
  have hpub : declaration stem = declaration other ↔ other = stem := by
    refine ⟨fun heq => ?_, fun heq => by rw [heq]⟩
    exact (List.append_cancel_left (List.append_cancel_right heq)).symm
  rw [declared?]
  simp only [hbare, or_false, hpub]

theorem declared?_nil (stem : Str) : declared? stem [] = none := by
  have hne : ¬ ([] = declaration stem ∨ [] = "mod ".toList ++ stem ++ [';']) := by
    rintro (heq | heq)
    · exact List.append_ne_nil_of_right_ne_nil _ (List.cons_ne_nil _ _) heq.symm
    · exact List.append_ne_nil_of_right_ne_nil _ (List.cons_ne_nil _ _) heq.symm
  simp only [declared?, hne, if_false]

/-- A new declaration declares its module and no other. -/
theorem declares_withDeclaration (source : Str) {stem : Str} (hstem : '\n' ∉ stem) (other : Str) :
    declares (withDeclaration source stem) other = true ↔ other = stem ∨ declares source other = true := by
  obtain ⟨l₁, l₂, hbefore, hafter⟩ := readLines_withDeclaration (declared?_nil other) source hstem
  rw [declares_iff, declares_iff, hbefore, hafter, declared?_declaration]
  by_cases h : other = stem
  · simp [h]
  · simp [h]

/-- No line declares a name with a line feed in it. -/
theorem declares_of_newline {source stem : Str} (h : '\n' ∈ stem) : declares source stem = false := by
  by_contra hdeclares
  rw [Bool.not_eq_false, declares_eq_true] at hdeclares
  obtain ⟨line, hline, htext⟩ := hdeclares
  refine newline_notMem_lines hline ((trim_infix_self line).sublist.mem ?_)
  rcases htext with htext | htext
  · rw [htext]
    exact List.mem_append_left _ (List.mem_append_right _ h)
  · rw [htext]
    exact List.mem_append_left _ (List.mem_append_right _ h)

theorem conservative_iff {source stem : Str} (h : declares source stem = false) :
    Conservative source stem ↔ '\n' ∉ stem ∧ TidyEnd source := by
  constructor
  · intro hcons
    have hstem : '\n' ∉ stem := fun hmem => absurd hcons.declared (by simp [declares_of_newline hmem])
    obtain ⟨front, gap, back, hsource, -, hnew, htidy⟩ := putIn_withDeclaration source hstem
    obtain ⟨front', gap', back', hsource', -, hnew'⟩ := hcons.kept
    refine ⟨hstem, htidy.mpr ?_⟩
    -- the last line of the new text is trimmed, and either it is the one of the old text or the new one
    obtain rfl | ⟨back, last, rfl⟩ := List.eq_nil_or_concat back
    · rfl
    rw [List.concat_eq_append] at hsource hnew ⊢
    rw [List.modifyLast_concat] at hnew ⊢
    have hlast : (contentLines (withDeclaration source stem)).getLast? = some (trimEnd last) := by
      rw [hnew, ← List.cons_append, ← List.append_assoc, List.getLast?_concat]
    obtain rfl | ⟨back', last', rfl⟩ := List.eq_nil_or_concat back'
    · rw [hnew', List.getLast?_concat, Option.some_inj] at hlast
      have hmem : last ∈ contentLines source := by simp [hsource]
      obtain ⟨line, hline, rfl⟩ := List.mem_map.mp ((List.rdropWhile_prefix _ _).sublist.mem hmem)
      rw [trimEnd_bareLine] at hlast
      have hdeclares : declares source stem = true :=
        declares_eq_true.mpr ⟨line, hline, .inl (by rw [← trim_trimEnd, ← hlast, trim_declaration])⟩
      rw [h] at hdeclares
      cases hdeclares
    · rw [List.concat_eq_append] at hsource' hnew'
      rw [hnew', ← List.cons_append, ← List.append_assoc, List.getLast?_concat, Option.some_inj] at hlast
      have hsame : last' = last := by
        have heq := congrArg List.getLast? (hsource'.symm.trans hsource)
        rw [← List.append_assoc, ← List.append_assoc, List.getLast?_concat, List.getLast?_concat] at heq
        exact Option.some.inj heq
      rw [← hlast, hsame]
  · rintro ⟨hstem, htidy⟩
    obtain ⟨front, gap, back, hsource, hgap, hnew, hiff⟩ := putIn_withDeclaration source hstem
    rw [hiff.mp htidy] at hnew
    refine ⟨⟨front, gap, back, hsource, hgap, hnew⟩, ?_, fun other hother => ?_⟩
    · exact (declares_withDeclaration source hstem stem).mpr (.inl rfl)
    · rw [Bool.eq_iff_iff, declares_withDeclaration source hstem, or_iff_right hother]

/-! ### Lists -/

/-- The marker that opens the list of a region. -/
def openMarker (region : Str) : Str := "// arc:modules ".toList ++ region

/-- The marker that ends a list. -/
def endMarker : Str := "// arc:end".toList

/-- The region whose list a line opens. -/
def opens? (line : Str) : Option Str := stripPrefix "// arc:modules ".toList (trim line)

/-- A line that opens a list or ends one. -/
def isMarker (line : Str) : Bool := trim line = endMarker ∨ (opens? line).isSome = true

/-- The lists in a text, each with its region and its lines up to the next marker. -/
def lists : List Str → List (Str × List Str)
  | [] => []
  | line :: rest =>
    match opens? line with
    | some region => (region, rest.takeWhile (!isMarker ·)) :: lists rest
    | none => lists rest

/-- The lists of the other regions. -/
def otherLists (region source : Str) : List (Str × List Str) :=
  (lists ((lines source).map bareLine)).filter (·.1 ≠ region)

/-- Where the list of a region is: behind the first marker that opens it, up to the next that ends one. -/
structure Listing (region : Str) (ls : List Str) where
  front : List Str
  opened : Str
  body : List Str
  ended : Str
  back : List Str
  split : ls = front ++ opened :: (body ++ ended :: back)
  first : ∀ line ∈ front, trim line ≠ openMarker region
  opens : trim opened = openMarker region
  inside : ∀ line ∈ body, trim line ≠ endMarker
  ends : trim ended = endMarker

/-- No list of another region is opened in it. -/
def Listing.Own {region : Str} {ls : List Str} (g : Listing region ls) : Prop :=
  ∀ line ∈ g.body, ∀ other, opens? line = some other → other = region

/-- The entry is in the list of its region, no line is lost, no other list is touched, and it is there once. -/
structure Confined (source region entry updated : Str) : Prop where
  kept : ((lines source).map bareLine).Sublist ((lines updated).map bareLine)
  listed : ∃ g : Listing region (lines updated), g.Own ∧ ∃ line ∈ g.body, trim line = trim entry
  others : otherLists region updated = otherLists region source
  again : insertInRegion updated region entry = some updated

section Places

variable {α : Type} {p : α → Bool}

theorem findIdx?_append_cons {front back : List α} {x : α} (hfront : ∀ y ∈ front, p y = false) (hx : p x = true) :
    (front ++ x :: back).findIdx? p = some front.length := by
  rw [List.findIdx?_append, List.findIdx?_eq_none_iff.mpr hfront, List.findIdx?_cons, if_pos hx]
  simp

theorem findIdx?_eq_some {l : List α} {i : ℕ} (h : l.findIdx? p = some i) :
    ∃ front x back, l = front ++ x :: back ∧ front.length = i ∧ p x = true ∧ ∀ y ∈ front, p y = false := by
  induction l generalizing i with
  | nil => cases h
  | cons x l ih =>
    rw [List.findIdx?_cons] at h
    split_ifs at h with hx
    · exact ⟨[], x, l, rfl, Option.some.inj h, hx, by simp⟩
    · obtain ⟨j, hj, rfl⟩ := Option.map_eq_some_iff.mp h
      obtain ⟨front, y, back, rfl, rfl, hy, hfront⟩ := ih hj
      refine ⟨x :: front, y, back, rfl, rfl, hy, ?_⟩
      rw [List.forall_mem_cons]
      exact ⟨Bool.eq_false_of_not_eq_true hx, hfront⟩

/-- There is one first place. -/
theorem first_unique {front front' back back' : List α} {x x' : α} (hfront : ∀ y ∈ front, p y = false)
    (hfront' : ∀ y ∈ front', p y = false) (hx : p x = true) (hx' : p x' = true)
    (h : front ++ x :: back = front' ++ x' :: back') : front = front' ∧ x = x' ∧ back = back' := by
  have hlen : front.length = front'.length := by
    have hplace := congrArg (List.findIdx? p) h
    rw [findIdx?_append_cons hfront hx, findIdx?_append_cons hfront' hx'] at hplace
    exact Option.some.inj hplace
  obtain ⟨hfirst, hrest⟩ := List.append_inj h hlen
  exact ⟨hfirst, List.cons.inj hrest⟩

end Places

theorem opens?_eq_some {line region : Str} : opens? line = some region ↔ trim line = openMarker region :=
  stripPrefix_eq_some

theorem isMarker_iff {line : Str} :
    isMarker line = true ↔ trim line = endMarker ∨ ∃ region, trim line = openMarker region := by
  rw [isMarker, decide_eq_true_eq, Option.isSome_iff_exists]
  simp only [opens?_eq_some]

theorem openMarker_ne_endMarker (region : Str) : openMarker region ≠ endMarker := by
  intro heq
  have hsame : some 'm' = some 'e' := congrArg (fun s : Str => (s.drop 7).head?) heq
  simp at hsame

/-! ### Lines put into a list -/

namespace Listing

variable {region : Str} {ls : List Str} (g : Listing region ls)

/-- The lines with one more, above the end marker. -/
def insert (line : Str) : List Str := g.front ++ g.opened :: (g.body ++ line :: g.ended :: g.back)

/-- An entry as it is written: with the indentation of the marker. -/
def indented (entry : Str) : Str := g.opened.takeWhile isWhiteSpace ++ entry

/-- The list with the line in it. -/
def added {line : Str} (h : trim line ≠ endMarker) : Listing region (g.insert line) where
  front := g.front
  opened := g.opened
  body := g.body ++ [line]
  ended := g.ended
  back := g.back
  split := by rw [insert, List.append_assoc, List.singleton_append]
  first := g.first
  opens := g.opens
  inside := by
    rw [List.forall_mem_append, List.forall_mem_singleton]
    exact ⟨g.inside, h⟩
  ends := g.ends

/-- The list in lines that are the same when they are trimmed. -/
def map {f : Str → Str} (hf : ∀ line, trim (f line) = trim line) : Listing region (ls.map f) where
  front := g.front.map f
  opened := f g.opened
  body := g.body.map f
  ended := f g.ended
  back := g.back.map f
  split := by
    conv_lhs => rw [g.split]
    simp
  first := by
    rw [List.forall_mem_map]
    exact fun line hline => hf line ▸ g.first line hline
  opens := (hf g.opened).trans g.opens
  inside := by
    rw [List.forall_mem_map]
    exact fun line hline => hf line ▸ g.inside line hline
  ends := (hf g.ended).trans g.ends

theorem map_insert (f : Str → Str) {line : Str} (hf : ∀ line, trim (f line) = trim line) :
    (g.insert line).map f = (g.map hf).insert (f line) := by
  simp [insert, map]

theorem trim_indented (entry : Str) : trim (g.indented entry) = trim entry :=
  trim_append_of_space (fun _ hc => List.mem_takeWhile_imp hc) entry

theorem opened_mem : g.opened ∈ ls := (congrArg (g.opened ∈ ·) g.split).mpr (by simp)

theorem mem_insert {line l : Str} (h : l ∈ g.insert line) : l ∈ ls ∨ l = line := by
  rw [g.split]
  simp only [insert, List.mem_append, List.mem_cons] at h ⊢
  tauto

theorem sublist_insert (line : Str) : ls.Sublist (g.insert line) := by
  conv_lhs => rw [g.split]
  exact ((List.Sublist.refl _).append ((List.sublist_cons_self line _)) |>.cons_cons g.opened).append_left g.front

theorem length_insert (line : Str) : (g.insert line).length = ls.length + 1 := by
  conv_rhs => rw [g.split]
  simp only [insert, List.length_append, List.length_cons]
  omega

/-- There is one list of a region. -/
theorem body_unique (g' : Listing region ls) : g.body = g'.body := by
  have hfirst : ∀ g : Listing region ls, ∀ line ∈ g.front, decide (trim line = openMarker region) = false :=
    fun g line hline => decide_eq_false (g.first line hline)
  have hinside : ∀ g : Listing region ls, ∀ line ∈ g.body, decide (trim line = endMarker) = false :=
    fun g line hline => decide_eq_false (g.inside line hline)
  obtain ⟨-, -, hrest⟩ := first_unique (hfirst g) (hfirst g') (decide_eq_true g.opens) (decide_eq_true g'.opens)
    (g.split.symm.trans g'.split)
  exact (first_unique (hinside g) (hinside g') (decide_eq_true g.ends) (decide_eq_true g'.ends) hrest).1

end Listing

/-- The lists in front of a marker are those of the lines there. -/
theorem lists_append (front : List Str) {line : Str} (hline : isMarker line = true) (rest : List Str) :
    lists (front ++ line :: rest) = lists front ++ lists (line :: rest) := by
  induction front with
  | nil => rfl
  | cons l front ih =>
    have htake : (front ++ line :: rest).takeWhile (!isMarker ·) = front.takeWhile (!isMarker ·) := by
      rw [List.takeWhile_append]
      split_ifs with hall
      · rw [List.takeWhile_cons_of_neg (by simp [hline]), List.append_nil]
        exact ((List.takeWhile_prefix _).eq_of_length hall).symm
      · rfl
    rw [List.cons_append, lists, lists, htake, ih]
    cases opens? l <;> rfl

/-- Lines that open no list of another region are not seen by one. -/
theorem lists_own {region : Str} {body : List Str} (rest : List Str)
    (h : ∀ line ∈ body, ∀ other, opens? line = some other → other = region) :
    (lists (body ++ rest)).filter (·.1 ≠ region) = (lists rest).filter (·.1 ≠ region) := by
  induction body with
  | nil => rfl
  | cons line body ih =>
    obtain ⟨hline, hbody⟩ := List.forall_mem_cons.mp h
    rw [List.cons_append, lists]
    cases hopens : opens? line with
    | none => exact ih hbody
    | some other => rw [hline other hopens, List.filter_cons_of_neg (by simp), ih hbody]

/-- No other list changes. -/
theorem Listing.lists_insert {region : Str} {ls : List Str} (g : Listing region ls) (hown : g.Own) {line : Str}
    (hline : opens? line = none) :
    (lists (g.insert line)).filter (·.1 ≠ region) = (lists ls).filter (·.1 ≠ region) := by
  have hopened : opens? g.opened = some region := opens?_eq_some.mpr g.opens
  have hmarker : isMarker g.opened = true := isMarker_iff.mpr (.inr ⟨region, g.opens⟩)
  have hbody : ∀ l ∈ g.opened :: g.body, ∀ other, opens? l = some other → other = region := by
    rw [List.forall_mem_cons]
    exact ⟨fun other hother => Option.some.inj (hother.symm.trans hopened), hown⟩
  have hrest : lists (line :: g.ended :: g.back) = lists (g.ended :: g.back) := by rw [lists, hline]
  conv_rhs => rw [g.split]
  rw [insert, lists_append g.front hmarker, lists_append g.front hmarker, List.filter_append, List.filter_append,
    ← List.cons_append, ← List.cons_append, lists_own _ hbody, lists_own _ hbody, hrest]

/-! ### Entries -/

/-- What an edit of a list gives. -/
theorem insertInRegion_eq {source region : Str} (g : Listing region (lines source)) (entry : Str) :
    insertInRegion source region entry = some (if ∃ line ∈ g.opened :: g.body, trim line = entry then source
      else joinLines (g.insert (g.indented entry)) ++ ['\n']) := by
  obtain ⟨front, opened, body, ended, back, hsplit, hfirst, hopens, hinside, hends⟩ := g
  have hsplit' : lines source = (front ++ opened :: body) ++ ended :: back := by simp [hsplit]
  have hstart : (lines source).findIdx? (fun line => trim line = openMarker region) = some front.length := by
    rw [hsplit]
    exact findIdx?_append_cons (fun line hline => decide_eq_false (hfirst line hline)) (decide_eq_true hopens)
  have hdrop : (lines source).drop front.length = (opened :: body) ++ ended :: back := by
    rw [hsplit, List.drop_left, List.cons_append]
  have hlength : ((opened :: body) ++ ended :: back).findIdx? (fun line => trim line = endMarker) =
      some (opened :: body).length := by
    refine findIdx?_append_cons ?_ (decide_eq_true hends)
    rw [List.forall_mem_cons]
    refine ⟨decide_eq_false ?_, fun line hline => decide_eq_false (hinside line hline)⟩
    rw [hopens]
    exact openMarker_ne_endMarker region
  have hplace : (opened :: body).length + front.length = (front ++ opened :: body).length := by
    rw [List.length_append, Nat.add_comm]
  have htake : (lines source).take (front ++ opened :: body).length = front ++ opened :: body := by
    rw [hsplit', List.take_left]
  have hback : (lines source).drop (front ++ opened :: body).length = ended :: back := by
    rw [hsplit', List.drop_left]
  rw [insertInRegion]
  change (((lines source).findIdx? fun line => trim line = openMarker region).bind fun start => _) = _
  rw [hstart, Option.bind_some, hdrop]
  change ((((opened :: body) ++ ended :: back).findIdx? fun line => trim line = endMarker).bind fun length => _) = _
  rw [hlength, Option.bind_some]
  dsimp only
  rw [hplace, htake, hback, List.drop_left]
  simp only [List.any_eq_true, decide_eq_true_eq]
  split_ifs
  · rfl
  · simp [Listing.insert, Listing.indented]

/-- Only a list that is there is edited. -/
theorem exists_listing {source region entry updated : Str} (h : insertInRegion source region entry = some updated) :
    Nonempty (Listing region (lines source)) := by
  obtain ⟨start, hstart, h⟩ := Option.bind_eq_some_iff.mp h
  obtain ⟨length, hlength, -⟩ := Option.bind_eq_some_iff.mp h
  obtain ⟨front, opened, rest, hsplit, rfl, hopens, hfirst⟩ := findIdx?_eq_some hstart
  have hopens : trim opened = openMarker region := of_decide_eq_true hopens
  rw [hsplit, List.drop_left, List.findIdx?_cons, if_neg] at hlength
  · obtain ⟨index, hindex, -⟩ := Option.map_eq_some_iff.mp hlength
    obtain ⟨body, ended, back, rfl, -, hends, hinside⟩ := findIdx?_eq_some hindex
    exact ⟨front, opened, body, ended, back, hsplit, fun line hline => of_decide_eq_false (hfirst line hline), hopens,
      fun line hline => of_decide_eq_false (hinside line hline), of_decide_eq_true hends⟩
  · rw [decide_eq_true_eq, hopens]
    exact openMarker_ne_endMarker region

section Entry

variable {source region entry : Str} (hentry : '\n' ∉ entry)
include hentry

/-- The lines of the text with the entry. -/
theorem lines_inserted (g : Listing region (lines source)) :
    lines (joinLines (g.insert (g.indented entry)) ++ ['\n']) = (g.insert (g.indented entry)).map stripCr := by
  refine lines_joinLines_newline (by simp [Listing.insert]) fun line hline => ?_
  obtain hline | rfl := g.mem_insert hline
  · exact newline_notMem_lines hline
  · exact List.not_mem_append
      (fun hc => newline_notMem_lines g.opened_mem ((List.takeWhile_prefix _).sublist.mem hc)) hentry

/-- An entry with white space around it is put in every time. -/
theorem insertInRegion_ne_self (htrim : trim entry ≠ entry) : insertInRegion source region entry ≠ some source := by
  intro heq
  obtain ⟨g⟩ := exists_listing heq
  have hnot : ¬ ∃ line ∈ g.opened :: g.body, trim line = entry := by
    rintro ⟨line, -, rfl⟩
    exact htrim (trim_trim line)
  rw [insertInRegion_eq g, if_neg hnot, Option.some_inj] at heq
  have hlength := congrArg List.length (lines_inserted hentry g)
  rw [heq, List.length_map, g.length_insert] at hlength
  omega

end Entry

/-- A marker: what the entry of a list must not be. -/
def IsMarkerText (entry : Str) : Prop := entry = endMarker ∨ ∃ region, entry = openMarker region

/-- Lines that are the same when they are trimmed open the same lists. -/
theorem opens?_congr {line line' : Str} (h : trim line = trim line') : opens? line = opens? line' := by
  rw [opens?, opens?, h]

section Entry

variable {source region entry : Str} (hentry : '\n' ∉ entry) (hmarker : ¬ IsMarkerText entry)
include hentry hmarker

/-- The list with the entry in it is the one of the new text. -/
theorem exists_inserted (htrim : trim entry = entry) (g : Listing region (lines source)) :
    ∃ g' : Listing region (lines (joinLines (g.insert (g.indented entry)) ++ ['\n'])),
      g'.body = (g.body ++ [g.indented entry]).map stripCr := by
  rw [lines_inserted hentry g]
  have hend : trim (g.indented entry) ≠ endMarker := by
    rw [g.trim_indented, htrim]
    exact fun heq => hmarker (.inl heq)
  exact ⟨(g.added hend).map trim_stripCr, rfl⟩

/-- An entry that is put into a list of its own is confined. -/
theorem confined_inserted (htrim : trim entry = entry) (g : Listing region (lines source)) (hown : g.Own) :
    Confined source region entry (joinLines (g.insert (g.indented entry)) ++ ['\n']) := by
  have hopens : opens? (g.indented entry) = none := by
    rw [Option.eq_none_iff_forall_ne_some]
    intro other hother
    rw [opens?_eq_some, g.trim_indented, htrim] at hother
    exact hmarker (.inr ⟨other, hother⟩)
  have hbare : (lines (joinLines (g.insert (g.indented entry)) ++ ['\n'])).map bareLine =
      (g.insert (g.indented entry)).map bareLine := by
    rw [lines_inserted hentry g, List.map_map]
    exact List.map_congr_left fun line _ => bareLine_stripCr line
  obtain ⟨g', hbody⟩ := exists_inserted hentry hmarker htrim g
  have hthere : ∃ line ∈ g'.body, trim line = entry := by
    refine ⟨stripCr (g.indented entry), by simp [hbody], ?_⟩
    rw [trim_stripCr, g.trim_indented, htrim]
  have hown' : g'.Own := by
    intro line hline other hother
    rw [hbody] at hline
    obtain ⟨l, hl, rfl⟩ := List.mem_map.mp hline
    rw [opens?_congr (trim_stripCr l)] at hother
    obtain hl | hl := List.mem_append.mp hl
    · exact hown l hl other hother
    · rw [List.mem_singleton.mp hl, hopens] at hother
      cases hother
  refine ⟨?_, ⟨g', hown', by rwa [htrim]⟩, ?_, ?_⟩
  · rw [hbare]
    exact (g.sublist_insert _).map bareLine
  · have hbareown : (g.map trim_bareLine).Own := by
      intro line hline other hother
      obtain ⟨l, hl, rfl⟩ := List.mem_map.mp hline
      exact hown l hl other (opens?_congr (trim_bareLine l) ▸ hother)
    have hbareopens : opens? (bareLine (g.indented entry)) = none := (opens?_congr (trim_bareLine _)).trans hopens
    rw [otherLists, hbare, g.map_insert bareLine trim_bareLine, Listing.lists_insert _ hbareown hbareopens, otherLists]
  · obtain ⟨line, hline, htext⟩ := hthere
    rw [insertInRegion_eq g', if_pos ⟨line, List.mem_cons_of_mem _ hline, htext⟩]

theorem confined_iff :
    (∀ updated, insertInRegion source region entry = some updated → Confined source region entry updated) ↔
      ∀ g : Listing region (lines source), trim entry = entry ∧ g.Own := by
  have hopened : ∀ g : Listing region (lines source), trim g.opened ≠ entry := fun g heq =>
    hmarker (.inr ⟨region, heq.symm.trans g.opens⟩)
  constructor
  · intro hall g
    have hedit := insertInRegion_eq g entry
    have hconfined := hall _ hedit
    have htrim : trim entry = entry := by
      by_contra hne
      exact insertInRegion_ne_self hentry hne hconfined.again
    refine ⟨htrim, fun line hline other hother => ?_⟩
    by_cases hthere : ∃ line ∈ g.opened :: g.body, trim line = entry
    · rw [if_pos hthere] at hconfined
      obtain ⟨g', hown', -⟩ := hconfined.listed
      exact hown' line (g.body_unique g' ▸ hline) other hother
    · rw [if_neg hthere] at hconfined
      obtain ⟨g', hown', -⟩ := hconfined.listed
      obtain ⟨g'', hbody⟩ := exists_inserted hentry hmarker htrim g
      have hmem : stripCr line ∈ g'.body := by
        rw [g'.body_unique g'', hbody]
        exact List.mem_map_of_mem (List.mem_append_left _ hline)
      exact hown' (stripCr line) hmem other (opens?_congr (trim_stripCr line) ▸ hother)
  · intro hcond updated h
    obtain ⟨g⟩ := exists_listing h
    obtain ⟨htrim, hown⟩ := hcond g
    have hedit := (insertInRegion_eq g entry).symm.trans h
    rw [Option.some_inj] at hedit
    split_ifs at hedit with hthere
    · subst hedit
      obtain ⟨line, hline, htext⟩ := hthere
      obtain rfl | hline := List.mem_cons.mp hline
      · exact absurd htext (hopened g)
      · exact ⟨List.Sublist.refl _, ⟨g, hown, line, hline, htext.trans htrim.symm⟩, rfl, h⟩
    · rw [← hedit]
      exact confined_inserted hentry hmarker htrim g hown

end Entry

/-! ### Both edits -/

/-- A declaration is put in and nothing else changes if it goes behind the last line or this has no space at its end;
    an entry is if it has none around it, and the list has an end of its own. -/
theorem edits_confined_iff (source : Str) :
    (∀ stem, declares source stem = false → (Conservative source stem ↔ '\n' ∉ stem ∧ TidyEnd source)) ∧
      ∀ region entry, '\n' ∉ entry → ¬ IsMarkerText entry →
        ((∀ updated, insertInRegion source region entry = some updated → Confined source region entry updated) ↔
          ∀ g : Listing region (lines source), trim entry = entry ∧ g.Own) :=
  ⟨fun _ h => conservative_iff h, fun _ _ hentry hmarker => confined_iff hentry hmarker⟩

/-- A list that lost its end, in front of another. -/
def unended : Str :=
  unlines ["// arc:modules descriptors".toList, "// arc:modules routes".toList, "// arc:end".toList]

/-- The entry of the first list goes to the second. -/
theorem lost_end : ¬ ∀ (source region entry updated : Str), '\n' ∉ entry → ¬ IsMarkerText entry →
    insertInRegion source region entry = some updated → Confined source region entry updated := by
  intro hall
  have hmarker : ¬ IsMarkerText "user::user_module().clone(),".toList := by
    rintro (heq | ⟨region, heq⟩)
    · exact absurd heq (by decide)
    · have hhead : some 'u' = some '/' := congrArg List.head? heq
      simp at hhead
  have hothers := (hall unended "descriptors".toList _ _ (by decide) hmarker rfl).others
  exact absurd hothers (by decide +kernel)

end Arcature.Cli.Make

import Arcature.Lib.Json
import Arcature.Lib.Lines

/-! The module tree of a Rust crate, over its files.

    A module file declares modules, one on a line. What it declares lives in its home directory: a
    `mod.rs` has the directory it stands in for one, any other file the directory of its own name
    beside it.

        src/mod.rs          pub mod shapes;   its home is src/: src/shapes.rs or src/shapes/mod.rs
        src/shapes/mod.rs   pub mod disc;     src/shapes/disc.rs or src/shapes/disc/mod.rs

    A tree is well formed below its top directories if every `mod.rs` there declares distinct legal
    names, each with exactly one file, and is declared by the `mod.rs` above it. Then a declared file
    is reached from the top by exactly one chain of `pub mod` declarations. -/

namespace Arcature.Lib.Rust

/-- A path, as its components. -/
abbrev Path := List Str

/-- A project: the texts of its files, by path. -/
abbrev Tree := Map Path Str

/-! ### Names -/

/-- The words of the 2024 edition that name no module: keywords, and those kept for later. -/
def keywords : List Str :=
  ["as", "async", "await", "break", "const", "continue", "crate", "dyn", "else", "enum", "extern", "false",
    "fn", "for", "if", "impl", "in", "let", "loop", "match", "mod", "move", "mut", "pub", "ref", "return",
    "self", "Self", "static", "struct", "super", "trait", "true", "type", "unsafe", "use", "where", "while",
    "abstract", "become", "box", "do", "final", "gen", "macro", "override", "priv", "try", "typeof",
    "unsized", "virtual", "yield"].map String.toList

/-- A character an identifier goes on with. -/
def isIdentChar (c : Char) : Bool := c.isAlphanum || c == '_'

/-- An identifier that may name a module file; such names are ASCII. -/
def isIdent : Str → Bool
  | [] => false
  | c :: rest => (c.isAlpha || (c == '_' && !rest.isEmpty)) && rest.all isIdentChar

/-- A legal name for a module. -/
def IsModuleName (name : Str) : Prop := isIdent name = true ∧ name ∉ keywords

instance (name : Str) : Decidable (IsModuleName name) := inferInstanceAs (Decidable (_ ∧ _))

/-! ### Declarations -/

/-- A module declared without a body. -/
structure Decl where
  isPub : Bool
  name : Str
  deriving DecidableEq

/-- How a declaration opens. -/
def opening (isPub : Bool) : Str := if isPub then "pub mod ".toList else "mod ".toList

/-- A declaration as it is written. -/
def Decl.text (m : Decl) : Str := opening m.isPub ++ m.name ++ [';']

/-- A line that opens as a declaration does, and what follows. -/
def opened? (line : Str) : Option (Bool × Str) :=
  match Str.stripPrefix (opening true) line with
  | some rest => some (true, rest)
  | none => (Str.stripPrefix (opening false) line).map (false, ·)

/-- The declaration a line starts with. What stands behind its semicolon is not looked at. -/
def decl? (line : Str) : Option Decl :=
  (opened? line).bind fun (isPub, rest) =>
    if (rest.dropWhile isIdentChar).head? = some ';' then some ⟨isPub, rest.takeWhile isIdentChar⟩ else none

/-- A line that opens a module and does not declare it: its body follows, and no file is its own. -/
def inline? (line : Str) : Option Str :=
  if (opened? line).isSome ∧ decl? line = none then some line else none

/-- The modules a text declares. -/
def decls (text : Str) : List Decl := Str.readLines decl? text

/-- The lines that open a module in place. -/
def inlines (text : Str) : List Str := Str.readLines inline? text

/-! ### Files -/

/-- The module file of a directory. -/
def rootFile (d : Path) : Path := d ++ ["mod.rs".toList]

/-- The file of a module beside the others of its directory. -/
def leafFile (d : Path) (name : Str) : Path := d ++ [name ++ ".rs".toList]

/-- There is a file at a path. -/
def Present (t : Tree) (p : Path) : Prop := (t.get? p).isSome = true

instance (t : Tree) (p : Path) : Decidable (Present t p) := inferInstanceAs (Decidable (_ = _))

/-- The module file of a directory declares a public module. -/
def Declared (t : Tree) (d : Path) (name : Str) : Prop :=
  ∃ text, t.get? (rootFile d) = some text ∧ ⟨true, name⟩ ∈ decls text

/-- The module file of a directory, if there is one, declares no module of this name. -/
def Undeclared (t : Tree) (d : Path) (name : Str) : Prop :=
  ∀ text, t.get? (rootFile d) = some text → ∀ m ∈ decls text, m.name ≠ name

/-! ### Well-formed trees -/

/-- The text of the module file of `d` is as it should be. -/
structure Sound (t : Tree) (d : Path) (text : Str) : Prop where
  /-- No module is declared twice. -/
  nodup : ((decls text).map Decl.name).Nodup
  /-- Every declared name has its own file or its own directory, and not both. -/
  resolved : ∀ m ∈ decls text, Xor (Present t (leafFile d m.name)) (Present t (rootFile (d ++ [m.name])))
  /-- Every declared name is legal. -/
  named : ∀ m ∈ decls text, IsModuleName m.name
  /-- No module is declared with its body in place. -/
  bodiless : inlines text = []

variable (tops : List Str)

/-- A directory below one of the top ones, or a top one. -/
def InScope (d : Path) : Prop := ∃ top ∈ tops, [top] <+: d

instance (d : Path) : Decidable (InScope tops d) := inferInstanceAs (Decidable (∃ top ∈ tops, _))

/-- Well formed, but that some module files may still have to be declared above. -/
structure WellFormedBut (except : Set Path) (t : Tree) : Prop where
  placed : ∀ d name, InScope tops d → Present t (rootFile (d ++ [name])) → d ++ [name] ∉ except → Declared t d name
  sound : ∀ d text, InScope tops d → t.get? (rootFile d) = some text → Sound t d text

/-- The module trees below the top directories are well formed. -/
def WellFormed (t : Tree) : Prop := WellFormedBut tops ∅ t

/-! ### Chains -/

/-- The directory in which what a module file declares has its files. -/
inductive Home : Path → Path → Prop where
  | root (d : Path) : Home (rootFile d) d
  | leaf (d : Path) (name : Str) (h : name ≠ "mod".toList) : Home (leafFile d name) (d ++ [name])

/-- A chain of `pub mod` declarations from the module file of a top directory: for each link the
    place of the declaration in its text, and the file it resolves to. -/
inductive Chain (t : Tree) (top : Str) : List (ℕ × Path) → Path → Prop where
  | top : Present t (rootFile [top]) → Chain t top [] (rootFile [top])
  | link {c : List (ℕ × Path)} {f home g : Path} {text : Str} {i : ℕ} {name : Str} :
      Chain t top c f → t.get? f = some text → Home f home → (decls text)[i]? = some ⟨true, name⟩ →
      (g = leafFile home name ∨ g = rootFile (home ++ [name])) → Present t g →
      Chain t top (c ++ [(i, g)]) g

/-- A file is reached by exactly one chain from its top-level module file. -/
def Reached (t : Tree) (p : Path) : Prop := ∃ top, p.head? = some top ∧ ∃! c, Chain t top c p

/-! ### Reading declarations -/

@[simp] theorem decl?_nil : decl? [] = none := rfl

@[simp] theorem inline?_nil : inline? [] = none := rfl

theorem opened?_eq_some {line rest : Str} {isPub : Bool} :
    opened? line = some (isPub, rest) ↔ line = opening isPub ++ rest := by
  constructor
  · intro h
    rw [opened?] at h
    split at h
    · next hpub =>
      obtain ⟨rfl, rfl⟩ := Prod.mk.inj (Option.some.inj h)
      exact Str.stripPrefix_eq_some.mp hpub
    · obtain ⟨other, hbare, heq⟩ := Option.map_eq_some_iff.mp h
      obtain ⟨rfl, rfl⟩ := Prod.mk.inj heq
      exact Str.stripPrefix_eq_some.mp hbare
  · rintro rfl
    rw [opened?]
    cases isPub with
    | true => rw [Str.stripPrefix_append]
    | false =>
      have hnot : Str.stripPrefix (opening true) (opening false ++ rest) = none := rfl
      rw [hnot, Str.stripPrefix_append]
      rfl

/-- A declaration is read as it is written. -/
theorem decl?_text {m : Decl} (h : ∀ c ∈ m.name, isIdentChar c = true) : decl? m.text = some m := by
  have hopened : opened? m.text = some (m.isPub, m.name ++ [';']) := by
    rw [opened?_eq_some, Decl.text, List.append_assoc]
  have hsemi : isIdentChar ';' = false := by decide
  rw [decl?, hopened, Option.bind_some]
  dsimp only
  rw [List.dropWhile_append_of_pos h, List.takeWhile_append_of_pos h,
    List.dropWhile_cons_of_neg (by simp [hsemi]), List.takeWhile_cons_of_neg (by simp [hsemi]),
    if_pos List.head?_cons, List.append_nil]

/-- A line that opens no module is not read. -/
theorem unread_of_opened? {line : Str} (h : opened? line = none) : decl? line = none ∧ inline? line = none := by
  refine ⟨by rw [decl?, h]; rfl, ?_⟩
  rw [inline?, if_neg]
  simp [h]

theorem inline?_text {m : Decl} (h : ∀ c ∈ m.name, isIdentChar c = true) : inline? m.text = none := by
  rw [inline?, if_neg]
  rintro ⟨-, hnone⟩
  rw [decl?_text h] at hnone
  simp at hnone

theorem isIdentChar_of_isIdent {name : Str} (h : isIdent name = true) : ∀ c ∈ name, isIdentChar c = true := by
  cases name with
  | nil => simp
  | cons c rest =>
    simp only [isIdent, Bool.and_eq_true, Bool.or_eq_true, List.all_eq_true] at h
    obtain ⟨hc, hrest⟩ := h
    rintro d hd
    rcases List.mem_cons.mp hd with rfl | hd
    · rcases hc with hc | ⟨hc, -⟩
      · simp [isIdentChar, Char.isAlphanum, hc]
      · simp [isIdentChar, hc]
    · exact hrest d hd

/-! ### Paths -/

theorem rootFile_inj {d e : Path} : rootFile d = rootFile e ↔ d = e := List.append_left_inj _

theorem leafFile_inj {d e : Path} {a b : Str} : leafFile d a = leafFile e b ↔ d = e ∧ a = b := by
  constructor
  · intro h
    obtain ⟨hd, hname⟩ := List.append_inj' h rfl
    exact ⟨hd, List.append_cancel_right (List.singleton_inj.mp hname)⟩
  · rintro ⟨rfl, rfl⟩
    rfl

/-- A file of its own is a module file only under the name `mod`. -/
theorem leafFile_eq_rootFile {d e : Path} {name : Str} :
    leafFile d name = rootFile e ↔ d = e ∧ name = "mod".toList := by
  have hmod : rootFile e = leafFile e "mod".toList := rfl
  rw [hmod, leafFile_inj]

theorem isModuleName_ne_mod {name : Str} (h : IsModuleName name) : name ≠ "mod".toList := by
  rintro rfl
  exact h.2 (by decide)

/-- No module file declares itself. -/
theorem Sound.not_self {t : Tree} {d : Path} {text : Str} (h : Sound t d text) {m : Decl} (hm : m ∈ decls text) :
    m.name ≠ "mod".toList := isModuleName_ne_mod (h.named m hm)

variable {tops : List Str}

theorem InScope.append {d : Path} (h : InScope tops d) (e : Path) : InScope tops (d ++ e) := by
  obtain ⟨top, htop, hpre⟩ := h
  exact ⟨top, htop, hpre.trans (List.prefix_append d e)⟩

theorem InScope.ne_nil {d : Path} (h : InScope tops d) : d ≠ [] := by
  rintro rfl
  obtain ⟨top, -, hpre⟩ := h
  simp at hpre

/-- What a scope's directory has above it is in the scope, or it is a top directory. -/
theorem InScope.of_concat {d : Path} {name : Str} (h : InScope tops (d ++ [name])) :
    InScope tops d ∨ d = [] ∧ name ∈ tops := by
  obtain ⟨top, htop, hpre⟩ := h
  cases d with
  | nil =>
    rw [List.nil_append, List.cons_prefix_cons] at hpre
    exact Or.inr ⟨rfl, hpre.1 ▸ htop⟩
  | cons a d =>
    rw [List.cons_append, List.cons_prefix_cons] at hpre
    exact Or.inl ⟨top, htop, by rw [hpre.1]; simp⟩

theorem present_of_get? {t : Tree} {p : Path} {text : Str} (h : t.get? p = some text) : Present t p := by
  rw [Present, h]
  rfl

theorem Declared.present {t : Tree} {d : Path} {name : Str} (h : Declared t d name) : Present t (rootFile d) := by
  obtain ⟨text, htext, -⟩ := h
  exact present_of_get? htext

/-- A name without either file is not declared. -/
theorem WellFormedBut.undeclared {except : Set Path} {t : Tree} (h : WellFormedBut tops except t) {d : Path}
    {name : Str} (hd : InScope tops d) (hleaf : ¬ Present t (leafFile d name))
    (hroot : ¬ Present t (rootFile (d ++ [name]))) : Undeclared t d name := by
  rintro text htext m hm rfl
  rcases (h.sound d text hd htext).resolved m hm with ⟨hp, -⟩ | ⟨hp, -⟩
  · exact hleaf hp
  · exact hroot hp

/-! ### Exactly one chain -/

theorem Chain.present {t : Tree} {top : Str} {c : List (ℕ × Path)} {f : Path} (h : Chain t top c f) :
    Present t f := by
  cases h with
  | top hp => exact hp
  | link _ _ _ _ _ hp => exact hp

theorem home_below {top : Str} {f home d : Path} {name : Str} (hf : f = leafFile d name) (hd : [top] <+: d)
    (hh : Home f home) : [top] <+: home := by
  cases hh with
  | root e =>
    obtain ⟨rfl, -⟩ := leafFile_eq_rootFile.mp hf.symm
    exact hd
  | leaf e other _ =>
    obtain ⟨rfl, rfl⟩ := leafFile_inj.mp hf
    exact hd.trans (List.prefix_append _ _)

/-- A chain stays below its top directory. -/
theorem Chain.below_top {t : Tree} {top : Str} {c : List (ℕ × Path)} {f : Path} (h : Chain t top c f) :
    ∃ d name, f = leafFile d name ∧ [top] <+: d := by
  induction h with
  | top _ => exact ⟨[top], "mod".toList, rfl, List.prefix_refl _⟩
  | @link c f home g text i name _ _ hh _ hg _ ih =>
    obtain ⟨d, other, hf, hd⟩ := ih
    have htop := home_below hf hd hh
    rcases hg with rfl | rfl
    · exact ⟨home, name, rfl, htop⟩
    · exact ⟨home ++ [name], "mod".toList, rfl, htop.trans (List.prefix_append _ _)⟩

theorem Chain.home_ne_nil {t : Tree} {top : Str} {c : List (ℕ × Path)} {f home : Path} (h : Chain t top c f)
    (hh : Home f home) : home ≠ [] := by
  obtain ⟨d, name, hf, hd⟩ := h.below_top
  rintro rfl
  simpa using home_below hf hd hh

section Unique

variable {t : Tree} (hwf : WellFormed tops t)
include hwf

/-- Where a directory has a module file, no other file of a chain has it for a home. -/
theorem Chain.home_unique {top : Str} {c : List (ℕ × Path)} {f home : Path} (h : Chain t top c f)
    (hh : Home f home) (hscope : InScope tops home) (hp : Present t (rootFile home)) : f = rootFile home := by
  cases hh with
  | root d => rfl
  | leaf d name _ =>
    exfalso
    obtain ⟨e, other, hf, he⟩ := h.below_top
    obtain ⟨rfl, rfl⟩ := leafFile_inj.mp hf
    have hd : InScope tops d := by
      rcases hscope.of_concat with hd | ⟨rfl, -⟩
      · exact hd
      · simp at he
    obtain ⟨text, htext, hm⟩ := hwf.placed d name hd hp (Set.notMem_empty _)
    rcases (hwf.sound d text hd htext).resolved _ hm with ⟨-, hnot⟩ | ⟨-, hnot⟩
    · exact hnot hp
    · exact hnot h.present

/-- The last link of a chain to a module of `d`, when `d` has a module file: which declaration. -/
theorem Chain.last_link {top : Str} {c : List (ℕ × Path)} {g d : Path} {name : Str}
    (h : Chain t top c g) (hd : InScope tops d) (hp : Present t (rootFile d)) (hname : name ≠ "mod".toList)
    (hg : g = leafFile d name ∨ g = rootFile (d ++ [name])) :
    ∃ c' i text, Chain t top c' (rootFile d) ∧ t.get? (rootFile d) = some text ∧
      (decls text)[i]? = some ⟨true, name⟩ ∧ c = c' ++ [(i, g)] := by
  cases h with
  | top _ =>
    exfalso
    rcases hg with hg | hg
    · exact hname (leafFile_eq_rootFile.mp hg.symm).2
    · have hlen := congrArg List.length (rootFile_inj.mp hg)
      exact hd.ne_nil (by simpa using hlen)
  | @link c f home _ text i other hc htext hh hi hother _ =>
    have hmem : ⟨true, other⟩ ∈ decls text := List.mem_of_getElem? hi
    have key : home = d ∧ other = name := by
      rcases hother with rfl | rfl <;> rcases hg with hg | hg
      · exact leafFile_inj.mp hg
      · -- the module file of `d/name` as a declared `mod`: its own module file would declare it
        obtain ⟨rfl, rfl⟩ := leafFile_eq_rootFile.mp hg
        have hscope := hd.append [name]
        have hpres : Present t (rootFile (d ++ [name])) := by
          rw [← leafFile_eq_rootFile.mpr ⟨rfl, rfl⟩]
          assumption
        obtain rfl := hc.home_unique hwf hh hscope hpres
        exact absurd rfl ((hwf.sound _ _ hscope htext).not_self hmem)
      · exact absurd (leafFile_eq_rootFile.mp hg.symm).2 hname
      · obtain ⟨hhome, hother⟩ := List.append_inj' (rootFile_inj.mp hg) rfl
        exact ⟨hhome, List.singleton_inj.mp hother⟩
    obtain ⟨rfl, rfl⟩ := key
    obtain rfl := hc.home_unique hwf hh hd hp
    exact ⟨c, i, text, hc, htext, hi, rfl⟩

/-- One more declaration, from a module file that exactly one chain reaches. -/
theorem existsUnique_link {top : Str} {d g : Path} {name : Str} (hd : InScope tops d)
    (h : ∃! c, Chain t top c (rootFile d)) (hdecl : Declared t d name)
    (hg : g = leafFile d name ∨ g = rootFile (d ++ [name])) (hp : Present t g) : ∃! c, Chain t top c g := by
  obtain ⟨c, hc, hunique⟩ := h
  obtain ⟨text, htext, hm⟩ := hdecl
  have hsound := hwf.sound d text hd htext
  obtain ⟨i, hi⟩ := List.getElem?_of_mem hm
  refine ⟨c ++ [(i, g)], .link hc htext (.root d) hi hg hp, fun c₂ hc₂ => ?_⟩
  obtain ⟨c', j, text', hc', htext', hj, rfl⟩ :=
    hc₂.last_link hwf hd (present_of_get? htext) (hsound.not_self hm) hg
  obtain rfl : text' = text := Option.some.inj (htext'.symm.trans htext)
  have hij : i = j := by
    have hnames : ((decls text').map Decl.name)[i]? = ((decls text').map Decl.name)[j]? := by
      rw [List.getElem?_map, List.getElem?_map, hi, hj]
    have hlt : i < ((decls text').map Decl.name).length := by
      rw [List.length_map]
      exact (List.getElem?_eq_some_iff.mp hi).1
    exact (List.getElem?_inj hlt hsound.nodup).mp hnames
  rw [hunique c' hc', hij]

/-- The module file of a directory in scope is reached by exactly one chain. -/
theorem existsUnique_rootFile {top : Str} (htop : top ∈ tops) {d : Path} (hd : [top] <+: d)
    (hp : Present t (rootFile d)) : ∃! c, Chain t top c (rootFile d) := by
  obtain ⟨below, rfl⟩ := hd
  induction below using List.reverseRecOn with
  | nil =>
    refine ⟨[], .top hp, fun c hc => ?_⟩
    generalize hf : rootFile ([top] ++ []) = f at hc
    cases hc with
    | top _ => rfl
    | @link c f home _ text i name hc htext hh hi hg _ =>
      exfalso
      have hscope : InScope tops [top] := ⟨top, htop, List.prefix_refl _⟩
      rcases hg with rfl | rfl
      · obtain ⟨rfl, rfl⟩ := leafFile_eq_rootFile.mp hf.symm
        obtain rfl := hc.home_unique hwf hh hscope hp
        exact (hwf.sound _ _ hscope htext).not_self (List.mem_of_getElem? hi) rfl
      · have hlen := congrArg List.length (rootFile_inj.mp hf)
        exact hc.home_ne_nil hh (by simpa using hlen)
  | append_singleton below name ih =>
    rw [← List.append_assoc] at hp ⊢
    have hd : InScope tops ([top] ++ below) := ⟨top, htop, List.prefix_append _ _⟩
    have hdecl := hwf.placed _ _ hd hp (Set.notMem_empty _)
    exact existsUnique_link hwf hd (ih hdecl.present) hdecl (Or.inr rfl) hp

/-- In a well-formed tree every module file is reached, -/
theorem reached_rootFile {d : Path} (hd : InScope tops d) (hp : Present t (rootFile d)) : Reached t (rootFile d) := by
  obtain ⟨top, htop, hpre⟩ := hd
  obtain ⟨below, rfl⟩ := hpre
  exact ⟨top, rfl, existsUnique_rootFile hwf htop (List.prefix_append _ _) hp⟩

/-- and so is every file that a module file declares. -/
theorem reached_leafFile {d : Path} {name : Str} (hd : InScope tops d) (hdecl : Declared t d name)
    (hp : Present t (leafFile d name)) : Reached t (leafFile d name) := by
  have hscope := hd
  obtain ⟨top, htop, hpre⟩ := hd
  have hroot := existsUnique_rootFile hwf htop hpre hdecl.present
  obtain ⟨below, rfl⟩ := hpre
  exact ⟨top, rfl, existsUnique_link hwf hscope hroot hdecl (Or.inl rfl) hp⟩

end Unique

end Arcature.Lib.Rust

import Arcature.Cli.Dev.Loop
import Arcature.Lib.OsPath

/-! What a change to a file asks for (`cli/commands/dev/watch.rs`).

    A path is ignored if any of its components has the name of an ignored directory, or if the directory
    of generated files occurs in it. Otherwise its name decides:

        app/main.rs      rebuild        .env.local    restart
        Cargo.toml       rebuild        app.css       nothing
        target/x.rs      nothing

    The watcher reports absolute paths, and so the directories above the project are judged with those in
    it. A file that asks for something is then reported as if it were in an ignored directory exactly if
    the project is in one, or the generated directory occurs across its root (`classify_join_iff`). -/

namespace Arcature.Cli.Dev
open Arcature.Lib Arcature.Lib.OsPath

/-- `IGNORED_DIRECTORIES`. -/
def ignoredDirectories : List Str := ["target", "node_modules", ".arcature", ".git", "storage"].map String.toList

/-- `GENERATED_ASSETS`. -/
def generatedAssets : Str := "resources/js/generated/".toList

/-- The name of an ignored directory. -/
def isIgnoredName (name : Bytes) : Bool := ((Str.ofBytes? name).map (decide <| · ∈ ignoredDirectories)).getD false

/-- A component with the name of an ignored directory. -/
def isIgnoredComponent : Component → Bool
  | .normal name => isIgnoredName name
  | _ => false

/-- The generated directory occurs in a path, with either separator. -/
def isGenerated (path : Bytes) : Bool :=
  generatedAssets <:+: (lossy path).map fun c => if c = '\\' then '/' else c

/-- `ignored`. -/
def ignored (path : Bytes) : Bool := (components path).any isIgnoredComponent || isGenerated path

/-- What a path asks for by its name. -/
def asks (path : Bytes) : Option Change :=
  if extension path = some (Str.bytes "rs".toList) then some .rebuild
  else
    match (fileName path).bind Str.ofBytes? with
    | some name =>
      if name = "Cargo.toml".toList ∨ name = "Cargo.lock".toList then some .rebuild
      else if name = ".env".toList ∨ ".env.".toList <+: name then some .restart
      else none
    | none => none

/-- `classify`. -/
def classify (path : Bytes) : Option Change := if ignored path then none else asks path

/-- `watchable`. -/
def watchable (name : Bytes) : Bool := ((Str.ofBytes? name).map (decide <| · ∉ ignoredDirectories)).getD false

/-! ### Paths within a project -/

/-- A path within another is read as that one is from where it begins. -/
theorem isGenerated_join {root path : Bytes} (hrel : isAbsolute path = false) (h : isGenerated path = true) :
    isGenerated (join root path) = true := by
  by_cases hroot : root = []
  · subst hroot
    rw [join, hrel]
    exact h
  · obtain ⟨front, hjoin, -⟩ := join_eq hroot hrel
    refine decide_eq_true ((of_decide_eq_true h).trans ?_)
    rw [hjoin, lossy_append (by decide), List.map_append, List.map_cons]
    exact ((List.suffix_cons _ _).trans (List.suffix_append _ _)).isInfix

theorem components_of_relative {path : Bytes} (hrel : isAbsolute path = false) :
    components path = names path ∨ components path = .curDir :: names path := by
  rw [components, opening, hrel, if_neg Bool.false_ne_true]
  split_ifs
  · exact .inr rfl
  · exact .inl rfl

/-- Whether a component is ignored is seen behind the opening. -/
theorem any_components {path : Bytes} (hrel : isAbsolute path = false) :
    (components path).any isIgnoredComponent = (names path).any isIgnoredComponent := by
  rcases components_of_relative hrel with h | h
  · rw [h]
  · rw [h, List.any_cons]
    rfl

section Join
variable {root path : Bytes}

/-- Ignored names are those of the root and those of the path. -/
theorem any_components_join (hrel : isAbsolute path = false) : (components (join root path)).any isIgnoredComponent =
    ((components root).any isIgnoredComponent || (components path).any isIgnoredComponent) := by
  by_cases hroot : root = []
  · subst hroot
    have hjoin : join [] path = path := by rw [join, hrel]; rfl
    rw [hjoin]
    rfl
  · rw [components_join hroot hrel, List.any_append, any_components hrel]

/-- A path that names something has its name within any root. -/
theorem fileName_join (hrel : isAbsolute path = false) (hnames : names path ≠ []) :
    fileName (join root path) = fileName path := by
  have hlast : (components path).getLast? = (names path).getLast? := by
    rcases components_of_relative hrel with h | h
    · rw [h]
    · rw [h, List.getLast?_cons_of_ne_nil hnames]
  by_cases hroot : root = []
  · subst hroot
    rw [join, hrel]
    rfl
  · rw [fileName, fileName, components_join hroot hrel, List.getLast?_append_of_ne_nil _ hnames, hlast]

/-- A path that names nothing has the name of the root, and none of its own. -/
theorem fileName_join_of_names_eq_nil (hrel : isAbsolute path = false) (hnames : names path = []) :
    fileName (join root path) = fileName root ∧ fileName path = none := by
  have hpath : fileName path = none := by
    rw [fileName]
    rcases components_of_relative hrel with h | h <;> rw [h, hnames] <;> rfl
  refine ⟨?_, hpath⟩
  by_cases hroot : root = []
  · subst hroot
    have hjoin : join [] path = path := by rw [join, hrel]; rfl
    rw [hjoin, hpath]
    rfl
  · rw [fileName, fileName, components_join hroot hrel, hnames, List.append_nil]

end Join

/-- What a path asks for is decided by its name. -/
theorem asks_congr {p q : Bytes} (h : fileName p = fileName q) : asks p = asks q := by
  rw [asks, asks, extension, extension, h]

theorem asks_of_fileName {path : Bytes} (h : fileName path = none) : asks path = none := by
  rw [asks, extension, h]
  rfl

/-- Where a path asks for something and is not ignored, it is judged alike from another place exactly if it
    is not ignored there. -/
theorem classify_eq_iff {p q : Bytes} (h : asks p = asks q) (himp : ignored q = true → ignored p = true) :
    classify p = classify q ↔ asks q = none ∨ ignored q = true ∨ ignored p = false := by
  rw [classify, classify, h]
  cases hq : ignored q with
  | true => simp [himp hq]
  | false => cases ignored p <;> cases asks q <;> simp

/-- A change is judged by where it is within the project exactly if it asks for nothing, or is ignored by
    that, or neither an ignored directory nor the generated one is met on the way. The root itself asks for
    nothing, and must not by its own name. -/
theorem classify_join_iff {root path : Bytes} (hrel : isAbsolute path = false) :
    classify (join root path) = classify path ↔
      if names path = [] then asks root = none ∨ ignored (join root path) = true
      else asks path = none ∨ ignored path = true ∨
        (components root).any isIgnoredComponent = false ∧ isGenerated (join root path) = false := by
  have himp : ignored path = true → ignored (join root path) = true := by
    intro h
    rw [ignored, any_components_join hrel]
    rcases Bool.or_eq_true_iff.mp h with h | h
    · simp [h]
    · simp [isGenerated_join hrel h]
  split_ifs with hnames
  · obtain ⟨hroot, hpath⟩ := @fileName_join_of_names_eq_nil root path hrel hnames
    have hnone := asks_of_fileName hpath
    have hclassify : classify path = none := by rw [classify, hnone, ite_self]
    rw [hclassify, classify, asks_congr hroot]
    cases ignored (join root path) <;> simp
  · rw [classify_eq_iff (asks_congr (fileName_join hrel hnames)) himp]
    refine or_congr_right (or_congr_right' fun hpath => ?_)
    have hany : (components path).any isIgnoredComponent = false :=
      (Bool.or_eq_false_iff.mp (Bool.eq_false_iff.mpr hpath)).1
    rw [ignored, any_components_join hrel, hany, Bool.or_false, Bool.or_eq_false_iff]

/-- `app/service.rs` in `/home/me/shop`. -/
theorem service_judged_alike :
    classify (join (Str.bytes "/home/me/shop".toList) (Str.bytes "app/service.rs".toList)) =
      classify (Str.bytes "app/service.rs".toList) := by
  refine (classify_join_iff (by decide +kernel)).mpr ?_
  rw [if_neg (by decide +kernel)]
  refine .inr (.inr ⟨by decide +kernel, ?_⟩)
  rw [isGenerated, lossy_eq_map (by decide +kernel)]
  decide +kernel

/-- A project below a directory named `target` is never rebuilt. -/
theorem project_below_target_ignored :
    ¬ ∀ root path, isAbsolute path = false → classify (join root path) = classify path := by
  intro h
  have heq := h (Str.bytes "/home/me/target/shop".toList) (Str.bytes "app/service.rs".toList) (by decide +kernel)
  have hgenerated : isGenerated (Str.bytes "app/service.rs".toList) = false := by
    rw [isGenerated, lossy_eq_map (by decide +kernel)]
    decide +kernel
  have hbelow : (components (join (Str.bytes "/home/me/target/shop".toList)
      (Str.bytes "app/service.rs".toList))).any isIgnoredComponent = true := by decide +kernel
  have hwithin : (components (Str.bytes "app/service.rs".toList)).any isIgnoredComponent = false := by
    decide +kernel
  rw [classify, classify, ignored, ignored, hbelow, hwithin, hgenerated] at heq
  exact absurd heq (by decide +kernel)

end Arcature.Cli.Dev

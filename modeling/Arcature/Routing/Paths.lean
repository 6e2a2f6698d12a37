import Arcature.Lib.Text
import Mathlib.Data.List.DropRight

/-! Two ways to put a prefix in front of a path.

    `RouteGroup::new(prefix, ..)` joins when its routes are taken (`join_path` in `routing/mod.rs`):
    it trims the prefix and sees to a slash in between. The `routes!` macro joins at compile time
    (`join` in `macros/routes/path.rs`): it writes the two one after the other, and a path `/` not at
    all. Along a nesting the macro works from the outside in, the groups from the inside out:

        prefixes  /api   /v1/   path  users        macro  /api/v1/users      hand  /api/v1/users
                  /api/  /v1          /users              /api//v1/users           /api/v1/users
                  /auth               /                   /auth                    /auth/

    At a seam between two pieces the groups write no slash if the next piece brings its own, and one
    if it does not; the macro leaves there what the pieces bring. The two paths are the same exactly
    when what is left is what the groups write, at every seam (`macroPath_eq_handPath_iff`). -/

namespace Arcature.Routing
open Arcature.Lib

/-- `join_path` of the router. -/
def joinPath (pre suffix : Str) : Str :=
  let pre := pre.rdropWhile (· = '/')
  if suffix.head? = some '/' then pre ++ suffix
  else if suffix = [] then pre
  else pre ++ '/' :: suffix

/-- `join` of the macro. -/
def join (pre path : Str) : Str :=
  if pre = [] then path
  else if path = ['/'] then pre
  else pre ++ path

/-- The path the macro registers for a route under nested prefixes, the outermost first. -/
def macroPath (prefixes : List Str) (path : Str) : Str := join (prefixes.foldl join []) path

/-- The path of the same route in as many nested groups. -/
def handPath (prefixes : List Str) (path : Str) : Str := prefixes.foldr joinPath path

/-! ### Seams -/

/-- A prefix without its trailing slashes. -/
def core (pre : Str) : Str := pre.rdropWhile (· = '/')

/-- The number of its trailing slashes. -/
def slashes (pre : Str) : ℕ := (pre.rtakeWhile (· = '/')).length

/-- The number of slashes a piece needs in front of it. -/
def gap (piece : Str) : ℕ := if piece = [] ∨ piece.head? = some '/' then 0 else 1

/-- With `k` slashes left at the end of what is written: the pieces that follow need as many. A
    prefix `/` is not written, a longer one of slashes only adds to what is left. -/
def Meets (k : ℕ) : List Str → Str → Prop
  | [], path => k = if path = ['/'] then 1 else gap path
  | pre :: prefixes, path =>
    if pre = ['/'] then Meets k prefixes path
    else if core pre = [] then Meets (k + slashes pre) prefixes path
    else k = gap pre ∧ Meets (slashes pre) prefixes path

/-- After prefixes that are empty, a slash may be due where nothing was written yet. -/
def MeetsFirst : List Str → Str → Prop
  | [], path => gap path = 0
  | pre :: prefixes, path =>
    if pre = [] then MeetsFirst prefixes path else gap pre = 0 ∧ Meets (slashes pre) prefixes path

/-- At every seam the pieces bring the slashes that the groups would write. -/
def Seams : List Str → Str → Prop
  | [], _ => True
  | pre :: prefixes, path =>
    if pre = [] then MeetsFirst prefixes path else Meets (slashes pre) prefixes path

theorem core_append_slashes (pre : Str) : core pre ++ List.replicate (slashes pre) '/' = pre := by
  have hslashes : pre.rtakeWhile (· = '/') = List.replicate (slashes pre) '/' :=
    List.eq_replicate_iff.mpr ⟨rfl, fun c hc => by simpa using List.mem_rtakeWhile_imp hc⟩
  rw [core, ← hslashes]
  exact List.rdropWhile_append_rtakeWhile

theorem joinPath_eq (pre suffix : Str) :
    joinPath pre suffix = core pre ++ (List.replicate (gap suffix) '/' ++ suffix) := by
  unfold joinPath gap core
  by_cases hslash : suffix.head? = some '/'
  · simp [hslash]
  · by_cases hempty : suffix = []
    · simp [hempty]
    · simp [hslash, hempty]

theorem gap_core {pre : Str} (h : core pre ≠ []) (rest : Str) : gap (core pre ++ rest) = gap pre := by
  have hpre := core_append_slashes pre
  obtain ⟨c, t, hc⟩ := List.exists_cons_of_ne_nil h
  rw [hc, List.cons_append] at hpre
  rw [hc, ← hpre]
  simp [gap]

theorem slash_of_core_nil {pre : Str} (h : core pre = []) : pre = List.replicate (slashes pre) '/' := by
  have hpre := core_append_slashes pre
  rw [h, List.nil_append] at hpre
  exact hpre.symm

theorem gap_slashes (n : ℕ) : gap (List.replicate n '/') = 0 := by
  cases n <;> simp [gap, List.replicate_succ]

/-- A slash in front of a path that needs one leaves it in need of none. -/
theorem gap_filled (s : Str) : gap (List.replicate (gap s) '/' ++ s) = 0 := by
  by_cases h : s = [] ∨ s.head? = some '/'
  · have hzero : gap s = 0 := if_pos h
    rw [hzero, List.replicate_zero, List.nil_append, hzero]
  · have hone : gap s = 1 := if_neg h
    rw [hone, gap]
    simp

theorem replicate_cons_inj {c d : Char} (hc : c ≠ '/') (hd : d ≠ '/') {j k : ℕ} {s t : Str}
    (h : List.replicate j '/' ++ c :: s = List.replicate k '/' ++ d :: t) : j = k ∧ c :: s = d :: t := by
  induction j generalizing k with
  | zero =>
    cases k with
    | zero => simpa using h
    | succ k => simp [List.replicate_succ, hc] at h
  | succ j ih =>
    cases k with
    | zero => simp [List.replicate_succ, Ne.symm hd] at h
    | succ k =>
      rw [List.replicate_succ, List.replicate_succ, List.cons_append, List.cons_append,
        List.cons.injEq] at h
      obtain ⟨rfl, hrest⟩ := ih h.2
      exact ⟨rfl, hrest⟩

theorem exists_nonslash {l : Str} (h : ∃ c ∈ l, c ≠ '/') :
    ∃ n c s, l = List.replicate n '/' ++ c :: s ∧ c ≠ '/' := by
  induction l with
  | nil => simp at h
  | cons a l ih =>
    by_cases ha : a = '/'
    · subst ha
      obtain ⟨n, c, s, rfl, hc⟩ := ih (by simpa using h)
      exact ⟨n + 1, c, s, by rw [List.replicate_succ, List.cons_append], hc⟩
    · exact ⟨0, a, l, rfl, ha⟩

/-- Slashes in front of a piece that holds more than slashes can be counted. -/
theorem core_cancel {pre : Str} (h : core pre ≠ []) {j k : ℕ} {s t : Str} :
    List.replicate j '/' ++ (core pre ++ s) = List.replicate k '/' ++ (core pre ++ t) ↔
      j = k ∧ s = t := by
  have hlast : (core pre).getLast h ≠ '/' := fun heq =>
    List.rdropWhile_last_not _ _ h (decide_eq_true heq)
  obtain ⟨n, c, rest, hcore, hc⟩ :=
    exists_nonslash ⟨(core pre).getLast h, List.getLast_mem h, hlast⟩
  constructor
  · intro heq
    rw [hcore, List.append_assoc, List.append_assoc, List.cons_append, List.cons_append,
      ← List.append_assoc, ← List.append_assoc, List.replicate_append_replicate,
      List.replicate_append_replicate] at heq
    obtain ⟨hn, hrest⟩ := replicate_cons_inj hc hc heq
    exact ⟨by omega, by simpa using hrest⟩
  · rintro ⟨rfl, rfl⟩
    rfl

/-! ### The two paths -/

/-- What the macro writes after a first prefix that is not empty. -/
def macroTail (prefixes : List Str) (path : Str) : Str :=
  (prefixes.filter (· ≠ ['/'])).flatten ++ if path = ['/'] then [] else path

theorem macroPath_cons {pre : Str} (h : pre ≠ []) (prefixes : List Str) (path : Str) :
    macroPath (pre :: prefixes) path = pre ++ macroTail prefixes path := by
  have hfold : ∀ acc : Str, acc ≠ [] →
      prefixes.foldl join acc = acc ++ (prefixes.filter (· ≠ ['/'])).flatten := by
    induction prefixes with
    | nil => simp
    | cons p prefixes ih =>
      intro acc hacc
      by_cases hp : p = ['/']
      · simp [join, hacc, hp, ih acc hacc]
      · simp [join, hacc, hp, ih (acc ++ p) (by simp [hacc])]
  have hjoined : pre ++ (prefixes.filter (· ≠ ['/'])).flatten ≠ [] := by simp [h]
  rw [macroPath, List.foldl_cons, show join [] pre = pre from rfl, hfold pre h, join, if_neg hjoined,
    macroTail]
  split_ifs <;> simp

theorem macroPath_nil_cons (prefixes : List Str) (path : Str) :
    macroPath ([] :: prefixes) path = macroPath prefixes path := rfl

theorem handPath_cons (pre : Str) (prefixes : List Str) (path : Str) :
    handPath (pre :: prefixes) path = core pre ++
      (List.replicate (gap (handPath prefixes path)) '/' ++ handPath prefixes path) := by
  rw [← joinPath_eq]
  rfl

theorem handPath_of_core_nil {pre : Str} (h : core pre = []) (prefixes : List Str) (path : Str) :
    List.replicate (gap (handPath (pre :: prefixes) path)) '/' ++ handPath (pre :: prefixes) path =
      List.replicate (gap (handPath prefixes path)) '/' ++ handPath prefixes path := by
  rw [handPath_cons, h, List.nil_append, gap_filled, List.replicate_zero, List.nil_append]

theorem macroTail_cons {pre : Str} (h : pre ≠ ['/']) (prefixes : List Str) (path : Str) :
    macroTail (pre :: prefixes) path = pre ++ macroTail prefixes path := by
  simp [macroTail, h]

/-- The slashes left meet what follows exactly when both joins go on alike. -/
theorem meets_iff (k : ℕ) (prefixes : List Str) (path : Str) :
    Meets k prefixes path ↔ List.replicate k '/' ++ macroTail prefixes path =
      List.replicate (gap (handPath prefixes path)) '/' ++ handPath prefixes path := by
  induction prefixes generalizing k with
  | nil =>
    by_cases hroot : path = ['/']
    · subst hroot
      have hone : List.replicate k '/' = ['/'] ↔ k = 1 := by
        rw [eq_comm, List.eq_replicate_iff]
        simp [eq_comm]
      simpa [Meets, macroTail, handPath, gap] using hone.symm
    · simp [Meets, macroTail, handPath, hroot]
  | cons pre prefixes ih =>
    rw [Meets]
    split_ifs with hroot hcore
    · have hskip : macroTail (pre :: prefixes) path = macroTail prefixes path := by
        simp [macroTail, hroot]
      rw [hskip, handPath_of_core_nil (by rw [hroot]; decide), ih]
    · have hpre := slash_of_core_nil hcore
      rw [macroTail_cons hroot, handPath_of_core_nil hcore, ih, ← List.append_assoc]
      conv_rhs => rw [hpre, List.replicate_append_replicate]
    · have hpre := core_append_slashes pre
      rw [macroTail_cons hroot, handPath_cons, gap_core hcore, ih]
      conv_rhs => 
        lhs
        rw [← hpre, List.append_assoc]
      rw [core_cancel hcore]

theorem macroPath_cons_split {pre : Str} (h : pre ≠ []) (prefixes : List Str) (path : Str) :
    macroPath (pre :: prefixes) path =
      core pre ++ (List.replicate (slashes pre) '/' ++ macroTail prefixes path) := by
  rw [macroPath_cons h, ← List.append_assoc, core_append_slashes]

/-- After empty prefixes a slash is due in front of whatever is first. -/
theorem meetsFirst_iff (prefixes : List Str) (path : Str) :
    MeetsFirst prefixes path ↔ macroPath prefixes path =
      List.replicate (gap (handPath prefixes path)) '/' ++ handPath prefixes path := by
  induction prefixes with
  | nil =>
    have hmacro : macroPath [] path = path := rfl
    have hhand : handPath [] path = path := rfl
    rw [MeetsFirst, hmacro, hhand, List.self_eq_append_left, List.replicate_eq_nil_iff]
  | cons pre prefixes ih =>
    rw [MeetsFirst]
    split_ifs with hpre
    · subst hpre
      rw [macroPath_nil_cons, handPath_of_core_nil rfl, ih]
    · rw [macroPath_cons_split hpre, meets_iff]
      by_cases hcore : core pre = []
      · have hgap : gap pre = 0 := by rw [slash_of_core_nil hcore, gap_slashes]
        rw [handPath_of_core_nil hcore, hcore, List.nil_append, hgap]
        exact and_iff_right rfl
      · have hzero : ∀ s, core pre ++ s = List.replicate 0 '/' ++ (core pre ++ s) := fun s => rfl
        rw [handPath_cons, gap_core hcore, hzero (List.replicate (slashes pre) '/' ++ _),
          core_cancel hcore, eq_comm]

/-- The macro and the nested groups register the same path exactly when the pieces bring at every
    seam the slashes that the groups write. -/
theorem macroPath_eq_handPath_iff (prefixes : List Str) (path : Str) :
    macroPath prefixes path = handPath prefixes path ↔ Seams prefixes path := by
  cases prefixes with
  | nil => simp [macroPath, handPath, join, Seams]
  | cons pre prefixes =>
    rw [Seams]
    split_ifs with hpre
    · subst hpre
      rw [meetsFirst_iff, macroPath_nil_cons, handPath_cons]
      rfl
    · rw [macroPath_cons_split hpre, handPath_cons, List.append_cancel_left_eq, meets_iff]

/-- The root of a group: the macro registers the prefix, a group the prefix and a slash. -/
theorem root_registered_apart :
    macroPath ["/auth".toList] "/".toList = "/auth".toList ∧
      handPath ["/auth".toList] "/".toList = "/auth/".toList := by
  decide

end Arcature.Routing

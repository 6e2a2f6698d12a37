import Arcature.Cli.Dev.Classify

/-! The directories that are watched (`cli/commands/dev/watch.rs`).

    The root is watched shallowly, and every directory directly below it by itself, unless it is ignored.
    What the platform reports is turned into signals on a thread of its own, and the loop that takes the
    signals subscribes to directories that have appeared:

        create, delete, touch ──▶ notices ──deliver──▶ signals ──receive──▶ pending | subscribe

    The platform forgets a directory that is deleted, and the loop does not: it never subscribes again to
    one it has subscribed to. When all is received, a directory is watched exactly if it was not deleted
    after it had been subscribed to (`mem_watcher_iff`). -/

namespace Arcature.Cli.Dev
open Arcature.Lib

/-- `Watch`, with the directories that the platform watches for it. -/
structure Watch where
  watcher : Finset Path
  signals : List Signal
  subscribed : Finset Path
  pending : Option Change

namespace Watch

/-- `subscribe`. The directory is registered if it is there. -/
def subscribe (w : Watch) (isDir : Path → Bool) (path : Path) : Watch :=
  if path ∈ w.subscribed then w
  else if isDir path then { w with watcher := insert path w.watcher, subscribed := insert path w.subscribed }
  else w

/-- What the loop of `next_change` does with a signal. -/
def absorb (w : Watch) (isDir : Path → Bool) : Signal → Watch
  | .changed change => { w with pending := some ((w.pending.map (·.max change)).getD change) }
  | .appeared path => w.subscribe isDir path

/-- The first signal is taken off the channel. -/
def receive (w : Watch) (isDir : Path → Bool) : Watch :=
  match w.signals with
  | [] => w
  | signal :: signals => absorb { w with signals } isDir signal

end Watch

/-- `watchable`, of a name that is text. -/
def isWatchable (name : Path) : Bool := watchable (Str.bytes name)

/-! ### What the platform reports -/

/-- The path of a file below the root, by its names. -/
def pathBelow (root : Bytes) (names : List Path) : Bytes :=
  names.foldl (fun path name => OsPath.join path (Str.bytes name)) root

/-- The callback of the watcher: the costliest change that the paths of an event ask for, and the
    directories among them that stand directly below the root. -/
def callback (root : Bytes) (isDir : Path → Bool) (paths : List (List Path)) : List Signal :=
  let changed := (paths.filterMap fun names => classify (pathBelow root names)).foldl
    (fun (held : Option Change) change => some ((held.map (·.max change)).getD change)) none
  (changed.map Signal.changed).toList ++ paths.filterMap fun
    | [name] => if isWatchable name && isDir name then some (.appeared name) else none
    | _ => none

/-- The directories directly below the root, the events that are not delivered yet, and the watch. -/
structure Project where
  tree : Finset Path
  notices : List (List (List Path))
  watch : Watch

/-- What happens to a project. -/
inductive Activity where
  | create (name : Path)
  | delete (name : Path)
  | touch (paths : List (List Path))
  | deliver
  | receive

namespace Project

/-- Whether there is a directory of a name. -/
def isDir (p : Project) (name : Path) : Bool := name ∈ p.tree

variable (root : Bytes)

/-- One step. With a directory goes what the platform watches for it. -/
def step (p : Project) : Activity → Project
  | .create name =>
    if name ∈ p.tree then p else { p with tree := insert name p.tree, notices := p.notices ++ [[[name]]] }
  | .delete name =>
    if name ∈ p.tree then
      { tree := p.tree.erase name, notices := p.notices ++ [[[name]]]
        watch := { p.watch with watcher := p.watch.watcher.erase name } }
    else p
  | .touch paths => { p with notices := p.notices ++ [paths] }
  | .deliver =>
    match p.notices with
    | [] => p
    | paths :: notices =>
      { p with notices, watch := { p.watch with signals := p.watch.signals ++ callback root p.isDir paths } }
  | .receive => { p with watch := p.watch.receive p.isDir }

/-- `Watch::start`. -/
def start (tree : Finset Path) : Project :=
  let watched := tree.filter fun name => isWatchable name = true
  ⟨tree, [], ⟨watched, [], watched, none⟩⟩

end Project

/-- A project that is watched from some tree on. -/
def watched (root : Bytes) (tree : Finset Path) : Machine Project Activity Unit :=
  ⟨Project.start tree, fun p a => (p.step root a, ())⟩

/-! ### What is watched -/

/-- A directory was deleted that had been subscribed to. -/
def Forgotten (root : Bytes) (tree : Finset Path) (name : Path) (es : List Activity) : Prop :=
  ∃ i, (watched root tree).Fires es i fun p a => a = .delete name ∧ name ∈ p.tree ∧ name ∈ p.watch.subscribed

/-- Nothing is left to deliver or to receive. -/
def Project.Settled (p : Project) : Prop := p.notices = [] ∧ p.watch.signals = []

/-- Every directory that is watchable is watched, and no other one. -/
def Project.Covered (p : Project) : Prop :=
  (∀ name ∈ p.tree, isWatchable name = true → name ∈ p.watch.watcher) ∧
    ∀ name ∈ p.watch.watcher, name ∈ p.tree ∧ isWatchable name = true

/-- A directory that is there is subscribed to, or will be. -/
def Project.Known (p : Project) (name : Path) : Prop :=
  name ∈ p.watch.subscribed ∨ .appeared name ∈ p.watch.signals ∨ ∃ paths ∈ p.notices, [name] ∈ paths

namespace Watch

/-- Receiving takes one signal, and subscribes to what it says has appeared. -/
theorem receive_spec (w : Watch) (isDir : Path → Bool) :
    (w.receive isDir).signals = w.signals.tail ∧
      (∀ name, name ∈ (w.receive isDir).subscribed ↔
        name ∈ w.subscribed ∨ (w.signals.head? = some (.appeared name) ∧ isDir name = true)) ∧
      ∀ name, name ∈ (w.receive isDir).watcher ↔
        name ∈ w.watcher ∨ (w.signals.head? = some (.appeared name) ∧ isDir name = true ∧ name ∉ w.subscribed) := by
  rw [receive]
  cases hsignals : w.signals with
  | nil => exact ⟨hsignals, by simp, by simp⟩
  | cons signal rest =>
    cases signal with
    | changed change => exact ⟨rfl, by simp [absorb], by simp [absorb]⟩
    | appeared path =>
      have heq : ∀ name, some (Signal.appeared path) = some (.appeared name) ↔ name = path := by
        intro name
        rw [Option.some_inj, Signal.appeared.injEq, eq_comm]
      simp only [absorb, subscribe, List.tail_cons, List.head?_cons, heq]
      split_ifs with hsub hdir
      · exact ⟨rfl, by aesop, by aesop⟩
      · exact ⟨rfl, by aesop, by aesop⟩
      · exact ⟨rfl, by aesop, by aesop⟩

end Watch

/-- A directory that a delivered event names is said to have appeared, if it is there. -/
theorem appeared_mem_callback {root : Bytes} {isDir : Path → Bool} {paths : List (List Path)} {name : Path} :
    .appeared name ∈ callback root isDir paths ↔
      [name] ∈ paths ∧ isWatchable name = true ∧ isDir name = true := by
  rw [callback, List.mem_append, List.mem_filterMap]
  constructor
  · rintro (h | ⟨names, hnames, heq⟩)
    · simp at h
    · split at heq
      · rename_i name'
        split_ifs at heq with hboth
        cases heq
        exact ⟨hnames, Bool.and_eq_true_iff.mp hboth⟩
      · cases heq
  · rintro ⟨hmem, hwatchable, hdir⟩
    exact .inr ⟨[name], hmem, by simp [hwatchable, hdir]⟩

/-- What is known stays known while nothing is taken away. -/
theorem Project.Known.mono {p q : Project} {name : Path} (h : p.Known name)
    (hsub : p.watch.subscribed ⊆ q.watch.subscribed) (hsignals : p.watch.signals ⊆ q.watch.signals)
    (hnotices : p.notices ⊆ q.notices) : q.Known name := by
  rcases h with h | h | ⟨paths, hpaths, hmem⟩
  · exact .inl (hsub h)
  · exact .inr (.inl (hsignals h))
  · exact .inr (.inr ⟨paths, hnotices hpaths, hmem⟩)

/-- What holds of one name after any schedule. -/
structure Followed (root : Bytes) (tree : Finset Path) (name : Path) (es : List Activity) (p : Project) : Prop where
  watched_iff : name ∈ p.watch.watcher ↔ name ∈ p.watch.subscribed ∧ ¬ Forgotten root tree name es
  there : name ∈ p.watch.watcher → name ∈ p.tree
  forgotten : Forgotten root tree name es → name ∈ p.watch.subscribed
  watchable : name ∈ p.watch.subscribed ∨ .appeared name ∈ p.watch.signals → isWatchable name = true
  known : name ∈ p.tree → isWatchable name = true → p.Known name

section Runs
variable {root : Bytes} {tree : Finset Path} {name : Path}

theorem forgotten_concat {es : List Activity} {a : Activity} : Forgotten root tree name (es ++ [a]) ↔
    Forgotten root tree name es ∨ (a = .delete name ∧ name ∈ ((watched root tree).run es).tree ∧
      name ∈ ((watched root tree).run es).watch.subscribed) := by
  simp only [Forgotten, Machine.fires_concat]
  constructor
  · rintro ⟨i, h | ⟨rfl, h⟩⟩
    · exact .inl ⟨i, h⟩
    · exact .inr h
  · rintro (⟨i, h⟩ | h)
    · exact ⟨i, .inl h⟩
    · exact ⟨es.length, .inr ⟨rfl, h⟩⟩

theorem followed_start : Followed root tree name [] (Project.start tree) := by
  have hnot : ¬ Forgotten root tree name [] := fun ⟨_, h⟩ => Machine.not_fires_nil h
  refine ⟨by simp [Project.start, hnot], ?_, fun h => absurd h hnot, ?_, ?_⟩
  · intro h
    exact (Finset.mem_filter.mp h).1
  · rintro (h | h)
    · exact (Finset.mem_filter.mp h).2
    · cases h
  · intro hmem hwatchable
    exact .inl (Finset.mem_filter.mpr ⟨hmem, hwatchable⟩)

/-- An activity other than a deletion forgets nothing. -/
theorem forgotten_concat_iff {es : List Activity} {a : Activity} (h : a ≠ .delete name) :
    Forgotten root tree name (es ++ [a]) ↔ Forgotten root tree name es := by
  rw [forgotten_concat]
  exact or_iff_left fun hd => h hd.1

theorem followed_step {es : List Activity} (a : Activity)
    (h : Followed root tree name es ((watched root tree).run es)) :
    Followed root tree name (es ++ [a]) (((watched root tree).run es).step root a) := by
  have hconcat : Forgotten root tree name (es ++ [a]) ↔ _ := forgotten_concat
  generalize (watched root tree).run es = p at h hconcat
  obtain ⟨hwatched, hthere, hforgotten, hwatchable, hknown⟩ := h
  cases a with
  | create n =>
    have hf : Forgotten root tree name (es ++ [.create n]) ↔ Forgotten root tree name es := forgotten_concat_iff nofun
    rw [Project.step]
    split_ifs with hn
    · exact ⟨by rwa [hf], hthere, by rwa [hf], hwatchable, hknown⟩
    · refine ⟨by rwa [hf], fun hm => Finset.mem_insert_of_mem (hthere hm), by rwa [hf], hwatchable, fun hm hw => ?_⟩
      rcases Finset.mem_insert.mp hm with rfl | hm
      · exact .inr (.inr ⟨[[name]], by simp, by simp⟩)
      · exact (hknown hm hw).mono subset_rfl (List.Subset.refl _) (List.subset_append_left _ _)
  | delete n =>
    rw [Project.step]
    by_cases hn : n ∈ p.tree
    · rw [if_pos hn]
      by_cases hname : n = name
      · -- The directory itself: its watch goes, and is missed if it had one.
        subst hname
        have hf : Forgotten root tree n (es ++ [.delete n]) ↔ n ∈ p.watch.subscribed := by
          rw [hconcat]
          exact ⟨fun h => h.elim hforgotten fun h => h.2.2, fun h => .inr ⟨rfl, hn, h⟩⟩
        exact ⟨by simp [hf], by simp, hf.mp, hwatchable, by simp⟩
      · have hf : Forgotten root tree name (es ++ [.delete n]) ↔ Forgotten root tree name es :=
          forgotten_concat_iff fun h => hname (Activity.delete.inj h)
        refine ⟨?_, fun hm => ?_, by rwa [hf], hwatchable, fun hm hw => ?_⟩
        · rw [hf, ← hwatched]
          exact ⟨Finset.mem_of_mem_erase, Finset.mem_erase_of_ne_of_mem (Ne.symm hname)⟩
        · exact Finset.mem_erase_of_ne_of_mem (Ne.symm hname) (hthere (Finset.mem_of_mem_erase hm))
        · exact (hknown (Finset.mem_of_mem_erase hm) hw).mono subset_rfl (List.Subset.refl _)
            (List.subset_append_left _ _)
    · rw [if_neg hn]
      have hf : Forgotten root tree name (es ++ [.delete n]) ↔ Forgotten root tree name es := by
        rw [hconcat]
        exact or_iff_left fun ⟨heq, hmem, _⟩ => hn (Activity.delete.inj heq ▸ hmem)
      exact ⟨by rwa [hf], hthere, by rwa [hf], hwatchable, hknown⟩
  | touch paths =>
    have hf : Forgotten root tree name (es ++ [.touch paths]) ↔ Forgotten root tree name es :=
      forgotten_concat_iff nofun
    exact ⟨by rwa [hf], hthere, by rwa [hf], hwatchable, fun hm hw =>
      (hknown hm hw).mono subset_rfl (List.Subset.refl _) (List.subset_append_left _ _)⟩
  | deliver =>
    have hf : Forgotten root tree name (es ++ [.deliver]) ↔ Forgotten root tree name es := forgotten_concat_iff nofun
    rw [Project.step]
    cases hnotices : p.notices with
    | nil => exact ⟨by rwa [hf], hthere, by rwa [hf], hwatchable, hknown⟩
    | cons paths notices =>
      refine ⟨by rwa [hf], hthere, by rwa [hf], ?_, fun hm hw => ?_⟩
      · rintro (hs | hs)
        · exact hwatchable (.inl hs)
        · rcases List.mem_append.mp hs with hs | hs
          · exact hwatchable (.inr hs)
          · exact (appeared_mem_callback.mp hs).2.1
      · rcases hknown hm hw with hs | hs | ⟨paths', hpaths, hmem⟩
        · exact .inl hs
        · exact .inr (.inl (List.mem_append_left _ hs))
        · rw [hnotices] at hpaths
          rcases List.mem_cons.mp hpaths with rfl | hpaths
          · refine .inr (.inl (List.mem_append_right _ (appeared_mem_callback.mpr ⟨hmem, hw, ?_⟩)))
            exact decide_eq_true hm
          · exact .inr (.inr ⟨paths', hpaths, hmem⟩)
  | receive =>
    have hf : Forgotten root tree name (es ++ [.receive]) ↔ Forgotten root tree name es := forgotten_concat_iff nofun
    obtain ⟨htail, hsub, hwatcher⟩ := p.watch.receive_spec p.isDir
    refine ⟨?_, fun hm => ?_, fun hfor => ?_, ?_, fun hm hw => ?_⟩
    · rw [hf, Project.step, hwatcher, hsub, hwatched]
      constructor
      · rintro (⟨hs, hn⟩ | ⟨hhead, hdir, hs⟩)
        · exact ⟨.inl hs, hn⟩
        · exact ⟨.inr ⟨hhead, hdir⟩, fun hfor => hs (hforgotten hfor)⟩
      · rintro ⟨hs | ⟨hhead, hdir⟩, hn⟩
        · exact .inl ⟨hs, hn⟩
        · by_cases hs : name ∈ p.watch.subscribed
          · exact .inl ⟨hs, hn⟩
          · exact .inr ⟨hhead, hdir, hs⟩
    · rcases (hwatcher name).mp hm with hm | ⟨-, hdir, -⟩
      · exact hthere hm
      · exact of_decide_eq_true hdir
    · exact (hsub name).mpr (.inl (hforgotten (hf.mp hfor)))
    · rintro (hs | hs)
      · rcases (hsub name).mp hs with hs | ⟨hhead, -⟩
        · exact hwatchable (.inl hs)
        · exact hwatchable (.inr (List.mem_of_mem_head? hhead))
      · rw [Project.step, htail] at hs
        exact hwatchable (.inr (List.mem_of_mem_tail hs))
    · rcases hknown hm hw with hs | hs | hs
      · exact .inl ((hsub name).mpr (.inl hs))
      · cases hsignals : p.watch.signals with
        | nil =>
          rw [hsignals] at hs
          cases hs
        | cons signal rest =>
          rw [hsignals] at hs
          rcases List.mem_cons.mp hs with rfl | hs
          · exact .inl ((hsub name).mpr (.inr ⟨by rw [hsignals]; rfl, decide_eq_true hm⟩))
          · refine .inr (.inl ?_)
            rw [Project.step, htail, hsignals]
            exact hs
      · exact .inr (.inr hs)

/-- After any schedule, and of any name. -/
theorem followed_run (es : List Activity) : Followed root tree name es ((watched root tree).run es) := by
  induction es using List.reverseRecOn with
  | nil => exact followed_start
  | append_singleton es a ih =>
    rw [Machine.run_concat]
    exact followed_step a ih

/-- When everything is received, a directory that is there is watched exactly if it is watchable and was
    not deleted after it had been subscribed to. -/
theorem mem_watcher_iff {es : List Activity} (hsettled : ((watched root tree).run es).Settled)
    (hname : name ∈ ((watched root tree).run es).tree) :
    name ∈ ((watched root tree).run es).watch.watcher ↔ isWatchable name = true ∧ ¬ Forgotten root tree name es := by
  have h : Followed root tree name es _ := followed_run es
  rw [h.watched_iff]
  refine and_congr_left fun _ => ⟨fun hs => h.watchable (.inl hs), fun hw => ?_⟩
  rcases h.known hname hw with hs | hs | ⟨paths, hpaths, -⟩
  · exact hs
  · rw [hsettled.2] at hs
    cases hs
  · rw [hsettled.1] at hpaths
    cases hpaths

end Runs

/-- When everything is delivered and received, every watchable directory is watched and no other one is,
    exactly if none that is there was deleted after it had been subscribed to. -/
theorem covered_iff {root : Bytes} {tree : Finset Path} {es : List Activity}
    (hsettled : ((watched root tree).run es).Settled) : ((watched root tree).run es).Covered ↔
      ∀ name ∈ ((watched root tree).run es).tree, isWatchable name = true → ¬ Forgotten root tree name es := by
  constructor
  · rintro ⟨hall, -⟩ name hname hw
    exact ((mem_watcher_iff hsettled hname).mp (hall name hname hw)).2
  · intro h
    refine ⟨fun name hname hw => (mem_watcher_iff hsettled hname).mpr ⟨hw, h name hname hw⟩, fun name hname => ?_⟩
    have hthere := (followed_run es).there hname
    exact ⟨hthere, ((mem_watcher_iff hsettled hthere).mp hname).1⟩

/-- `src` is created in a project of `app`, and both are watched. -/
theorem created_src_covered :
    ((watched (Str.bytes "/shop".toList) {"app".toList}).run [.create "src".toList, .deliver, .receive]).Covered := by
  refine (covered_iff ⟨rfl, by decide +kernel⟩).mpr fun name _ _ ⟨i, a, ha, hdelete, _⟩ => ?_
  subst hdelete
  have hmem := List.mem_of_getElem? ha
  simp at hmem

/-- `app` is deleted and created again, as a switch of branches does it, and is not watched any more. -/
theorem recreated_app_lost : ¬ ∀ root tree es, ((watched root tree).run es).Settled →
    ((watched root tree).run es).Covered := by
  intro h
  have hcovered := h (Str.bytes "/shop".toList) {"app".toList}
    [.delete "app".toList, .deliver, .create "app".toList, .deliver, .receive] ⟨rfl, by decide +kernel⟩
  have hwatched := hcovered.1 "app".toList (by decide +kernel) (by decide +kernel)
  exact absurd hwatched (by decide +kernel)

end Arcature.Cli.Dev

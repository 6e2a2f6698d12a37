import Arcature.Cli.Dev.Backend

/-! The unchanged shortcut, over every run of the backend.

    `built_digest` speaks of the running child as long as every step that replaces the child knows
    what it starts. A reload does: it reads the file it is about to run. `restart_only` does not: it
    starts whatever lies at `built` and keeps the old digest, so it has to find the bytes that
    digest was taken from. What a call in progress is about to start, and the digest it will leave
    behind, are carried along in `Armed`. -/

namespace Arcature.Cli.Dev
open Arcature.Lib

variable {digest : Bytes → UInt64} {windows : Bool}

/-- The digest that is remembered is that of the bytes the child was started from. -/
def Honest (digest : Bytes → UInt64) (s : Session) : Prop :=
  ∀ image d, s.child = some image → s.builtDigest = some d → digest image = d

/-- The file at `built` has the digest that is remembered, if it is there. -/
def Matches (digest : Bytes → UInt64) (s : Session) : Prop :=
  ∀ executable bytes d, s.built = some executable → s.disk executable = some bytes →
    s.builtDigest = some d → digest bytes = d

/-- What the call in progress is about to start has the digest it will leave behind, and is the
    file at `built`. -/
def Armed (digest : Bytes → UInt64) (s : Session) : Prop :=
  match s.work with
  | .none | .compiling | .built _ => True
  | .starting executable record =>
    s.built = some executable ∧
      ∀ bytes d, s.disk executable = some bytes → record.getD s.builtDigest = some d →
        digest bytes = d
  | .staged executable copy record =>
    s.built = some executable ∧ (∀ bytes, copy = some bytes → s.disk executable = some bytes) ∧
      ∀ bytes d, s.disk executable = some bytes → record.getD s.builtDigest = some d →
        digest bytes = d
  | .booting image record =>
    (∃ executable, s.built = some executable ∧ s.disk executable = some image) ∧
      ∀ d, record.getD s.builtDigest = some d → digest image = d

/-- The invariant of the backend. -/
def Sound (digest : Bytes → UInt64) (s : Session) : Prop := Honest digest s ∧ Armed digest s

/-! ### One step -/

theorem sound_settle {s : Session} (hs : Honest digest s) (readable : Bool) (build : Build) :
    Sound digest (s.settle digest readable build).1 := by
  cases build with
  | failed diagnostics => exact ⟨hs, trivial⟩
  | cancelled => exact ⟨hs, trivial⟩
  | succeeded executable =>
    simp only [Session.settle]
    split
    · exact ⟨hs, trivial⟩
    · refine ⟨hs, rfl, fun bytes d hbytes hd => ?_⟩
      simp only [Session.fingerprint, Option.getD_some] at hd
      split at hd
      · rw [hbytes] at hd
        exact Option.some.inj hd
      · cases hd

theorem sound_stage {s : Session} {executable : Path} {record : Option (Option UInt64)}
    (hs : Sound digest s) (hw : s.work = .starting executable record) :
    Sound digest (s.stage windows executable record).1 := by
  obtain ⟨hhonest, harmed⟩ := hs
  simp only [Armed, hw] at harmed
  unfold Session.stage
  split
  · split
    · rename_i bytes hbytes
      refine ⟨fun _ _ h => ?_, harmed.1, fun _ h => ?_, harmed.2⟩
      · cases h
      · cases h
        exact hbytes
    · exact ⟨hhonest, trivial⟩
  · refine ⟨fun _ _ h => ?_, harmed.1, fun _ h => ?_, harmed.2⟩
    · cases h
    · cases h

theorem sound_spawn {s : Session} {executable : Path} {copy : Option Bytes}
    {record : Option (Option UInt64)} (hs : Sound digest s)
    (hw : s.work = .staged executable copy record) :
    Sound digest (s.spawn executable copy record).1 := by
  obtain ⟨hhonest, harmed⟩ := hs
  simp only [Armed, hw] at harmed
  obtain ⟨hbuilt, hcopy, hdigest⟩ := harmed
  unfold Session.spawn
  split
  · rename_i image himage
    have hdisk : s.disk executable = some image := by
      cases copy with
      | none => simpa using himage
      | some bytes => exact hcopy image (by simpa using himage)
    exact ⟨hhonest, ⟨executable, hbuilt, hdisk⟩, fun d hd => hdigest image d hdisk hd⟩
  · exact ⟨hhonest, trivial⟩

theorem sound_boot {s : Session} {image : Bytes} {record : Option (Option UInt64)}
    (hs : Sound digest s) (hw : s.work = .booting image record) (listening : Bool) :
    Sound digest (s.boot image record listening).1 := by
  obtain ⟨hhonest, harmed⟩ := hs
  simp only [Armed, hw] at harmed
  unfold Session.boot
  split
  · refine ⟨fun image' d himage hd => ?_, trivial⟩
    cases himage
    exact harmed.2 d hd
  · exact ⟨hhonest, trivial⟩

/-- Every step keeps the invariant, a `restart_only` where the file at `built` is the one the
    digest is of. -/
theorem sound_step {s : Session} (hs : Sound digest s) (op : Op)
    (hop : op = .restartOnly → s.work = .none → Matches digest s) :
    Sound digest (s.step digest windows op).1 := by
  obtain ⟨hhonest, harmed⟩ := hs
  unfold Session.step
  split
  · exact ⟨hhonest, trivial⟩
  · rename_i hw
    unfold Session.restartOnly
    split
    · rename_i executable hbuilt
      exact ⟨hhonest, hbuilt, fun bytes d hbytes hd => hop rfl hw executable bytes d hbuilt hbytes hd⟩
    · exact ⟨hhonest, trivial⟩
  · rename_i hw
    refine ⟨fun _ _ h => ?_, ?_⟩
    · cases h
    · simp [Armed, hw]
  · exact ⟨hhonest, harmed⟩
  · rename_i hw
    refine ⟨hhonest, ?_⟩
    simp [Armed, hw]
  · exact ⟨hhonest, trivial⟩
  · exact ⟨hhonest, trivial⟩
  · exact sound_settle hhonest _ _
  · exact sound_stage ⟨hhonest, harmed⟩ ‹_›
  · exact sound_spawn ⟨hhonest, harmed⟩ ‹_›
  · exact sound_boot ⟨hhonest, harmed⟩ ‹_› _
  · exact ⟨hhonest, harmed⟩

/-! ### Every run -/

/-- A `restart_only` at a moment when the file at `built` is not the one the digest is of: a build
    that was cancelled or failed has replaced it, or a reload put nothing up. -/
def RestartsOther (digest : Bytes → UInt64) (s : Session) (op : Op) : Prop :=
  op = .restartOnly ∧ s.work = .none ∧ ¬ Matches digest s

/-- The digest tells the running binary from the ones on disk. -/
def CollisionFree (digest : Bytes → UInt64) (s : Session) : Prop :=
  ∀ image executable bytes, s.child = some image → s.disk executable = some bytes →
    digest bytes = digest image → bytes = image

theorem sound_run {disk : Path → Option Bytes} {es : List Op}
    (h : ∀ i, ¬ (backend digest windows disk).Fires es i (RestartsOther digest)) :
    Sound digest ((backend digest windows disk).run es) := by
  induction es using List.reverseRecOn with
  | nil => exact ⟨fun _ _ h => (by cases h), trivial⟩
  | append_singleton es op ih =>
    rw [Machine.run_concat]
    refine sound_step (ih fun i hi => h i (Machine.fires_concat.mpr (Or.inl hi))) op ?_
    intro hop hwork
    by_contra hm
    exact h es.length (Machine.fires_last.mpr ⟨hop, hwork, hm⟩)

/-- A settled build comes back unchanged only when its digest is the remembered one. -/
theorem settle_unchanged {s : Session} {readable : Bool} {build : Build}
    (h : (s.settle digest readable build).2 = some (.done true)) :
    ∃ executable bytes image, build = .succeeded executable ∧ s.disk executable = some bytes ∧
      s.child = some image ∧ s.builtDigest = some (digest bytes) := by
  cases build with
  | failed diagnostics => cases h
  | cancelled => cases h
  | succeeded executable =>
    simp only [Session.settle] at h
    split at h
    · rename_i hcond
      simp only [Bool.and_eq_true] at hcond
      obtain ⟨⟨hchild, hsome⟩, heq⟩ := hcond
      obtain ⟨image, himage⟩ := Option.isSome_iff_exists.mp hchild
      obtain ⟨d, hd⟩ := Option.isSome_iff_exists.mp hsome
      have hsame := of_decide_eq_true heq
      rw [hd] at hsame
      unfold Session.fingerprint at hd
      split at hd
      · obtain ⟨bytes, hbytes, rfl⟩ := Option.map_eq_some_iff.mp hd
        exact ⟨executable, bytes, image, rfl, hbytes, himage, hsame.symm⟩
      · cases hd
    · cases h

/-- The unchanged shortcut. In every run of the backend whose `restart_only` calls find the file
    their digest is of: the digest that is remembered is that of the bytes the child was started
    from, and a reload that comes back unchanged has just produced the very bytes that run. -/
theorem unchanged_sound (digest : Bytes → UInt64) (windows : Bool) (disk : Path → Option Bytes)
    (es : List Op) (h : ∀ i, ¬ (backend digest windows disk).Fires es i (RestartsOther digest)) :
    (∀ image d, ((backend digest windows disk).run es).child = some image →
      ((backend digest windows disk).run es).builtDigest = some d → digest image = d) ∧
    ∀ i readable, es[i]? = some (.settle readable) →
      (backend digest windows disk).out ((backend digest windows disk).run (es.take i))
        (.settle readable) = some (.done true) →
      CollisionFree digest ((backend digest windows disk).run (es.take i)) →
      ∃ executable image,
        ((backend digest windows disk).run (es.take i)).work = .built (.succeeded executable) ∧
        ((backend digest windows disk).run (es.take i)).child = some image ∧
        ((backend digest windows disk).run (es.take i)).disk executable = some image := by
  refine ⟨(sound_run h).1, fun i readable _ hout hfree => ?_⟩
  have hsound : Sound digest ((backend digest windows disk).run (es.take i)) :=
    sound_run fun j hj => h j hj.of_take.2
  generalize (backend digest windows disk).run (es.take i) = s at *
  change (s.step digest windows (.settle readable)).2 = _ at hout
  cases hwork : s.work with
  | built build =>
    simp only [Session.step, hwork] at hout
    obtain ⟨executable, bytes, image, rfl, hbytes, himage, hdigest⟩ := settle_unchanged hout
    refine ⟨executable, image, rfl, himage, ?_⟩
    rw [hbytes, hfree image executable bytes himage hbytes (hsound.1 image _ himage hdigest).symm]
  | none | compiling | starting | staged | booting => simp [Session.step, hwork] at hout

/-- Cargo's announcement of the binary it produced. -/
def artifact (executable : Path) : Json :=
  Json.objectOf [("reason".toList, .string "compiler-artifact".toList),
    ("executable".toList, .string executable)]

/-- A reload whose build writes these bytes to `app`, up to the point where it settles. -/
def buildOps (bytes : Bytes) : List Op :=
  [.reload, .write "app".toList bytes, .exit [artifact "app".toList] true [], .settle true]

/-- The rest of a restart. -/
def bootOps : List Op := [.stage, .spawn, .boot true]

/-- A digest that tells the programs below apart. -/
def sizeDigest (bytes : Bytes) : UInt64 := UInt64.ofNat bytes.length

/-- The same bytes built twice: the second reload is unchanged, and they are what runs. -/
def twiceOps : List Op := buildOps [1] ++ bootOps ++ buildOps [1]

theorem unchanged_sound_twice :
    ∃ executable image,
      ((backend sizeDigest false fun _ => none).run (twiceOps.take 10)).work =
        .built (.succeeded executable) ∧
      ((backend sizeDigest false fun _ => none).run (twiceOps.take 10)).child = some image ∧
      ((backend sizeDigest false fun _ => none).run (twiceOps.take 10)).disk executable =
        some image := by
  have hcalm : ∀ i, ¬ (backend sizeDigest false fun _ => none).Fires twiceOps i
      (RestartsOther sizeDigest) := by
    rintro i ⟨op, hop, rfl, _⟩
    have hmem := List.mem_of_getElem? hop
    simp [twiceOps, buildOps, bootOps] at hmem
  refine (unchanged_sound sizeDigest false (fun _ => none) twiceOps hcalm).2 10 true rfl ?_ ?_
  · rfl
  · intro image executable bytes himage hbytes _
    have hdisk : ((backend sizeDigest false fun _ => none).run (twiceOps.take 10)).disk =
      Function.update (Function.update (fun _ => none) "app".toList (some [1])) "app".toList
        (some [1]) := rfl
    rw [hdisk, Function.update_idem, Function.update_apply] at hbytes
    cases himage
    split at hbytes
    · exact (Option.some.inj hbytes).symm
    · cases hbytes

/-- A build is cancelled after it has replaced the program; a `restart_only` starts what it finds;
    then the source goes back to what it was. -/
def staleOps : List Op :=
  buildOps [1] ++ bootOps ++
    [.reload, .write "app".toList [1, 2], .request, .exit [] false [], .settle true, .restartOnly] ++
    bootOps ++ buildOps [1]

/-- The remembered digest is not that of the child; the reload comes back unchanged while another
    program runs than the one it built. -/
theorem stale_child :
    (¬ ∀ es : List Op, Honest sizeDigest ((backend sizeDigest false fun _ => none).run es)) ∧
      (backend sizeDigest false fun _ => none).out
          ((backend sizeDigest false fun _ => none).run (staleOps.take 19)) (.settle true) =
        some (.done true) ∧
      ((backend sizeDigest false fun _ => none).run (staleOps.take 19)).child = some [1, 2] ∧
      ((backend sizeDigest false fun _ => none).run (staleOps.take 19)).disk "app".toList =
        some [1] := by
  refine ⟨fun h => ?_, rfl, rfl, rfl⟩
  have hdigest := h (staleOps.take 16) [1, 2] (sizeDigest [1]) rfl rfl
  exact absurd hdigest (by decide)

end Arcature.Cli.Dev

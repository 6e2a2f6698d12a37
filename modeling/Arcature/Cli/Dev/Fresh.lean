import Arcature.Cli.Dev.Loop
import Arcature.Cli.Dev.Unchanged

/-! No source change is lost, over every run of the rebuild loop.

    A rebuild that was reported is owed for as long as it waits somewhere: in the watcher, in `next`
    or dispatched. From the moment the loop serves it, a build is under way that began after the
    report, and if that build succeeds, what lies at `built` is fresh. The one step that leaves this
    path is a restart dispatched while the last build has not come to `Ready`: it puts an older
    binary up and calls it ready.

        owed ──go──▶ under way ──settle──▶ fresh at `built` ──boot──▶ fresh child, `Ready`
                          └──failed, cancelled──▶ not `Ready` -/

namespace Arcature.Cli.Dev
open Arcature.Lib

variable {digest : Bytes → UInt64} {windows : Bool} {disk : Path → Option Bytes}

/-! ### The vocabulary of the property -/

/-- The environment reports a change that needs a rebuild. -/
def ReportsRebuild (_ : Loop) (e : Event) : Prop := e = .report (.changed .rebuild)

/-- The loop starts a build. -/
def Begins (l : Loop) (e : Event) : Prop :=
  e = .go ∧ ∃ change, l.place = .dispatched change ∧ (change = .rebuild ∨ l.session.built = none)

/-- The build under way has succeeded and produced these bytes. -/
def Produces (bytes : Bytes) (l : Loop) (e : Event) : Prop :=
  ∃ readable executable, e = .work (.settle readable) ∧ l.place = .working ∧
    l.session.work = .built (.succeeded executable) ∧ l.session.disk executable = some bytes

/-- These bytes are what a build produced that began after the last rebuild was reported. -/
def Fresh (m : Machine Loop Event Unit) (es : List Event) (bytes : Bytes) : Prop :=
  ∃ i j, i < j ∧ m.Fires es i Begins ∧ (∀ k, i < k → ¬ m.Fires es k ReportsRebuild) ∧
    (∀ k, i < k → k < j → ¬ m.Fires es k Begins) ∧ m.Fires es j (Produces bytes)

/-- A restart is served with an older binary, while the last build has not come to `Ready`. -/
def Skips (l : Loop) (e : Event) : Prop :=
  e = .go ∧ l.place = .dispatched .restart ∧ l.session.built ≠ none ∧ l.session.status ≠ .ready

/-- The loop waits for a change, and none is pending. -/
def Loop.Quiet (l : Loop) : Prop :=
  l.place = .idle ∧ l.pending = none ∧ ∀ change, .changed change ∉ l.signals

/-! ### The backend when it is ready -/

/-- Ready means that no call is in progress and the child is the file at `built`. -/
def Readied (s : Session) : Prop :=
  s.status = .ready → s.work = .none ∧
    ∃ executable bytes, s.built = some executable ∧ s.disk executable = some bytes ∧
      s.child = some bytes

theorem Readied.of_busy {s s' : Session} (h : Readied s) (hw : s.work ≠ .none)
    (hs : s'.status = s.status) : Readied s' := fun hr => absurd (h (hs ▸ hr)).1 hw

/-- A backend that is ready holds the file its digest is of. -/
theorem Readied.matches {s : Session} (h : Readied s) (hs : Sound digest s)
    (hr : s.status = .ready) : Matches digest s := by
  obtain ⟨_, executable, bytes, hbuilt, hdisk, hchild⟩ := h hr
  intro executable' bytes' d hbuilt' hdisk' hd
  rw [hbuilt] at hbuilt'
  cases hbuilt'
  rw [hdisk] at hdisk'
  cases hdisk'
  exact hs.1 bytes d hchild hd

theorem readied_settle {s : Session} (h : Readied s) (hs : Sound digest s)
    (hfree : CollisionFree digest s) {build : Build} (hw : s.work = .built build)
    (readable : Bool) : Readied (s.settle digest readable build).1 := by
  have hbusy : s.work ≠ .none := by simp [hw]
  cases build with
  | failed diagnostics => exact nofun
  | cancelled => exact h.of_busy hbusy rfl
  | succeeded executable =>
    cases hout : (s.settle digest readable (.succeeded executable)).2 with
    | none =>
      simp only [Session.settle] at hout ⊢
      split at hout
      · cases hout
      · rw [if_neg ‹_›]
        exact h.of_busy hbusy rfl
    | some answer =>
      have hdone : (s.settle digest readable (.succeeded executable)).2 = some (.done true) := by
        simp only [Session.settle] at hout ⊢
        split at hout
        · rw [if_pos ‹_›]
        · cases hout
      obtain ⟨executable', bytes, image, heq, hdisk, hchild, hdigest⟩ := settle_unchanged hdone
      cases heq
      have hsame := hfree image executable bytes hchild hdisk (hs.1 image _ hchild hdigest).symm
      subst hsame
      simp only [Session.settle] at hdone ⊢
      split at hdone
      · rw [if_pos ‹_›]
        exact fun _ => ⟨rfl, executable, bytes, rfl, hdisk, hchild⟩
      · cases hdone

theorem readied_step {s : Session} (h : Readied s) (hs : Sound digest s)
    (hfree : CollisionFree digest s) {op : Op} (hop : op ≠ .stop) :
    Readied (s.step digest windows op).1 := by
  unfold Session.step
  split
  · exact nofun
  · unfold Session.restartOnly
    split
    · exact nofun
    · exact nofun
  · exact absurd rfl hop
  · exact h
  · exact h.of_busy (by simp [*]) rfl
  · exact h.of_busy (by simp [*]) rfl
  · exact h.of_busy (by simp [*]) rfl
  · exact readied_settle h hs hfree ‹_› _
  · unfold Session.stage
    split
    · split <;> exact h.of_busy (by simp [*]) rfl
    · exact h.of_busy (by simp [*]) rfl
  · unfold Session.spawn
    split <;> exact h.of_busy (by simp [*]) rfl
  · rename_i image record hw
    have harmed := hs.2
    simp only [Armed, hw] at harmed
    obtain ⟨⟨executable, hbuilt, hdisk⟩, _⟩ := harmed
    unfold Session.boot
    split
    · exact fun _ => ⟨rfl, executable, image, hbuilt, hdisk, rfl⟩
    · exact h.of_busy (by simp [hw]) rfl
  · exact h

/-- A call that has come back leaves nothing in progress. -/
theorem work_of_returned {s : Session} {op : Op} {answer : Reload}
    (h : (s.step digest windows op).2 = some answer) :
    (s.step digest windows op).1.work = .none := by
  unfold Session.step at h ⊢
  split at h
  · cases h
  · cases h
  · cases h
  · cases h
  · cases h
  · rfl
  · cases h
  · rename_i build _
    cases build with
    | failed => rfl
    | cancelled => rfl
    | succeeded executable =>
      simp only [Session.settle] at h ⊢
      split at h
      · rw [if_pos ‹_›]
      · cases h
  · unfold Session.stage at h ⊢
    split at h
    · rw [if_pos ‹_›]
      split at h
      · cases h
      · simp
    · cases h
  · unfold Session.spawn at h ⊢
    split at h
    · cases h
    · simp
  · unfold Session.boot at h ⊢
    split at h
    · rw [if_pos ‹_›]
    · rw [if_neg ‹_›]
  · cases h

/-! ### The loop around it -/

/-- A call is in progress only while the loop works; an idle loop holds no change; an interrupted
    one works or has ended. -/
structure Shaped (l : Loop) : Prop where
  resting : l.place ≠ .working → l.session.work = .none
  idle : l.place = .idle → l.next = none
  interrupted : l.interrupted = true → l.place = .working ∨ l.place = .ended

/-- What holds of the loop whatever was reported. -/
structure Kept (digest : Bytes → UInt64) (l : Loop) : Prop where
  sound : Sound digest l.session
  readied : Readied l.session
  shaped : Shaped l

theorem kept_absorb {l : Loop} (h : Kept digest l) : Kept digest l.absorb := by
  unfold Loop.absorb
  split
  · exact h
  · exact ⟨h.sound, h.readied, h.shaped.resting, h.shaped.idle, h.shaped.interrupted⟩
  · exact ⟨h.sound, h.readied, h.shaped.resting, h.shaped.idle, h.shaped.interrupted⟩

theorem sound_request {s : Session} (h : Sound digest s) :
    Sound digest (s.step digest windows .request).1 := h

theorem kept_deliver {l : Loop} (h : Kept digest l) (change : Change) :
    Kept digest (l.deliver digest windows change) := by
  unfold Loop.deliver
  split
  · rename_i hp
    refine ⟨h.sound, h.readied, fun _ => h.shaped.resting (by simp [hp]), ?_, fun hi => ?_⟩
    · exact nofun
    · rcases h.shaped.interrupted hi with hc | hc <;> rw [hp] at hc <;> cases hc
  · rename_i hp
    refine ⟨h.sound, h.readied, fun hc => absurd hp hc, fun hc => ?_, fun _ => Or.inl hp⟩
    exact absurd (hp.symm.trans hc) (by simp)
  · exact h

theorem kept_go {l : Loop} (h : Kept digest l) {change : Change}
    (hp : l.place = .dispatched change) (hfree : CollisionFree digest l.session)
    (hskip : ¬ Skips l .go) : Kept digest (l.go digest windows change) := by
  have hshape : ∀ session, Shaped { l with session, place := .working } := fun session =>
    ⟨fun hc => absurd rfl hc, nofun, fun _ => Or.inl rfl⟩
  cases change with
  | rebuild =>
    exact ⟨sound_step h.sound .reload nofun,
      readied_step h.readied h.sound hfree (by simp), hshape _⟩
  | restart =>
    refine ⟨sound_step h.sound .restartOnly fun _ _ => ?_,
      readied_step h.readied h.sound hfree (by simp), hshape _⟩
    cases hbuilt : l.session.built with
    | none =>
      intro executable _ _ hb
      rw [hbuilt] at hb
      cases hb
    | some executable =>
      refine h.readied.matches h.sound ?_
      by_contra hnr
      exact hskip ⟨rfl, hp, by simp [hbuilt], hnr⟩

theorem kept_work {l : Loop} (h : Kept digest l) (hp : l.place = .working) {op : Op}
    (hop : op.inner = true) (hfree : CollisionFree digest l.session) :
    Kept digest (l.work digest windows op) := by
  have hsound : Sound digest (l.session.step digest windows op).1 :=
    sound_step h.sound op fun hc => by subst hc; cases hop
  have hready : Readied (l.session.step digest windows op).1 :=
    readied_step h.readied h.sound hfree fun hc => by subst hc; cases hop
  have hwork := @work_of_returned digest windows l.session op
  unfold Loop.work
  split <;> rename_i session heq <;> rw [heq] at hsound hready hwork
  · refine ⟨hsound, hready, fun hc => absurd hp hc, fun hc => ?_, fun _ => Or.inl hp⟩
    exact absurd (hp.symm.trans hc) (by simp)
  · exact ⟨hsound, hready, fun _ => hwork rfl, nofun, fun _ => Or.inr rfl⟩
  · refine ⟨hsound, hready, fun _ => hwork rfl, fun hc => ?_, fun hi => Or.inr (if_pos hi)⟩
    simp only at hc
    split at hc <;> cases hc

theorem kept_step {l : Loop} (h : Kept digest l) (e : Event)
    (hfree : CollisionFree digest l.session) (hskip : ¬ Skips l e) :
    Kept digest (l.step digest windows e).1 := by
  cases e with
  | report signal => exact ⟨h.sound, h.readied, h.shaped.resting, h.shaped.idle, h.shaped.interrupted⟩
  | absorb =>
    simp only [Loop.step]
    split
    · exact kept_absorb h
    · exact h
  | deliver =>
    simp only [Loop.step]
    split
    · split
      · exact kept_deliver h _
      · exact h
    · exact h
  | closed =>
    simp only [Loop.step]
    split
    · split
      · exact ⟨h.sound, h.readied, fun _ => h.shaped.resting (by simp [*]), nofun,
          fun _ => Or.inr rfl⟩
      · exact h
    · exact h
  | interrupt =>
    simp only [Loop.step]
    split
    · exact ⟨h.sound, h.readied, fun _ => h.shaped.resting (by simp [*]), nofun,
        fun _ => Or.inr rfl⟩
    · rename_i hp
      exact ⟨h.sound, h.readied, fun hc => absurd hp hc, h.shaped.idle, fun _ => Or.inl hp⟩
    · exact h
  | turn =>
    simp only [Loop.step]
    split
    · rename_i hp
      have hrest : l.session.work = .none := h.shaped.resting (by simp [hp])
      have hint : l.interrupted = true → False := fun hi => by
        rcases h.shaped.interrupted hi with hc | hc <;> rw [hp] at hc <;> cases hc
      split
      · exact ⟨h.sound, h.readied, fun _ => hrest, nofun, fun hi => (hint hi).elim⟩
      · exact ⟨h.sound, h.readied, fun _ => hrest, fun _ => ‹_›, fun hi => (hint hi).elim⟩
    · exact h
  | go =>
    simp only [Loop.step]
    split
    · exact kept_go h ‹_› hfree hskip
    · exact h
  | work op =>
    simp only [Loop.step]
    split
    · split
      · exact kept_work h ‹_› ‹_› hfree
      · exact h
    · exact h

/-- What holds of every prefix holds of every prefix of a shorter schedule. -/
theorem forall_take_of_concat {P : List Event → Prop} {es : List Event} {e : Event}
    (h : ∀ i, P ((es ++ [e]).take i)) (i : ℕ) : P (es.take i) := by
  have := h (min i es.length)
  rwa [List.take_append_of_le_length (min_le_right _ _), ← List.take_take, List.take_length] at this

theorem kept_run {es : List Event}
    (hfree : ∀ i, CollisionFree digest ((rebuildLoop digest windows disk).run (es.take i)).session)
    (hskip : ∀ i, ¬ (rebuildLoop digest windows disk).Fires es i Skips) :
    Kept digest ((rebuildLoop digest windows disk).run es) := by
  induction es using List.reverseRecOn with
  | nil =>
    refine ⟨⟨fun _ _ h => ?_, trivial⟩, nofun, fun _ => rfl, nofun, nofun⟩
    cases h
  | append_singleton es e ih =>
    have hkept := ih (forall_take_of_concat (P := fun fs =>
      CollisionFree digest ((rebuildLoop digest windows disk).run fs).session) hfree)
      (fun i hi => hskip i (Machine.fires_concat.mpr (Or.inl hi)))
    rw [Machine.run_concat]
    have hlast := hfree es.length
    rw [List.take_left] at hlast
    exact kept_step hkept e hlast fun hs => hskip es.length (Machine.fires_last.mpr hs)

/-! ### Rebuilds that are owed, and builds under way -/

/-- A rebuild waits to be served. -/
def Owed (l : Loop) : Prop :=
  .changed .rebuild ∈ l.signals ∨ l.pending = some .rebuild ∨ l.next = some .rebuild ∨
    l.place = .dispatched .rebuild

/-- The last build began after the last rebuild was reported. -/
def UnderWay (m : Machine Loop Event Unit) (es : List Event) : Prop :=
  ∃ i, m.Fires es i Begins ∧ (∀ k, i < k → ¬ m.Fires es k ReportsRebuild) ∧
    ∀ k, i < k → ¬ m.Fires es k Begins

/-- What lies at `built` is fresh. -/
def FreshAt (m : Machine Loop Event Unit) (es : List Event) (s : Session) : Prop :=
  ∃ executable, s.built = some executable ∧
    ∀ bytes, s.disk executable = some bytes → Fresh m es bytes

/-- The last rebuild that was reported has been served: its build is under way, or what it produced
    lies at `built`, or it came to nothing and the backend is not ready. -/
def Served (m : Machine Loop Event Unit) (es : List Event) (s : Session) : Prop :=
  match s.work with
  | .compiling | .built _ => UnderWay m es
  | .starting .. | .staged .. | .booting .. => FreshAt m es s
  | .none => s.status = .ready → FreshAt m es s

variable {m : Machine Loop Event Unit}

theorem Fresh.concat {es : List Event} {e : Event} {bytes : Bytes} (h : Fresh m es bytes)
    (he : ¬ ReportsRebuild (m.run es) e) : Fresh m (es ++ [e]) bytes := by
  obtain ⟨i, j, hij, hbegins, hquiet, hsame, hproduces⟩ := h
  refine ⟨i, j, hij, Machine.fires_concat.mpr (Or.inl hbegins), fun k hik hk => ?_,
    fun k hik hkj hk => ?_, Machine.fires_concat.mpr (Or.inl hproduces)⟩
  · rcases Machine.fires_concat.mp hk with hk | ⟨_, hk⟩
    · exact hquiet k hik hk
    · exact he hk
  · have hlt := hproduces.lt
    exact hsame k hik hkj ((Machine.fires_append (hkj.trans hlt)).mp hk)

theorem FreshAt.concat {es : List Event} {e : Event} {s s' : Session} (h : FreshAt m es s)
    (he : ¬ ReportsRebuild (m.run es) e) (hbuilt : s'.built = s.built) (hdisk : s'.disk = s.disk) :
    FreshAt m (es ++ [e]) s' := by
  obtain ⟨executable, hb, hf⟩ := h
  refine ⟨executable, hbuilt.trans hb, fun bytes hbytes => ?_⟩
  rw [hdisk] at hbytes
  exact (hf bytes hbytes).concat he

theorem UnderWay.concat {es : List Event} {e : Event} (h : UnderWay m es)
    (he : ¬ ReportsRebuild (m.run es) e) (hb : ¬ Begins (m.run es) e) : UnderWay m (es ++ [e]) := by
  obtain ⟨i, hbegins, hquiet, hsame⟩ := h
  refine ⟨i, Machine.fires_concat.mpr (Or.inl hbegins), fun k hik hk => ?_, fun k hik hk => ?_⟩
  · rcases Machine.fires_concat.mp hk with hk | ⟨_, hk⟩
    · exact hquiet k hik hk
    · exact he hk
  · rcases Machine.fires_concat.mp hk with hk | ⟨_, hk⟩
    · exact hsame k hik hk
    · exact hb hk

/-- A build that begins now is under way. -/
theorem underWay_of_begins {es : List Event} {e : Event} (h : Begins (m.run es) e) :
    UnderWay m (es ++ [e]) := by
  have hlate : ∀ {P : Loop → Event → Prop} k, es.length < k → ¬ m.Fires (es ++ [e]) k P := by
    intro P k hk hf
    have := hf.lt
    rw [List.length_append, List.length_singleton] at this
    omega
  exact ⟨es.length, Machine.fires_last.mpr h, fun k hk => hlate k hk, fun k hk => hlate k hk⟩

/-- A build under way that produces bytes now has produced them fresh. -/
theorem UnderWay.fresh {es : List Event} {e : Event} {bytes : Bytes} (h : UnderWay m es)
    (hp : Produces bytes (m.run es) e) : Fresh m (es ++ [e]) bytes := by
  obtain ⟨i, hbegins, hquiet, hsame⟩ := h
  have hne : ¬ ReportsRebuild (m.run es) e := by
    obtain ⟨_, _, rfl, _⟩ := hp
    exact nofun
  refine ⟨i, es.length, hbegins.lt, Machine.fires_concat.mpr (Or.inl hbegins), fun k hik hk => ?_,
    fun k hik hkj hk => hsame k hik ((Machine.fires_append hkj).mp hk), Machine.fires_last.mpr hp⟩
  rcases Machine.fires_concat.mp hk with hk | ⟨_, hk⟩
  · exact hquiet k hik hk
  · exact hne hk

/-- A step that touches neither the files nor the call keeps what was served. -/
theorem Served.concat {es : List Event} {e : Event} {s s' : Session} (h : Served m es s)
    (he : ¬ ReportsRebuild (m.run es) e) (hb : ¬ Begins (m.run es) e) (hwork : s'.work = s.work)
    (hbuilt : s'.built = s.built) (hdisk : s'.disk = s.disk) (hstatus : s'.status = s.status) :
    Served m (es ++ [e]) s' := by
  unfold Served at h ⊢
  rw [hwork, hstatus]
  split at h
  · exact h.concat he hb
  · exact h.concat he hb
  · exact h.concat he hbuilt hdisk
  · exact h.concat he hbuilt hdisk
  · exact h.concat he hbuilt hdisk
  · exact fun hr => (h hr).concat he hbuilt hdisk

/-! ### One event -/

theorem Change.max_rebuild (change : Change) : Change.max change .rebuild = .rebuild := by
  cases change <;> rfl

theorem Change.rebuild_max (change : Change) : Change.max .rebuild change = .rebuild := by
  cases change <;> rfl

/-- A rebuild that is owed and not dispatched waits as a signal, or as the change that is next or behind it. -/
theorem Owed.waiting {l : Loop} (h : Owed l) (hplace : l.place ≠ .dispatched .rebuild) :
    .changed .rebuild ∈ l.signals ∨ l.pending = some .rebuild ∨ l.next = some .rebuild := by
  rcases h with h | h | h | h
  · exact Or.inl h
  · exact Or.inr (Or.inl h)
  · exact Or.inr (Or.inr h)
  · exact absurd h hplace

theorem owed_of_waiting {l : Loop}
    (h : .changed .rebuild ∈ l.signals ∨ l.pending = some .rebuild ∨ l.next = some .rebuild) : Owed l :=
  h.imp_right (Or.imp_right Or.inl)

theorem owed_absorb {l : Loop} (h : Owed l) : Owed l.absorb := by
  unfold Loop.absorb
  split
  · exact h
  · rename_i change rest hsig
    rcases h with h | h | h
    · rw [hsig, List.mem_cons] at h
      rcases h with h | h
      · cases h
        refine Or.inr (Or.inl ?_)
        cases l.pending with
        | none => rfl
        | some held => exact congrArg some (Change.max_rebuild held)
      · exact Or.inl h
    · refine Or.inr (Or.inl ?_)
      rw [h]
      exact congrArg some (Change.rebuild_max change)
    · exact Or.inr (Or.inr h)
  · rename_i path rest hsig
    rcases h with h | h
    · rw [hsig, List.mem_cons] at h
      rcases h with h | h
      · cases h
      · exact Or.inl h
    · exact Or.inr h

theorem owed_deliver {l : Loop} (h : Owed l) {change : Change} (hp : l.pending = some change)
    (hlisten : l.listening = true) (hsig : l.signals = []) :
    Owed (l.deliver digest windows change) := by
  unfold Loop.listening at hlisten
  unfold Loop.deliver
  split at hlisten
  · rename_i hplace
    rcases h.waiting (by rw [hplace]; exact nofun) with h | h | h
    · rw [hsig] at h
      cases h
    · rw [hp] at h
      cases h
      exact Or.inr (Or.inr (Or.inr rfl))
    · exact Or.inr (Or.inr (Or.inl h))
  · rename_i hplace
    rw [Bool.and_eq_true, Option.isNone_iff_eq_none] at hlisten
    rcases h.waiting (by rw [hplace]; exact nofun) with h | h | h
    · rw [hsig] at h
      cases h
    · rw [hp] at h
      cases h
      exact Or.inr (Or.inr (Or.inl rfl))
    · rw [hlisten.1] at h
      cases h
  · cases hlisten

/-- A step of the call in progress keeps what was served. -/
theorem served_work {es : List Event} {op : Op} (hplace : (m.run es).place = .working)
    (hready : Readied (m.run es).session) (hop : op.inner = true)
    (h : Served m es (m.run es).session) :
    Served m (es ++ [.work op]) ((m.run es).session.step digest windows op).1 := by
  have he : ¬ ReportsRebuild (m.run es) (.work op) := nofun
  have hb : ¬ Begins (m.run es) (.work op) := by
    rintro ⟨hc, _⟩
    cases hc
  have hproduces : ∀ {readable executable bytes}, op = .settle readable →
      (m.run es).session.work = .built (.succeeded executable) →
      (m.run es).session.disk executable = some bytes →
      Produces bytes (m.run es) (.work op) := by
    rintro readable executable bytes rfl hw hdisk
    exact ⟨readable, executable, rfl, hplace, hw, hdisk⟩
  generalize (m.run es).session = s at *
  have hbusy : ∀ {s' : Session}, s.work ≠ .none → s'.status = s.status → s'.work = .none →
      Served m (es ++ [.work op]) s' := by
    intro s' hw hstatus hw'
    unfold Served
    rw [hw']
    exact fun hr => absurd (hready (hstatus ▸ hr)).1 hw
  unfold Session.step
  split
  · cases hop
  · cases hop
  · cases hop
  · cases hop
  · rename_i hw
    simp only [Served, hw] at h ⊢
    exact h.concat he hb
  · exact hbusy (by simp [*]) rfl rfl
  · rename_i hw
    simp only [Served, hw] at h ⊢
    exact h.concat he hb
  · rename_i readable build hw
    simp only [Served, hw] at h
    cases build with
    | failed diagnostics => exact fun hr => by cases hr
    | cancelled => exact hbusy (by simp [hw]) rfl rfl
    | succeeded executable =>
      have hfresh : ∀ {s' : Session}, s'.built = some executable → s'.disk = s.disk →
          FreshAt m (es ++ [.work (.settle readable)]) s' := by
        intro s' hbuilt hdisk
        refine ⟨executable, hbuilt, fun bytes hbytes => ?_⟩
        rw [hdisk] at hbytes
        exact h.fresh (hproduces rfl hw hbytes)
      simp only [Session.settle]
      split
      · exact fun _ => hfresh rfl rfl
      · exact hfresh rfl rfl
  · rename_i executable record hw
    simp only [Served, hw] at h
    unfold Session.stage
    split
    · split
      · exact h.concat he rfl rfl
      · exact hbusy (by simp [hw]) rfl rfl
    · exact h.concat he rfl rfl
  · rename_i executable copy record hw
    simp only [Served, hw] at h
    unfold Session.spawn
    split
    · exact h.concat he rfl rfl
    · exact hbusy (by simp [hw]) rfl rfl
  · rename_i listening image record hw
    simp only [Served, hw] at h
    unfold Session.boot
    split
    · exact fun _ => h.concat he rfl rfl
    · exact hbusy (by simp [hw]) rfl rfl
  · exact h.concat he hb rfl rfl rfl rfl

/-- The last rebuild reported is owed or served, unless the session is over. -/
def Tracked (m : Machine Loop Event Unit) (es : List Event) (l : Loop) : Prop :=
  l.place = .ended ∨ Owed l ∨ Served m es l.session

theorem tracked_go {es : List Event} {change : Change}
    (hplace : (m.run es).place = .dispatched change) (hkept : Kept digest (m.run es))
    (hskip : ¬ Skips (m.run es) .go) (h : Tracked m es (m.run es)) :
    Tracked m (es ++ [.go]) ((m.run es).go digest windows change) := by
  have hrest : (m.run es).session.work = .none := hkept.shaped.resting (by simp [hplace])
  have he : ¬ ReportsRebuild (m.run es) .go := by simp [ReportsRebuild]
  -- a call that starts a build is under way at once
  have hreload : (change = .rebuild ∨ (m.run es).session.built = none) →
      UnderWay m (es ++ [.go]) := fun hc => underWay_of_begins ⟨rfl, change, hplace, hc⟩
  cases change with
  | rebuild =>
    refine Or.inr (Or.inr ?_)
    simp only [Served, Loop.go, Session.step, hrest, Session.reload]
    exact hreload (Or.inl rfl)
  | restart =>
    cases hbuilt : (m.run es).session.built with
    | none =>
      refine Or.inr (Or.inr ?_)
      simp only [Served, Loop.go, Session.step, hrest, Session.restartOnly, hbuilt, Session.reload]
      exact hreload (Or.inr hbuilt)
    | some executable =>
      have hstatus : (m.run es).session.status = .ready := by
        by_contra hn
        exact hskip ⟨rfl, hplace, by simp [hbuilt], hn⟩
      rcases h with h | h | h
      · rw [hplace] at h
        cases h
      · have hwaiting := h.waiting (by simp [hplace])
        exact Or.inr (Or.inl (owed_of_waiting hwaiting))
      · refine Or.inr (Or.inr ?_)
        simp only [Served, hrest] at h
        simp only [Served, Loop.go, Session.step, hrest, Session.restartOnly, hbuilt]
        exact (h hstatus).concat he hbuilt.symm rfl

theorem tracked_work {es : List Event} {op : Op} (hplace : (m.run es).place = .working)
    (hkept : Kept digest (m.run es)) (hop : op.inner = true) (h : Tracked m es (m.run es)) :
    Tracked m (es ++ [.work op]) ((m.run es).work digest windows op) := by
  have hserved := fun hs => @served_work digest windows m es op hplace hkept.readied hop hs
  rcases h with h | h | h
  · rw [hplace] at h
    cases h
  · have hwaiting := h.waiting (by rw [hplace]; exact nofun)
    unfold Loop.work
    split <;> exact Or.inr (Or.inl (owed_of_waiting hwaiting))
  · have := hserved h
    unfold Loop.work
    split <;> rename_i session heq <;> rw [heq] at this <;> exact Or.inr (Or.inr this)

theorem tracked_step {es : List Event} {e : Event} (hkept : Kept digest (m.run es))
    (hskip : ¬ Skips (m.run es) e) (h : Tracked m es (m.run es)) :
    Tracked m (es ++ [e]) ((m.run es).step digest windows e).1 := by
  -- an event that is not enabled, or touches no call, and brings no new rebuild
  have hstay : ¬ ReportsRebuild (m.run es) e → ¬ Begins (m.run es) e → ∀ {l : Loop},
      (l.session.work = (m.run es).session.work ∧ l.session.built = (m.run es).session.built ∧
        l.session.disk = (m.run es).session.disk ∧
        l.session.status = (m.run es).session.status) →
      ((m.run es).place = .ended → l.place = .ended) → (Owed (m.run es) → Owed l) →
      Tracked m (es ++ [e]) l := by
    rintro he hb l ⟨hwork, hbuilt, hdisk, hstatus⟩ hended howed
    exact h.imp hended (Or.imp howed fun hs => hs.concat he hb hwork hbuilt hdisk hstatus)
  have hsame : ¬ ReportsRebuild (m.run es) e → ¬ Begins (m.run es) e →
      Tracked m (es ++ [e]) (m.run es) := fun he hb => hstay he hb ⟨rfl, rfl, rfl, rfl⟩ id id
  cases e with
  | report signal =>
    by_cases hs : signal = .changed .rebuild
    · subst hs
      exact Or.inr (Or.inl (Or.inl (List.mem_append_right _ (List.mem_singleton_self _))))
    · refine hstay (fun hc => hs (Event.report.inj hc)) (fun hc => nomatch hc.1)
        ⟨rfl, rfl, rfl, rfl⟩ id (Or.imp_left fun hm => List.mem_append_left _ hm)
  | absorb =>
    have hb : ¬ Begins (m.run es) .absorb := fun hc => nomatch hc.1
    simp only [Loop.step]
    split
    · have hparts : ∀ l : Loop, l.absorb.session = l.session ∧ l.absorb.place = l.place := by
        intro l
        unfold Loop.absorb
        split <;> exact ⟨rfl, rfl⟩
      obtain ⟨hsession, hplace⟩ := hparts (m.run es)
      rw [← hsession] at hstay
      exact hstay nofun hb ⟨rfl, rfl, rfl, rfl⟩ (fun hc => hplace.trans hc) owed_absorb
    · exact hsame nofun hb
  | deliver =>
    have hb : ¬ Begins (m.run es) .deliver := fun hc => nomatch hc.1
    simp only [Loop.step]
    split
    · rename_i change hp
      split
      · rename_i hlisten
        rw [Bool.and_eq_true, List.isEmpty_iff] at hlisten
        have howed := fun ho => @owed_deliver digest windows _ ho change hp hlisten.1 hlisten.2
        refine hstay nofun hb ?_ (fun hc => ?_) howed
        · unfold Loop.deliver
          split <;> exact ⟨rfl, rfl, rfl, rfl⟩
        · rw [Loop.listening, hc] at hlisten
          cases hlisten.1
      · exact hsame nofun hb
    · exact hsame nofun hb
  | closed =>
    have hb : ¬ Begins (m.run es) .closed := fun hc => nomatch hc.1
    simp only [Loop.step]
    split
    · split
      · exact Or.inl rfl
      · exact hsame nofun hb
    · exact hsame nofun hb
  | interrupt =>
    have hb : ¬ Begins (m.run es) .interrupt := fun hc => nomatch hc.1
    simp only [Loop.step]
    split
    · exact Or.inl rfl
    · exact hstay nofun hb ⟨rfl, rfl, rfl, rfl⟩ id id
    · exact hsame nofun hb
  | turn =>
    have hb : ¬ Begins (m.run es) .turn := fun hc => nomatch hc.1
    simp only [Loop.step]
    split
    · rename_i hplace
      have hended : ∀ {p : Place}, (m.run es).place = .ended → p = .ended := fun hc => by
        rw [hplace] at hc
        cases hc
      have hwaiting := fun ho : Owed (m.run es) => ho.waiting (by rw [hplace]; exact nofun)
      split
      · rename_i change hnext
        refine hstay nofun hb ⟨rfl, rfl, rfl, rfl⟩ hended fun ho => ?_
        rcases hwaiting ho with ho | ho | ho
        · exact Or.inl ho
        · exact Or.inr (Or.inl ho)
        · rw [hnext] at ho
          cases ho
          exact Or.inr (Or.inr (Or.inr rfl))
      · exact hstay nofun hb ⟨rfl, rfl, rfl, rfl⟩ hended fun ho => owed_of_waiting (hwaiting ho)
    · exact hsame nofun hb
  | go =>
    simp only [Loop.step]
    split
    · exact tracked_go ‹_› hkept hskip h
    · rename_i hplace
      exact hsame nofun fun hc => by
        obtain ⟨_, change, hd, _⟩ := hc
        exact hplace change hd
  | work op =>
    have hb : ¬ Begins (m.run es) (.work op) := fun hc => nomatch hc.1
    simp only [Loop.step]
    split
    · split
      · exact tracked_work ‹_› hkept ‹_› h
      · exact hsame nofun hb
    · exact hsame nofun hb

theorem tracked_run {es : List Event}
    (hfree : ∀ i, CollisionFree digest ((rebuildLoop digest windows disk).run (es.take i)).session)
    (hskip : ∀ i, ¬ (rebuildLoop digest windows disk).Fires es i Skips) :
    Tracked (rebuildLoop digest windows disk) es ((rebuildLoop digest windows disk).run es) := by
  induction es using List.reverseRecOn with
  | nil => exact Or.inr (Or.inl (Or.inr (Or.inr (Or.inl rfl))))
  | append_singleton es e ih =>
    have hfree' := forall_take_of_concat (P := fun fs =>
      CollisionFree digest ((rebuildLoop digest windows disk).run fs).session) hfree
    have hskip' : ∀ i, ¬ (rebuildLoop digest windows disk).Fires es i Skips :=
      fun i hi => hskip i (Machine.fires_concat.mpr (Or.inl hi))
    rw [Machine.run_concat]
    exact tracked_step (kept_run hfree' hskip')
      (fun hs => hskip es.length (Machine.fires_last.mpr hs)) (ih hfree' hskip')

/-! ### No change is lost -/

end Arcature.Cli.Dev

import Arcature.Notifications.Channels

/-! No live connection is orphaned: the wiring of recipients, channels and subscriptions, over every
    interleaving.

    A channel is made for one key and serves no other: `owner` says which. A live subscription is
    counted by its channel, so the sweep, which goes by the count, leaves that channel in the map;
    the next subscription of the key finds it there. The receivers of a channel are the
    subscriptions whose drop has not let go yet, the live ones among them. What a lookup found
    therefore still holds, when the push sends, every connection that was live at the lookup and
    still is. -/

namespace Arcature.Notifications.Live
open Arcature.Lib

/-! ### The wiring -/

/-- The invariant: whom each channel was made for, and where its subscriptions stand. -/
structure Wired (owner : ChannelId → String) (w : World) : Prop where
  capacity : w.resolver.capacity ≠ 0
  entry : ∀ (k : String) (e : Entry), w.resolver.channels.get? k = some e →
    e.channel < w.allocated ∧ owner e.channel = k
  sub : ∀ (i : SubId) (s : Subscription), w.subs[i]? = some s →
    s.channel < w.allocated ∧ owner s.channel = s.key
  push : ∀ (p : ℕ) (a : Push) (c : ChannelId), w.pushes[p]? = some a → a.channel = some c →
    c < w.allocated ∧ owner c = a.key
  home : ∀ (i : SubId) (s : Subscription), w.subs[i]? = some s → s.live = true →
    ∃ e : Entry, w.resolver.channels.get? s.key = some e ∧ e.channel = s.channel
  receives : ∀ (c : ChannelId) (i : SubId), i ∈ (w.heap c).receivers ↔
    ∃ s : Subscription, w.subs[i]? = some s ∧ s.channel = c ∧ s.phase ≠ .closed
  nodup : ∀ c : ChannelId, (w.heap c).receivers.Nodup
  counts : ∀ c : ChannelId, w.subscriberCount c = w.subs.countP fun s => s.live && s.channel = c

namespace Wired
variable {owner : ChannelId → String} {w : World}

/-- A live subscription is counted. -/
theorem count_pos (hw : Wired owner w) {i : SubId} {s : Subscription} (hs : w.subs[i]? = some s)
    (hlive : s.live = true) : 0 < w.subscriberCount s.channel := by
  rw [hw.counts, List.countP_pos_iff]
  exact ⟨s, List.mem_of_getElem? hs, by simp [hlive]⟩

/-- The sweep takes no entry that a live subscription needs. -/
theorem sweep (hw : Wired owner w) (k : String) : Wired owner (w.sweep k) := by
  refine { hw with entry := fun k' e he => ?_, home := fun i s hs hlive => ?_ }
  · simp only [World.sweep, Table.get?_delete, Option.filter_eq_some_iff] at he
    exact hw.entry k' e he.1
  · obtain ⟨e, he, hc⟩ := hw.home i s hs hlive
    have hpos := hw.count_pos hs hlive
    refine ⟨e, ?_, hc⟩
    simp only [World.sweep, Table.get?_delete, Option.filter_eq_some_iff]
    exact ⟨he, by simp [hc, hpos]⟩

/-- After `entry(..).or_insert_with(..)` the map holds the channel for the key. -/
theorem entryOrNew (hw : Wired owner w) (k : String) :
    ∃ owner' w' c, w.entryOrNew k = some (w', c) ∧ Wired owner' w' ∧ w'.subs = w.subs ∧
      ∃ e, w'.resolver.channels.get? k = some e ∧ e.channel = c := by
  unfold World.entryOrNew
  cases he : w.resolver.channels.get? k with
  | some e => exact ⟨owner, w, e.channel, rfl, hw, rfl, e, he, rfl⟩
  | none =>
    have hnew : Broadcast.new w.resolver.capacity = some ⟨w.resolver.capacity, 0, []⟩ :=
      if_neg hw.capacity
    rw [hnew]
    refine ⟨Function.update owner w.allocated k, _, _, rfl, ?_, rfl, ⟨k, w.allocated⟩,
      (Table.get?_put _ _ rfl k).trans (if_pos rfl), rfl⟩
    -- nothing refers to the fresh address yet
    have hold : ∀ {c}, c < w.allocated → Function.update owner w.allocated k c = owner c :=
      fun hc => Function.update_of_ne hc.ne _ _
    have hfresh : ∀ (i : SubId) (s : Subscription), w.subs[i]? = some s → s.channel ≠ w.allocated :=
      fun i s hs => (hw.sub i s hs).1.ne
    constructor
    · exact hw.capacity
    · intro k' e he'
      rw [Table.get?_put] at he'
      split at he'
      · cases he'
        rename_i hk
        exact ⟨Nat.lt_succ_self _, (Function.update_self ..).trans hk.symm⟩
      · obtain ⟨hc, ho⟩ := hw.entry k' e he'
        exact ⟨hc.trans (Nat.lt_succ_self _), (hold hc).trans ho⟩
    · intro i s hs
      obtain ⟨hc, ho⟩ := hw.sub i s hs
      exact ⟨hc.trans (Nat.lt_succ_self _), (hold hc).trans ho⟩
    · intro p a c ha hc'
      obtain ⟨hc, ho⟩ := hw.push p a c ha hc'
      exact ⟨hc.trans (Nat.lt_succ_self _), (hold hc).trans ho⟩
    · intro i s hs hlive
      obtain ⟨e, he', hc⟩ := hw.home i s hs hlive
      refine ⟨e, ?_, hc⟩
      have hne : s.key ≠ k := fun hk => by
        rw [hk, he] at he'
        cases he'
      exact (Table.get?_put _ _ rfl _).trans ((if_neg hne).trans he')
    · intro c i
      simp only [Function.update_apply]
      split
      · rename_i hc
        subst hc
        simp only [List.not_mem_nil, false_iff, not_exists, not_and]
        exact fun s hs hch => absurd hch (hfresh i s hs)
      · exact hw.receives c i
    · intro c
      simp only [Function.update_apply]
      split
      · exact List.nodup_nil
      · exact hw.nodup c
    · intro c
      simp only [World.subscriberCount, Function.update_apply]
      split
      · rename_i hc
        subst hc
        symm
        rw [List.countP_eq_zero]
        intro s hs
        obtain ⟨i, hi⟩ := List.mem_iff_getElem?.mp hs
        simp [hfresh i s hi]
      · exact hw.counts c

/-- A subscription of the channel the map holds for its key keeps the wiring. -/
theorem attach (hw : Wired owner w) {k : String} {e : Entry}
    (he : w.resolver.channels.get? k = some e) : Wired owner (w.attach k e.channel) := by
  have hsub : ∀ {i s}, (w.attach k e.channel).subs[i]? = some s →
      w.subs[i]? = some s ∨ (i = w.subs.length ∧ s = ⟨k, e.channel, .held⟩) := by
    intro i s hs
    simp only [World.attach, World.onChannel] at hs
    rcases lt_trichotomy i w.subs.length with hi | rfl | hi
    · rw [List.getElem?_append_left hi] at hs
      exact Or.inl hs
    · simp at hs
      exact Or.inr ⟨rfl, hs.symm⟩
    · rw [List.getElem?_eq_none (by simp; omega)] at hs
      cases hs
  have hmem : ∀ {i s}, w.subs[i]? = some s → (w.attach k e.channel).subs[i]? = some s :=
    fun {i s} hs => by
      simp only [World.attach, World.onChannel]
      rw [List.getElem?_append_left (List.getElem?_eq_some_iff.mp hs).1]
      exact hs
  have hlast : (w.attach k e.channel).subs[w.subs.length]? = some ⟨k, e.channel, .held⟩ := by
    simp [World.attach, World.onChannel]
  obtain ⟨hbound, howner⟩ := hw.entry k e he
  constructor
  · exact hw.capacity
  · exact hw.entry
  · intro i s hs
    rcases hsub hs with hs | ⟨_, rfl⟩
    · exact hw.sub i s hs
    · exact ⟨hbound, howner⟩
  · exact hw.push
  · intro i s hs hlive
    rcases hsub hs with hs | ⟨_, rfl⟩
    · exact hw.home i s hs hlive
    · exact ⟨e, he, rfl⟩
  · intro c i
    have hrec : i ∈ ((w.attach k e.channel).heap c).receivers ↔
        i ∈ (w.heap c).receivers ∨ (c = e.channel ∧ i = w.subs.length) := by
      simp only [World.attach, World.onChannel, Function.update_apply]
      split
      · rename_i hc
        subst hc
        simp [Broadcast.subscribe]
      · simp [*]
    rw [hrec, hw.receives]
    constructor
    · rintro (⟨s, hs, hc, hp⟩ | ⟨rfl, rfl⟩)
      · exact ⟨s, hmem hs, hc, hp⟩
      · exact ⟨_, hlast, rfl, by simp⟩
    · rintro ⟨s, hs, hc, hp⟩
      rcases hsub hs with hs | ⟨hi, rfl⟩
      · exact Or.inl ⟨s, hs, hc, hp⟩
      · exact Or.inr ⟨hc.symm, hi⟩
  · intro c
    simp only [World.attach, World.onChannel, Function.update_apply]
    split
    · simp only [Broadcast.subscribe]
      rw [List.nodup_append]
      refine ⟨hw.nodup _, List.nodup_singleton _, ?_⟩
      rintro i hi j hj rfl
      obtain ⟨s, hs, _⟩ := (hw.receives _ _).mp hi
      rw [List.mem_singleton.mp hj, List.getElem?_eq_none le_rfl] at hs
      cases hs
    · exact hw.nodup c
  · intro c
    have hcount := hw.counts c
    simp only [World.subscriberCount] at hcount ⊢
    simp only [World.attach, World.onChannel, Function.update_apply, List.countP_append,
      List.countP_singleton, Subscription.live, Bool.true_and, decide_eq_true_eq]
    split
    · rename_i hc
      subst hc
      simp only [Broadcast.subscribe, if_true, hcount, Subscription.live]
    · rename_i hc
      rw [if_neg (Ne.symm hc), hcount, Nat.add_zero]
      rfl

/-- A subscription's drop moves on, and its channel with it: the count loses the subscription when
    it stops being live, the receivers when it is closed. -/
theorem advance (hw : Wired owner w) {i : SubId} {s : Subscription} {phase : Phase}
    {f : Broadcast → Broadcast} (hs : w.subs[i]? = some s) (hopen : s.phase ≠ .closed)
    (hlive : ({ s with phase } : Subscription).live = true → s.live = true)
    (hrec : ∀ b : Broadcast, (f b).receivers =
      if phase = .closed then b.receivers.erase i else b.receivers)
    (hcount : (f (w.heap s.channel)).subscriberCount + (if s.live then 1 else 0) =
      w.subscriberCount s.channel + if ({ s with phase } : Subscription).live then 1 else 0) :
    Wired owner ((w.onChannel s.channel f).advance i s phase) := by
  have hi : i < w.subs.length := (List.getElem?_eq_some_iff.mp hs).1
  have hsub : ∀ {j t}, (w.subs.set i { s with phase })[j]? = some t →
      (j ≠ i ∧ w.subs[j]? = some t) ∨ (j = i ∧ t = { s with phase }) := by
    intro j t ht
    rcases eq_or_ne i j with rfl | hne
    · rw [List.getElem?_set_self hi] at ht
      exact Or.inr ⟨rfl, (Option.some.inj ht).symm⟩
    · rw [List.getElem?_set_ne hne] at ht
      exact Or.inl ⟨hne.symm, ht⟩
  constructor
  · exact hw.capacity
  · exact hw.entry
  · intro j t ht
    rcases hsub ht with ⟨_, ht⟩ | ⟨_, rfl⟩
    · exact hw.sub j t ht
    · exact hw.sub i s hs
  · exact hw.push
  · intro j t ht htl
    rcases hsub ht with ⟨_, ht⟩ | ⟨_, rfl⟩
    · exact hw.home j t ht htl
    · exact hw.home i s hs (hlive htl)
  · intro c j
    have hnew : j ∈ (((w.onChannel s.channel f).advance i s phase).heap c).receivers ↔
        j ∈ (w.heap c).receivers ∧ ¬ (c = s.channel ∧ phase = .closed ∧ j = i) := by
      simp only [World.advance, World.onChannel, Function.update_apply]
      split
      · rename_i hc
        subst hc
        rw [hrec]
        split
        · rw [(hw.nodup _).mem_erase_iff]
          tauto
        · tauto
      · tauto
    rw [hnew, hw.receives]
    constructor
    · rintro ⟨⟨t, ht, hc, hp⟩, hn⟩
      rcases eq_or_ne i j with rfl | hne
      · rw [hs] at ht
        cases ht
        exact ⟨_, List.getElem?_set_self hi, hc, fun hph => hn ⟨hc.symm, hph, rfl⟩⟩
      · exact ⟨t, (List.getElem?_set_ne hne).trans ht, hc, hp⟩
    · rintro ⟨t, ht, hc, hp⟩
      rcases hsub ht with ⟨hne, ht⟩ | ⟨rfl, rfl⟩
      · exact ⟨⟨t, ht, hc, hp⟩, fun h => hne h.2.2⟩
      · exact ⟨⟨s, hs, hc, hopen⟩, fun h => hp h.2.1⟩
  · intro c
    simp only [World.advance, World.onChannel, Function.update_apply]
    split
    · rw [hrec]
      split
      · exact (hw.nodup _).erase _
      · exact hw.nodup _
    · exact hw.nodup c
  · intro c
    have hold := hw.counts c
    obtain ⟨_, hget⟩ := List.getElem?_eq_some_iff.mp hs
    simp only [World.subscriberCount] at hold hcount ⊢
    simp only [World.advance, World.onChannel, Function.update_apply]
    rw [List.countP_set hi, hget]
    rcases eq_or_ne c s.channel with rfl | hne
    · have hpos : s.live = true → 0 < (w.heap s.channel).subscriberCount := hw.count_pos hs
      simp only [if_true, decide_true, Bool.and_true, ← hold]
      by_cases hl : s.live = true
      · have := hpos hl
        rw [if_pos hl] at hcount ⊢
        omega
      · rw [if_neg hl] at hcount ⊢
        omega
    · simp [hne.symm, hne, hold]

/-- A step of a drop that leaves the channel alone. -/
theorem idle (hw : Wired owner w) {i : SubId} {s : Subscription} {phase : Phase}
    (hs : w.subs[i]? = some s) (hold : s.live = true)
    (hnew : ({ s with phase } : Subscription).live = true) : Wired owner (w.advance i s phase) := by
  have hopen : s.phase ≠ .closed := fun hc => by simp [Subscription.live, hc] at hold
  have hph : phase ≠ .closed := fun hc => by simp [Subscription.live, hc] at hnew
  have hid : w.onChannel s.channel id = w := by simp [World.onChannel]
  rw [← hid]
  exact hw.advance hs hopen (fun _ => hold) (fun b => (if_neg hph).symm) (by rw [hold, hnew]; rfl)

theorem subscribe (hw : Wired owner w) (k : String) :
    ∃ owner' w', w.subscribe k = some w' ∧ Wired owner' w' := by
  obtain ⟨owner', w', c, hnew, hw', _, e, he, rfl⟩ := (hw.sweep k).entryOrNew k
  exact ⟨owner', _, by rw [World.subscribe, hnew]; rfl, hw'.attach he⟩

theorem load (hw : Wired owner w) (X : Externals) (i : SubId) :
    Wired owner (w.step X (.load i)).1 := by
  simp only [World.step]
  split
  · rename_i s hs
    split
    · rename_i hph
      have hlive : s.live = true := by simp [Subscription.live, hph]
      rw [if_neg (hw.count_pos hs hlive).ne']
      exact hw.idle hs hlive rfl
    · exact hw
  · exact hw

theorem exchange (hw : Wired owner w) (X : Externals) (i : SubId) (spurious : Bool) :
    Wired owner (w.step X (.exchange i spurious)).1 := by
  simp only [World.step]
  split
  · rename_i s hs
    split
    · rename_i current hph
      have hlive : s.live = true := by simp [Subscription.live, hph]
      split
      · rename_i hcur
        have hpos := hw.count_pos hs hlive
        refine hw.advance hs (by simp [hph]) (fun _ => hlive) (fun b => rfl) ?_
        rw [if_pos hlive, if_neg (by simp [Subscription.live]), ← hcur.1]
        exact Nat.sub_add_cancel hpos
      · exact hw.idle hs hlive rfl
    · exact hw
  · exact hw

theorem close (hw : Wired owner w) (X : Externals) (i : SubId) :
    Wired owner (w.step X (.close i)).1 := by
  simp only [World.step]
  split
  · rename_i s hs
    split
    · rename_i hph
      refine hw.advance hs (by simp [hph]) (fun h => ?_) (fun b => rfl) ?_
      · simp [Subscription.live] at h
      · rw [if_neg (by simp [Subscription.live, hph]), if_neg (by simp [Subscription.live])]
        rfl
    · exact hw
  · exact hw

end Wired

/-- A subscription keeps its key and channel; a push keeps what it was called with, and its channel
    until it is done. -/
structure Keeps (w w' : World) : Prop where
  sub : ∀ (i : SubId) (s : Subscription), w.subs[i]? = some s →
    ∃ s' : Subscription, w'.subs[i]? = some s' ∧ s'.key = s.key ∧ s'.channel = s.channel
  push : ∀ (p : ℕ) (a : Push), w.pushes[p]? = some a →
    ∃ a' : Push, w'.pushes[p]? = some a' ∧ a'.key = a.key ∧ a'.content = a.content ∧
      (a'.channel = a.channel ∨ a'.channel = none)

theorem Keeps.refl (w : World) : Keeps w w :=
  ⟨fun _ s hs => ⟨s, hs, rfl, rfl⟩, fun _ a ha => ⟨a, ha, rfl, rfl, Or.inl rfl⟩⟩

theorem Keeps.trans {w₁ w₂ w₃ : World} (h : Keeps w₁ w₂) (h' : Keeps w₂ w₃) : Keeps w₁ w₃ := by
  constructor
  · intro i s hs
    obtain ⟨s₂, hs₂, hk₂, hc₂⟩ := h.sub i s hs
    obtain ⟨s₃, hs₃, hk₃, hc₃⟩ := h'.sub i s₂ hs₂
    exact ⟨s₃, hs₃, hk₃.trans hk₂, hc₃.trans hc₂⟩
  · intro p a ha
    obtain ⟨a₂, ha₂, hk₂, hd₂, hc₂⟩ := h.push p a ha
    obtain ⟨a₃, ha₃, hk₃, hd₃, hc₃⟩ := h'.push p a₂ ha₂
    refine ⟨a₃, ha₃, hk₃.trans hk₂, hd₃.trans hd₂, ?_⟩
    rcases hc₃ with hc₃ | hc₃
    · exact hc₂.imp hc₃.trans hc₃.trans
    · exact Or.inr hc₃

/-- What the code relies on the channel underneath for: a send reaches exactly the receivers
    subscribed at that moment and reports how many, or fails when there is none. -/
structure Reaches (send : Send) : Prop where
  reaches : ∀ (receivers : List SubId) (i : SubId), i ∈ (send receivers).2 ↔ i ∈ receivers
  counts : ∀ receivers : List SubId,
    (send receivers).1 = if receivers = [] then none else some receivers.length

end Arcature.Notifications.Live

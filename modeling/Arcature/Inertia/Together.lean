import Arcature.Lib.Poll

/-! Polling all the resolvers of a page at once (`resolve_together` in `inertia/props.rs`).

    Every pass polls each future that is still parked, in the order of the slots, and lets go of
    those that are ready. The passes are driven until none is left:

        slot   0  1  2        pending counts 1, 0, 2
        pass   P  R  P
               R  ·  P
               ·  ·  R        outcomes in slot order

    A write past the end of the outcomes and a count below zero would panic; they are cases of
    `pollSlot`, and `resolveTogether_eq` shows that neither happens, that the passes come to an end
    and that each future was polled up to its first `Ready` and no further. -/

namespace Arcature.Inertia
open Arcature.Lib

variable {ρ : Type}

/-- What `poll_fn` holds between two polls, and a record of the polls made: slot, and whether it was
    ready. -/
structure Together (ρ : Type) where
  pending : List (Option (Future ρ))
  outcomes : List (Option ρ)
  remaining : ℕ
  polls : List (ℕ × Bool)

/-- All parked, nothing polled. -/
def Together.start (resolvers : List (Future ρ)) : Together ρ where
  pending := resolvers.map some
  outcomes := List.replicate resolvers.length none
  remaining := resolvers.length
  polls := []

/-- One turn of the loop over the slots. -/
def pollSlot (s : Together ρ) (slot : ℕ) : Option (Together ρ) :=
  match s.pending[slot]? with
  | some (some future) =>
    match future.poll with
    | (.ready outcome, _) =>
      -- `outcomes[slot]` and `remaining -= 1` would panic
      if slot < s.outcomes.length ∧ 0 < s.remaining then
        some {
          pending := s.pending.set slot none
          outcomes := s.outcomes.set slot (some outcome)
          remaining := s.remaining - 1
          polls := s.polls ++ [(slot, true)] }
      else none
    | (.pending, future) =>
      some { s with
        pending := s.pending.set slot (some future)
        polls := s.polls ++ [(slot, false)] }
  | _ => some s

/-- One poll of the whole: every slot in turn. -/
def pollAll (s : Together ρ) : Option (Together ρ) := (List.range s.pending.length).foldlM pollSlot s

/-- Polls of the whole until it is ready. -/
def drive : (fuel : ℕ) → Together ρ → Option (Together ρ)
  | 0, _ => none
  | fuel + 1, s => (pollAll s).bind fun s => if s.remaining = 0 then some s else drive fuel s

/-- The outcomes in the order the resolvers were parked. -/
def resolveTogether (fuel : ℕ) (resolvers : List (Future ρ)) : Option (List (Option ρ)) :=
  (drive fuel (.start resolvers)).map Together.outcomes

/-! ### One turn -/

/-- The answers a slot gave. -/
def answers (slot : ℕ) (polls : List (ℕ × Bool)) : List Bool :=
  (polls.filter fun p => p.1 = slot).map Prod.snd

/-- Slot `j` was polled `turns j` times, or as often as it took. -/
structure Polled (resolvers : List (Future ρ)) (turns : ℕ → ℕ) (s : Together ρ) : Prop where
  pending : ∀ j, s.pending[j]? = resolvers[j]?.map (Future.slotAfter (turns j))
  outcomes : ∀ j, s.outcomes[j]? = resolvers[j]?.map (Future.outcomeAfter (turns j))
  remaining : s.remaining = s.pending.countP Option.isSome
  polls : ∀ j f, resolvers[j]? = some f → answers j s.polls = f.answersAfter (turns j)

theorem length_of_getElem? {α β : Type} {l : List α} {m : List β} {f : ℕ → α → β}
    (h : ∀ j, m[j]? = l[j]?.map (f j)) : m.length = l.length := by
  apply le_antisymm
  · rw [← List.getElem?_eq_none_iff, h, List.getElem?_eq_none le_rfl, Option.map_none]
  · have hnone := h m.length
    rw [List.getElem?_eq_none le_rfl, eq_comm, Option.map_eq_none_iff] at hnone
    exact List.getElem?_eq_none_iff.mp hnone

theorem answers_concat (j slot : ℕ) (polls : List (ℕ × Bool)) (b : Bool) :
    answers j (polls ++ [(slot, b)]) = answers j polls ++ if slot = j then [b] else [] := by
  by_cases h : slot = j <;> simp [answers, h]

theorem polled_start (resolvers : List (Future ρ)) : Polled resolvers (fun _ => 0) (.start resolvers) where
  pending j := by cases h : resolvers[j]? <;> simp [Together.start, h, Future.slotAfter]
  outcomes j := by
    rcases lt_or_ge j resolvers.length with h | h
    · simp [Together.start, h, Future.outcomeAfter]
    · simp [Together.start, Nat.not_lt.mpr h]
  remaining := by simp [Together.start, List.countP_map, Function.comp_def]
  polls j f _ := by simp [Together.start, answers, Future.answersAfter]

theorem countP_set_isSome {α : Type} {l : List (Option α)} {i : ℕ} {x : α} (h : l[i]? = some (some x))
    (y : Option α) : (l.set i y).countP Option.isSome + 1 =
      l.countP Option.isSome + if y.isSome then 1 else 0 := by
  obtain ⟨hi, hx⟩ := List.getElem?_eq_some_iff.mp h
  have hpos : 0 < l.countP Option.isSome :=
    List.countP_pos_iff.mpr ⟨some x, List.mem_of_getElem? h, rfl⟩
  rw [List.countP_set hi, hx, Option.isSome_some, if_pos rfl]
  omega

theorem set_getElem?_self {α : Type} {l : List α} {i : ℕ} {x : α} (h : l[i]? = some x) :
    l.set i x = l := by
  obtain ⟨hi, rfl⟩ := List.getElem?_eq_some_iff.mp h
  exact List.set_getElem_self hi

/-- Only the turns of slots that there are count. -/
theorem Polled.congr {resolvers : List (Future ρ)} {turns turns' : ℕ → ℕ} {s : Together ρ}
    (h : Polled resolvers turns s) (hturns : ∀ j < resolvers.length, turns j = turns' j) :
    Polled resolvers turns' s := by
  refine ⟨fun j => ?_, fun j => ?_, h.remaining, fun j f hf => ?_⟩
  · rw [h.pending]
    cases hf : resolvers[j]? with
    | none => rfl
    | some f => rw [hturns j (List.getElem?_eq_some_iff.mp hf).1]
  · rw [h.outcomes]
    cases hf : resolvers[j]? with
    | none => rfl
    | some f => rw [hturns j (List.getElem?_eq_some_iff.mp hf).1]
  · rw [h.polls j f hf, hturns j (List.getElem?_eq_some_iff.mp hf).1]

/-- One more turn of a slot, from what it did to the lists. -/
theorem Polled.turn {resolvers : List (Future ρ)} {turns : ℕ → ℕ} {s s' : Together ρ} {slot : ℕ}
    {f : Future ρ} (h : Polled resolvers turns s) (hf : resolvers[slot]? = some f)
    (hpending : s'.pending = s.pending.set slot (f.slotAfter (turns slot + 1)))
    (houtcomes : s'.outcomes = s.outcomes.set slot (f.outcomeAfter (turns slot + 1)))
    (hremaining : s'.remaining = s'.pending.countP Option.isSome)
    (hpolls : ∀ j, answers j s'.polls =
      if slot = j then f.answersAfter (turns slot + 1) else answers j s.polls) :
    Polled resolvers (Function.update turns slot (turns slot + 1)) s' := by
  have hslot : slot < resolvers.length := (List.getElem?_eq_some_iff.mp hf).1
  refine ⟨fun j => ?_, fun j => ?_, hremaining, fun j g hg => ?_⟩
  · rw [hpending, List.getElem?_set, length_of_getElem? h.pending]
    by_cases hj : slot = j
    · subst hj
      rw [if_pos rfl, if_pos hslot, hf, Function.update_self, Option.map_some]
    · rw [if_neg hj, h.pending, Function.update_of_ne (Ne.symm hj)]
  · rw [houtcomes, List.getElem?_set, length_of_getElem? h.outcomes]
    by_cases hj : slot = j
    · subst hj
      rw [if_pos rfl, if_pos hslot, hf, Function.update_self, Option.map_some]
    · rw [if_neg hj, h.outcomes, Function.update_of_ne (Ne.symm hj)]
  · rw [hpolls]
    by_cases hj : slot = j
    · subst hj
      obtain rfl : f = g := Option.some_inj.mp (hf.symm.trans hg)
      simp
    · rw [if_neg hj, h.polls j g hg, Function.update_of_ne (Ne.symm hj)]

theorem pollSlot_ready {s : Together ρ} {slot : ℕ} {g : Future ρ} {outcome : ρ}
    (hparked : s.pending[slot]? = some (some g)) (hpoll : g.poll.1 = .ready outcome)
    (hlength : slot < s.outcomes.length) (hleft : 0 < s.remaining) :
    pollSlot s slot = some
      { pending := s.pending.set slot none
        outcomes := s.outcomes.set slot (some outcome)
        remaining := s.remaining - 1
        polls := s.polls ++ [(slot, true)] } := by
  rw [pollSlot, hparked]
  rcases hp : g.poll with ⟨answer, left⟩
  obtain rfl : answer = .ready outcome := by rw [← hpoll, hp]
  simp [hp, hlength, hleft]

theorem pollSlot_pending {s : Together ρ} {slot : ℕ} {g : Future ρ}
    (hparked : s.pending[slot]? = some (some g)) (hpoll : g.poll.1 = .pending) :
    pollSlot s slot = some
      { s with
        pending := s.pending.set slot (some g.poll.2)
        polls := s.polls ++ [(slot, false)] } := by
  rw [pollSlot, hparked]
  rcases hp : g.poll with ⟨answer, left⟩
  obtain rfl : answer = .pending := by rw [← hpoll, hp]
  simp [hp]

/-- A turn never panics, and polls its slot once more if there is something left to poll. -/
theorem pollSlot_spec {resolvers : List (Future ρ)} {turns : ℕ → ℕ} {s : Together ρ} (slot : ℕ)
    (h : Polled resolvers turns s) (hslot : slot < resolvers.length) :
    ∃ s', pollSlot s slot = some s' ∧
      Polled resolvers (Function.update turns slot (turns slot + 1)) s' := by
  have hf : resolvers[slot]? = some resolvers[slot] := List.getElem?_eq_getElem hslot
  generalize resolvers[slot] = f at hf
  have hparked : s.pending[slot]? = some (f.slotAfter (turns slot)) := by rw [h.pending, hf]; rfl
  have houtcome : s.outcomes[slot]? = some (f.outcomeAfter (turns slot)) := by
    rw [h.outcomes, hf]
    rfl
  cases hg : f.slotAfter (turns slot) with
  | none =>
    -- let go before: the slot is passed over
    obtain ⟨hslotAfter, houtcomeAfter, hanswers⟩ := Future.slotAfter_succ_of_none hg
    rw [hg] at hparked
    refine ⟨s, by simp [pollSlot, hparked], h.turn hf ?_ ?_ h.remaining fun j => ?_⟩
    · rw [hslotAfter, set_getElem?_self hparked]
    · rw [houtcomeAfter, set_getElem?_self houtcome]
    · split_ifs with hj
      · subst hj
        rw [hanswers, h.polls slot f hf]
      · rfl
  | some g =>
    rw [hg] at hparked
    have hcount := countP_set_isSome hparked
    have hlength : slot < s.outcomes.length := by rwa [length_of_getElem? h.outcomes]
    have hleft : 0 < s.remaining := by
      rw [h.remaining]
      exact List.countP_pos_iff.mpr ⟨some g, List.mem_of_getElem? hparked, rfl⟩
    have hanswer : ∀ j b, f.answersAfter (turns slot + 1) = f.answersAfter (turns slot) ++ [b] →
        answers j (s.polls ++ [(slot, b)]) =
          if slot = j then f.answersAfter (turns slot + 1) else answers j s.polls := by
      intro j b hb
      rw [answers_concat]
      split_ifs with hj
      · subst hj
        rw [hb, h.polls slot f hf]
      · rw [List.append_nil]
    rcases Future.poll_slotAfter hg with ⟨hpoll, hslotAfter, houtcomeAfter, hanswers⟩ |
      ⟨hpoll, hslotAfter, houtcomeAfter, hanswers⟩
    · refine ⟨_, pollSlot_ready hparked hpoll hlength hleft, h.turn hf ?_ ?_ ?_ fun j => hanswer j true hanswers⟩
      · rw [hslotAfter]
      · rw [houtcomeAfter]
      · have := hcount none
        simp only [Option.isSome_none, Bool.false_eq_true, if_false] at this
        rw [h.remaining]
        simp only
        omega
    · refine ⟨_, pollSlot_pending hparked hpoll, h.turn hf ?_ ?_ ?_ fun j => hanswer j false hanswers⟩
      · rw [hslotAfter]
      · rw [houtcomeAfter, set_getElem?_self houtcome]
      · have := hcount (some g.poll.2)
        simp only [Option.isSome_some, if_true] at this
        rw [h.remaining]
        simp only
        omega

/-! ### Passes, and the whole -/

/-- The turns after some slots of a pass. -/
theorem foldlM_pollSlot {resolvers : List (Future ρ)} {k : ℕ} {s : Together ρ}
    (h : Polled resolvers (fun _ => k) s) {n : ℕ} (hn : n ≤ resolvers.length) :
    ∃ s', (List.range n).foldlM pollSlot s = some s' ∧
      Polled resolvers (fun j => if j < n then k + 1 else k) s' := by
  induction n with
  | zero => exact ⟨s, rfl, by simpa using h⟩
  | succ n ih =>
    obtain ⟨s', hrun, hpolled⟩ := ih (by omega)
    obtain ⟨s'', hturn, hpolled'⟩ := pollSlot_spec n hpolled (by omega)
    refine ⟨s'', by rw [List.range_succ, List.foldlM_append, hrun]; simpa using hturn, ?_⟩
    convert hpolled' using 1
    funext j
    rcases eq_or_ne j n with rfl | hj
    · simp
    · rw [Function.update_of_ne hj]
      congr 1
      simp only [eq_iff_iff]
      omega

/-- A pass never panics and gives every slot one more turn. -/
theorem pollAll_spec {resolvers : List (Future ρ)} {k : ℕ} {s : Together ρ}
    (h : Polled resolvers (fun _ => k) s) :
    ∃ s', pollAll s = some s' ∧ Polled resolvers (fun _ => k + 1) s' := by
  have hlength : s.pending.length = resolvers.length := length_of_getElem? h.pending
  obtain ⟨s', hrun, hpolled⟩ := foldlM_pollSlot h le_rfl
  exact ⟨s', by rw [pollAll, hlength, hrun], hpolled.congr fun j hj => if_pos hj⟩

/-- Nothing is left to poll once every future was polled past its pending answers. -/
theorem remaining_eq_zero_iff {resolvers : List (Future ρ)} {k : ℕ} {s : Together ρ}
    (h : Polled resolvers (fun _ => k) s) :
    s.remaining = 0 ↔ ∀ f ∈ resolvers, f.pending < k := by
  rw [h.remaining, List.countP_eq_zero]
  constructor
  · intro hnone f hf
    obtain ⟨j, hj⟩ := List.mem_iff_getElem?.mp hf
    have hslot := h.pending j
    rw [hj] at hslot
    have := hnone _ (List.mem_of_getElem? hslot)
    by_contra hlt
    simp [Future.slotAfter, hlt] at this
  · intro hall o ho
    obtain ⟨j, hj⟩ := List.mem_iff_getElem?.mp ho
    rw [h.pending, Option.map_eq_some_iff] at hj
    obtain ⟨f, hf, rfl⟩ := hj
    simp [Future.slotAfter, hall f (List.mem_of_getElem? hf)]

theorem drive_spec {resolvers : List (Future ρ)} {fuel k : ℕ} {s : Together ρ}
    (h : Polled resolvers (fun _ => k) s) (hfuel : 0 < fuel)
    (henough : ∀ f ∈ resolvers, f.pending < k + fuel) :
    ∃ s' k', drive fuel s = some s' ∧ Polled resolvers (fun _ => k') s' ∧
      ∀ f ∈ resolvers, f.pending < k' := by
  induction fuel generalizing k s with
  | zero => omega
  | succ fuel ih =>
    obtain ⟨s', hpass, hpolled⟩ := pollAll_spec h
    rw [drive, hpass, Option.bind_some]
    by_cases hdone : s'.remaining = 0
    · exact ⟨s', k + 1, if_pos hdone, hpolled, (remaining_eq_zero_iff hpolled).mp hdone⟩
    · rw [if_neg hdone]
      have hleft : ¬ ∀ f ∈ resolvers, f.pending < k + 1 :=
        fun hall => hdone ((remaining_eq_zero_iff hpolled).mpr hall)
      refine ih hpolled ?_ fun f hf => ?_
      · by_contra hzero
        refine hleft fun f hf => ?_
        have := henough f hf
        omega
      · have := henough f hf
        omega

/-- The passes end, with every outcome in the slot of its resolver, and each resolver was polled
    `Pending` by `Pending` up to its first `Ready` and not again. -/
theorem resolveTogether_eq (resolvers : List (Future ρ)) {fuel : ℕ} (hfuel : 0 < fuel)
    (henough : ∀ f ∈ resolvers, f.pending < fuel) :
    ∃ s, drive fuel (.start resolvers) = some s ∧
      s.outcomes = resolvers.map (fun f => some f.outcome) ∧
      ∀ j f, resolvers[j]? = some f → answers j s.polls = List.replicate f.pending false ++ [true] := by
  obtain ⟨s, k, hdrive, hpolled, hall⟩ :=
    drive_spec (polled_start resolvers) hfuel (by simpa using henough)
  refine ⟨s, hdrive, ?_, ?_⟩
  · refine List.ext_getElem? fun j => ?_
    rw [hpolled.outcomes, List.getElem?_map]
    cases hf : resolvers[j]? with
    | none => rfl
    | some f => simp [Future.outcomeAfter, hall f (List.mem_of_getElem? hf)]
  · intro j f hf
    have hlt := hall f (List.mem_of_getElem? hf)
    rw [hpolled.polls j f hf, Future.answersAfter, if_pos hlt, min_eq_right hlt.le]

end Arcature.Inertia

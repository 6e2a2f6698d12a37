import Arcature.Lib.Machine

/-! Tasks that share a memory.

    Any number of tasks run one program, each at a place of its own. Between two atomic accesses of a task any
    other may get in any number of its own, so a schedule is a list of events, each of which starts a task or
    lets one of them make its next access:

        spawn a        places ++ [start a]
        step i x       (memory, places[i])  ──act x──▶  (memory', places[i]')

    `Kept.run` carries from one access to all schedules what holds of the memory, what each task may rely on
    whatever the others do, and a count: where each access changes the measure of the memory as its own task
    begins or ceases to own something, the measure is the number of owners. A task that owns something then
    knows that the measure is not zero, which the access may assume. `Bounded.run` is about how many steps of
    its own a task still needs. -/

namespace Arcature.Lib

/-- A program for tasks over a memory `σ`: where a task starts, and what an access makes of the memory and of
    the place it is made at. The scheduler chooses what the program leaves open. -/
structure Program (σ π α χ : Type*) where
  init : σ
  start : α → π
  act : σ → π → χ → σ × π

/-- The memory, and where each task is. -/
structure Tasks (σ π : Type*) where
  memory : σ
  places : List π

/-- One event of a schedule. -/
inductive Turn (α χ : Type*) where
  | spawn (a : α)
  | step (i : ℕ) (x : χ)

namespace Program

variable {σ π α χ : Type*} (P : Program σ π α χ)

/-- One event. A step of a task that was not started changes nothing. -/
def turn (s : Tasks σ π) : Turn α χ → Tasks σ π
  | .spawn a => { s with places := s.places ++ [P.start a] }
  | .step i x =>
    match s.places[i]? with
    | none => s
    | some place => ⟨(P.act s.memory place x).1, s.places.set i (P.act s.memory place x).2⟩

/-- The tasks as a machine. -/
def tasks : Machine (Tasks σ π) (Turn α χ) Unit := ⟨⟨P.init, []⟩, fun s e => (P.turn s e, ())⟩

@[simp] theorem init_tasks : P.tasks.init = ⟨P.init, []⟩ := rfl

@[simp] theorem next_tasks (s : Tasks σ π) (e : Turn α χ) : P.tasks.next s e = P.turn s e := rfl

/-- An event starts a task, makes an access, or is a step of no task. -/
theorem turn_cases (s : Tasks σ π) (e : Turn α χ) :
    (∃ a, e = .spawn a ∧ P.turn s e = ⟨s.memory, s.places ++ [P.start a]⟩) ∨
      (∃ i x place, e = .step i x ∧ s.places[i]? = some place ∧
        P.turn s e = ⟨(P.act s.memory place x).1, s.places.set i (P.act s.memory place x).2⟩) ∨
      (∃ i x, e = .step i x ∧ s.places[i]? = none ∧ P.turn s e = s) := by
  cases e with
  | spawn a => exact .inl ⟨a, rfl, rfl⟩
  | step i x =>
    cases hplace : s.places[i]? with
    | none => exact .inr (.inr ⟨i, x, rfl, hplace, by simp [turn, hplace]⟩)
    | some place => exact .inr (.inl ⟨i, x, place, rfl, hplace, by simp [turn, hplace]⟩)

/-- What a step does to the place it is made at. -/
theorem getElem?_turn {s : Tasks σ π} {i : ℕ} {place : π} (h : s.places[i]? = some place) (x : χ) :
    (P.turn s (.step i x)).places[i]? = some (P.act s.memory place x).2 := by
  obtain ⟨hi, -⟩ := List.getElem?_eq_some_iff.mp h
  simp [turn, h, List.getElem?_set_self hi]

/-- A place is moved by its own task's steps only. -/
theorem getElem?_turn_ne {s : Tasks σ π} {e : Turn α χ} {i : ℕ} {place : π} (h : s.places[i]? = some place)
    (hne : ∀ x, e ≠ .step i x) : (P.turn s e).places[i]? = some place := by
  obtain ⟨hi, -⟩ := List.getElem?_eq_some_iff.mp h
  rcases P.turn_cases s e with ⟨a, -, hturn⟩ | ⟨j, x, place', rfl, -, hturn⟩ | ⟨-, -, -, -, hturn⟩
  · rw [hturn, List.getElem?_append_left hi, h]
  · have hji : j ≠ i := fun hji => hne x (by rw [hji])
    rw [hturn, List.getElem?_set_ne hji, h]
  · rw [hturn, h]

/-- A task at a place was there before and did not move, has just been started, or made the step. -/
theorem of_getElem?_turn {s : Tasks σ π} {e : Turn α χ} {i : ℕ} {place' : π}
    (h : (P.turn s e).places[i]? = some place') :
    ((∀ x, e ≠ .step i x) ∧ s.places[i]? = some place') ∨
      (∃ a, e = .spawn a ∧ s.places[i]? = none ∧ place' = P.start a) ∨
        ∃ x place, e = .step i x ∧ s.places[i]? = some place ∧ place' = (P.act s.memory place x).2 := by
  rcases P.turn_cases s e with ⟨a, rfl, hturn⟩ | ⟨j, x, place, rfl, hplace, hturn⟩ | ⟨j, x, rfl, hplace, hturn⟩
  · rw [hturn] at h
    rcases Nat.lt_or_ge i s.places.length with hi | hi
    · exact .inl ⟨fun _ hx => (by cases hx), by rwa [List.getElem?_append_left hi] at h⟩
    · refine .inr (.inl ⟨a, rfl, List.getElem?_eq_none_iff.mpr hi, ?_⟩)
      rw [List.getElem?_append_right hi] at h
      exact List.mem_singleton.mp (List.mem_of_getElem? h)
  · rw [hturn] at h
    rcases eq_or_ne j i with rfl | hne
    · refine .inr (.inr ⟨x, place, rfl, hplace, ?_⟩)
      rw [List.getElem?_set_self (List.getElem?_eq_some_iff.mp hplace).1] at h
      exact (Option.some.inj h).symm
    · exact .inl ⟨fun _ hx => hne (Turn.step.inj hx).1, by rwa [List.getElem?_set_ne hne] at h⟩
  · rw [hturn] at h
    refine .inl ⟨fun y hy => ?_, h⟩
    rw [(Turn.step.inj hy).1, h] at hplace
    cases hplace

/-! ### Counting -/

/-- Moving one task changes a count by that task. -/
theorem countP_set {places : List π} {i : ℕ} {place : π} (p : π → Bool) (place' : π)
    (h : places[i]? = some place) :
    (places.set i place').countP p + (p place).toNat = places.countP p + (p place').toNat := by
  induction places generalizing i with
  | nil => simp at h
  | cons q places ih =>
    cases i with
    | zero =>
      obtain rfl := Option.some.inj h
      simp only [List.set_cons_zero, List.countP_cons, Bool.toNat, Bool.cond_eq_ite]
      omega
    | succ i =>
      have hrest := ih h
      simp only [List.set_cons_succ, List.countP_cons] at hrest ⊢
      omega

/-- A task that is counted is one of a positive number. -/
theorem countP_pos_of_getElem? {places : List π} {i : ℕ} {place : π} {p : π → Bool}
    (h : places[i]? = some place) (hp : p place = true) : 0 < places.countP p :=
  List.countP_pos_iff.mpr ⟨place, List.mem_of_getElem? h, hp⟩

/-! ### What every schedule keeps -/

/-- `J` of the memory, `I` of each place with it, and a measure of the memory that is the number of owners. -/
structure Kept (J : σ → Prop) (I : σ → π → Prop) (measure : σ → ℕ) (owns : π → Bool) : Prop where
  init : J P.init
  zero : measure P.init = 0
  start : ∀ s a, J s → I s (P.start a)
  free : ∀ a, owns (P.start a) = false
  memory : ∀ s place x, J s → I s place → (owns place = true → 0 < measure s) → J (P.act s place x).1
  place : ∀ s place x, J s → I s place → (owns place = true → 0 < measure s) →
    I (P.act s place x).1 (P.act s place x).2
  rely : ∀ s place x other, J s → I s place → (owns place = true → 0 < measure s) → I s other →
    I (P.act s place x).1 other
  count : ∀ s place x, J s → I s place → (owns place = true → 0 < measure s) →
    measure (P.act s place x).1 + (owns place).toNat = measure s + (owns (P.act s place x).2).toNat

variable {P}

/-- What `Kept` keeps, of a state. -/
def Holds (J : σ → Prop) (I : σ → π → Prop) (measure : σ → ℕ) (owns : π → Bool) (s : Tasks σ π) : Prop :=
  J s.memory ∧ (∀ place ∈ s.places, I s.memory place) ∧ measure s.memory = s.places.countP owns

section Kept

variable {J : σ → Prop} {I : σ → π → Prop} {measure : σ → ℕ} {owns : π → Bool}

theorem Kept.turn (h : P.Kept J I measure owns) {s : Tasks σ π} (e : Turn α χ) (hs : Holds J I measure owns s) :
    Holds J I measure owns (P.turn s e) := by
  obtain ⟨hJ, hI, hcount⟩ := hs
  rcases P.turn_cases s e with ⟨a, -, hturn⟩ | ⟨i, x, place, -, hplace, hturn⟩ | ⟨-, -, -, -, hturn⟩
  · rw [hturn]
    refine ⟨hJ, List.forall_mem_append.mpr ⟨hI, ?_⟩, ?_⟩
    · simpa using h.start _ a hJ
    · rw [List.countP_append, List.countP_singleton, h.free a]
      simpa using hcount
  · rw [hturn]
    have hown := hI place (List.mem_of_getElem? hplace)
    have hpos : owns place = true → 0 < measure s.memory := fun hp => by
      rw [hcount]
      exact countP_pos_of_getElem? hplace hp
    refine ⟨h.memory _ _ x hJ hown hpos, fun other hmem => ?_, ?_⟩
    · rcases List.mem_or_eq_of_mem_set hmem with hmem | rfl
      · exact h.rely _ _ x _ hJ hown hpos (hI other hmem)
      · exact h.place _ _ x hJ hown hpos
    · have hset := countP_set owns (P.act s.memory place x).2 hplace
      have hact := h.count _ _ x hJ hown hpos
      dsimp only
      omega
  · rw [hturn]
    exact ⟨hJ, hI, hcount⟩

/-- What each access keeps, every schedule keeps. -/
theorem Kept.run (h : P.Kept J I measure owns) (es : List (Turn α χ)) :
    Holds J I measure owns (P.tasks.run es) :=
  P.tasks.inv ⟨h.init, by simp, h.zero⟩ (fun _ e hs => h.turn e hs) es

end Kept

/-- No task goes away. -/
theorem length_places_le (es : List (Turn α χ)) {i j : ℕ} (hij : i ≤ j) :
    (P.tasks.run (es.take i)).places.length ≤ (P.tasks.run (es.take j)).places.length := by
  refine P.tasks.rel_take (R := fun s s' => s.places.length ≤ s'.places.length) (fun _ => le_rfl) le_trans
    (fun s e => ?_) es hij
  rw [next_tasks]
  rcases P.turn_cases s e with ⟨a, -, hturn⟩ | ⟨i, x, place, -, -, hturn⟩ | ⟨-, -, -, -, hturn⟩
  · rw [hturn]
    simp
  · rw [hturn]
    simp
  · rw [hturn]

/-- What a task's own steps do to its place, while `K` holds, a schedule does. -/
theorem rel_places {K : Tasks σ π → Prop} {R : π → π → Prop} (hrefl : ∀ place, R place place)
    (htrans : ∀ {a b c}, R a b → R b c → R a c) (hturn : ∀ s e, K s → K (P.turn s e))
    (hact : ∀ (s : Tasks σ π) (i : ℕ) place x, K s → s.places[i]? = some place → R place (P.act s.memory place x).2)
    {before : List (Turn α χ)} (hK : K (P.tasks.run before)) {i : ℕ} {place : π}
    (hplace : (P.tasks.run before).places[i]? = some place) (after : List (Turn α χ)) :
    K (P.tasks.run (before ++ after)) ∧
      ∃ place', (P.tasks.run (before ++ after)).places[i]? = some place' ∧ R place place' := by
  induction after using List.reverseRecOn with
  | nil =>
    rw [List.append_nil]
    exact ⟨hK, place, hplace, hrefl place⟩
  | append_singleton after e ih =>
    obtain ⟨hK', place', hplace', hR⟩ := ih
    rw [← List.append_assoc, Machine.run_concat, next_tasks]
    refine ⟨hturn _ e hK', ?_⟩
    by_cases hown : ∃ x, e = .step i x
    · obtain ⟨x, rfl⟩ := hown
      exact ⟨_, P.getElem?_turn hplace' x, htrans hR (hact _ i place' x hK' hplace')⟩
    · exact ⟨place', P.getElem?_turn_ne hplace' fun x hx => hown ⟨x, hx⟩, hR⟩

/-! ### Tickets -/

variable (P) in
/-- Each task draws a ticket once, from a counter that goes up by one with it. -/
structure Draws (ticket : π → Option ℕ) (counter : σ → ℕ) : Prop where
  init : counter P.init = 0
  start : ∀ a, ticket (P.start a) = none
  act : ∀ s place x, (ticket (P.act s place x).2 = ticket place ∧ counter (P.act s place x).1 = counter s) ∨
    (ticket place = none ∧ ticket (P.act s place x).2 = some (counter s) ∧ counter (P.act s place x).1 = counter s + 1)

/-- What `Draws` keeps: the tickets are below the counter, and no two tasks have the same. -/
structure Drawn (ticket : π → Option ℕ) (counter : σ → ℕ) (s : Tasks σ π) : Prop where
  lt : ∀ (i : ℕ) place t, s.places[i]? = some place → ticket place = some t → t < counter s.memory
  inj : ∀ (i j : ℕ) place place' t, s.places[i]? = some place → s.places[j]? = some place' → ticket place = some t →
    ticket place' = some t → i = j

section Draws

variable {ticket : π → Option ℕ} {counter : σ → ℕ}

/-- A ticket after an event was there before, at the same task, or has just been drawn. -/
theorem Draws.of_turn (h : P.Draws ticket counter) {s : Tasks σ π} {e : Turn α χ} {i : ℕ} {place' : π} {t : ℕ}
    (hplace : (P.turn s e).places[i]? = some place') (ht : ticket place' = some t) :
    (∃ place, s.places[i]? = some place ∧ ticket place = some t) ∨
      (t = counter s.memory ∧ counter (P.turn s e).memory = counter s.memory + 1 ∧ ∃ x, e = .step i x) := by
  rcases P.of_getElem?_turn hplace with ⟨-, hsame⟩ | ⟨a, -, -, rfl⟩ | ⟨x, place, rfl, hthere, rfl⟩
  · exact .inl ⟨place', hsame, ht⟩
  · rw [h.start a] at ht
    cases ht
  · have hmemory : (P.turn s (.step i x)).memory = (P.act s.memory place x).1 := by simp [turn, hthere]
    rcases h.act s.memory place x with ⟨hkept, -⟩ | ⟨-, hdrawn, hcounter⟩
    · exact .inl ⟨place, hthere, hkept.symm.trans ht⟩
    · exact .inr ⟨Option.some.inj (ht.symm.trans hdrawn), by rw [hmemory, hcounter], x, rfl⟩

theorem Draws.counter_turn (h : P.Draws ticket counter) (s : Tasks σ π) (e : Turn α χ) :
    counter s.memory ≤ counter (P.turn s e).memory ∧ counter (P.turn s e).memory ≤ counter s.memory + 1 := by
  rcases P.turn_cases s e with ⟨a, -, hturn⟩ | ⟨i, x, place, -, -, hturn⟩ | ⟨-, -, -, -, hturn⟩
  · rw [hturn]
    exact ⟨le_rfl, Nat.le_succ _⟩
  · rw [hturn]
    rcases h.act s.memory place x with ⟨-, hcounter⟩ | ⟨-, -, hcounter⟩ <;> dsimp only <;> omega
  · rw [hturn]
    exact ⟨le_rfl, Nat.le_succ _⟩

theorem Draws.turn (h : P.Draws ticket counter) {s : Tasks σ π} (e : Turn α χ) (hs : Drawn ticket counter s) :
    Drawn ticket counter (P.turn s e) where
  lt i place' t hplace ht := by
    obtain ⟨hle, -⟩ := h.counter_turn s e
    rcases h.of_turn hplace ht with ⟨place, hthere, hold⟩ | ⟨rfl, hcounter, -⟩
    · exact (hs.lt i place t hthere hold).trans_le hle
    · omega
  inj i j place place' t hi hj ht ht' := by
    rcases h.of_turn hi ht with ⟨p, hp, hpt⟩ | ⟨rfl, -, x, rfl⟩ <;>
      rcases h.of_turn hj ht' with ⟨q, hq, hqt⟩ | ⟨hnew, -, y, hy⟩
    · exact hs.inj i j p q t hp hq hpt hqt
    · -- an old ticket is below the counter
      have hlt := hs.lt i p t hp hpt
      omega
    · exact absurd (hs.lt j q _ hq hqt) (lt_irrefl _)
    · exact (Turn.step.inj hy).1

/-- Whatever the schedule, the tickets are distinct, and there are no more than events. -/
theorem Draws.run (h : P.Draws ticket counter) (es : List (Turn α χ)) :
    Drawn ticket counter (P.tasks.run es) ∧ counter (P.tasks.run es).memory ≤ es.length := by
  induction es using List.reverseRecOn with
  | nil => exact ⟨⟨by simp, by simp⟩, by simp [h.init]⟩
  | append_singleton es e ih =>
    obtain ⟨hdrawn, hcount⟩ := ih
    obtain ⟨-, hle⟩ := h.counter_turn (P.tasks.run es) e
    rw [Machine.run_concat, next_tasks, List.length_append, List.length_singleton]
    exact ⟨h.turn e hdrawn, by omega⟩

end Draws

/-! ### How long a task takes -/

end Program

/-- A step of task `i`. -/
def Turn.isOf (i : ℕ) : Turn α χ → Bool
  | .spawn _ => false
  | .step j _ => j = i

namespace Program

variable {σ π α χ : Type*} {P : Program σ π α χ}

variable (P) in
/-- While `K` holds, which it does for good, `left` bounds the steps that a task with `I` has yet to make: each
    of its own takes one away, and no step of another adds to it. -/
structure Bounded (K : Tasks σ π → Prop) (I : σ → π → Prop) (left : σ → π → ℕ) : Prop where
  turn : ∀ s e, K s → K (P.turn s e)
  own : ∀ (s : Tasks σ π) (i : ℕ) place x, K s → s.places[i]? = some place → I s.memory place →
    I (P.act s.memory place x).1 (P.act s.memory place x).2 ∧
      left (P.act s.memory place x).1 (P.act s.memory place x).2 ≤ left s.memory place - 1
  other : ∀ (s : Tasks σ π) (i : ℕ) place x place', K s → s.places[i]? = some place → I s.memory place' →
    I (P.act s.memory place x).1 place' ∧ left (P.act s.memory place x).1 place' ≤ left s.memory place'

/-- Whatever the others do in between, a task has at most the steps left that its own do not account for. -/
theorem Bounded.run {K : Tasks σ π → Prop} {I : σ → π → Prop} {left : σ → π → ℕ} (h : P.Bounded K I left)
    {before : List (Turn α χ)} (hK : K (P.tasks.run before)) {i : ℕ} {place : π}
    (hplace : (P.tasks.run before).places[i]? = some place) (hI : I (P.tasks.run before).memory place)
    (after : List (Turn α χ)) :
    K (P.tasks.run (before ++ after)) ∧
      ∃ place', (P.tasks.run (before ++ after)).places[i]? = some place' ∧
        I (P.tasks.run (before ++ after)).memory place' ∧
        left (P.tasks.run (before ++ after)).memory place' ≤
          left (P.tasks.run before).memory place - after.countP (Turn.isOf i) := by
  induction after using List.reverseRecOn with
  | nil =>
    rw [List.append_nil]
    exact ⟨hK, place, hplace, hI, by simp⟩
  | append_singleton after e ih =>
    obtain ⟨hK', place', hplace', hI', hleft⟩ := ih
    have hturned := h.turn _ e hK'
    rw [← List.append_assoc, Machine.run_concat, next_tasks, List.countP_append, List.countP_singleton]
    refine ⟨hturned, ?_⟩
    rcases P.turn_cases (P.tasks.run (before ++ after)) e with
      ⟨a, rfl, hturn⟩ | ⟨j, x, there, rfl, hthere, hturn⟩ | ⟨j, x, rfl, hthere, hturn⟩
    · obtain ⟨hlt, -⟩ := List.getElem?_eq_some_iff.mp hplace'
      rw [hturn]
      exact ⟨place', by rw [List.getElem?_append_left hlt, hplace'], hI', by simpa [Turn.isOf] using hleft⟩
    · rw [hturn]
      by_cases hji : j = i
      · subst hji
        obtain rfl := Option.some.inj (hthere.symm.trans hplace')
        obtain ⟨hlt, -⟩ := List.getElem?_eq_some_iff.mp hthere
        obtain ⟨hown, hless⟩ := h.own _ j there x hK' hthere hI'
        refine ⟨_, List.getElem?_set_self hlt, hown, ?_⟩
        simp only [Turn.isOf, decide_true, if_true]
        omega
      · obtain ⟨hother, hless⟩ := h.other _ j there x place' hK' hthere hI'
        refine ⟨place', by rw [List.getElem?_set_ne hji, hplace'], hother, ?_⟩
        simp only [Turn.isOf, hji, decide_false, Bool.false_eq_true, if_false]
        omega
    · have hji : j ≠ i := by
        rintro rfl
        rw [hplace'] at hthere
        cases hthere
      rw [hturn]
      exact ⟨place', hplace', hI', by simpa [Turn.isOf, hji] using hleft⟩

end Program

end Arcature.Lib

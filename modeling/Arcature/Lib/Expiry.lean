import Arcature.Lib.Machine
import Mathlib.Logic.Function.Basic
import Mathlib.Order.Nat

/-! A key-value store whose keys may expire.

    A key holds a cell: a value, and the time at which it is gone if there is one. A command touches one key at
    most, and a cell whose time has come is as good as none to every command:

        set, setNx       ──▶  value, now + ttl           setNx only where there is none
        update           ──▶  value', the old time       unless the function fails
        expire           ──▶  value, now + ttl           or none, where ttl ≤ 0
        del              ──▶  none

    A machine may drive such a store (`Driven`): at each event time goes by and one command may arrive. Then a cell
    is there if it was made and nothing has altered its key since (`Driven.cells_iff`), and a lease, which is a
    value set where there was none, excludes any other until its time, or until a command that is not a lease
    alters its key (`Driven.exclusive`). -/

namespace Arcature.Lib.Expiry

variable {κ ν : Type*}

/-- A value, and when it is gone. -/
structure Cell (ν : Type*) where
  value : ν
  deadline : Option ℕ
  deriving DecidableEq

def Cell.alive (now : ℕ) (c : Cell ν) : Bool := c.deadline.all fun d => now < d

/-- The store at a time. -/
structure Store (κ ν : Type*) where
  now : ℕ
  cells : κ → Option (Cell ν)

namespace Store

/-- The cell of a key, if its time has not come. -/
def live (s : Store κ ν) (k : κ) : Option (Cell ν) := (s.cells k).filter (Cell.alive s.now)

/-- What is read at a key. -/
def look (s : Store κ ν) (k : κ) : Option ν := (s.live k).map Cell.value

/-- Time goes by. -/
def elapse (s : Store κ ν) (elapsed : ℕ) : Store κ ν := { s with now := s.now + elapsed }

@[simp] theorem now_elapse (s : Store κ ν) (elapsed : ℕ) : (s.elapse elapsed).now = s.now + elapsed := rfl

@[simp] theorem cells_elapse (s : Store κ ν) (elapsed : ℕ) : (s.elapse elapsed).cells = s.cells := rfl

end Store

/-- What a store is asked. -/
inductive Command (κ ν : Type*) where
  | get (k : κ)
  | set (k : κ) (v : ν) (ttl : Option ℕ)
  | setNx (k : κ) (v : ν) (ttl : Option ℕ)
  | del (k : κ)
  | expire (k : κ) (ttl : ℤ)
  | update (k : κ) (f : Option ν → Option ν)

namespace Command

/-- The key it is about. -/
def key : Command κ ν → κ
  | .get k | .set k _ _ | .setNx k _ _ | .del k | .expire k _ | .update k _ => k

/-- What it makes of its key, if it alters it. -/
def effect (s : Store κ ν) : Command κ ν → Option (Option (Cell ν))
  | .get _ => none
  | .set _ v ttl => some (some ⟨v, ttl.map (s.now + ·)⟩)
  | .setNx k v ttl => if (s.live k).isSome then none else some (some ⟨v, ttl.map (s.now + ·)⟩)
  | .del k => if (s.live k).isSome then some none else none
  | .expire k ttl =>
    (s.live k).map fun c => if ttl ≤ 0 then none else some ⟨c.value, some (s.now + ttl.toNat)⟩
  | .update k f => (f (s.look k)).map fun v => some ⟨v, (s.live k).bind Cell.deadline⟩

/-- It may alter its key. -/
def writes : Command κ ν → Bool
  | .get _ => false
  | _ => true

/-- It sets a value only where there is none. -/
def isLease : Command κ ν → Bool
  | .setNx _ _ _ => true
  | _ => false

end Command

/-- A cell that is not seen is over. -/
theorem alive_of_live {s : Store κ ν} {k : κ} {v : ν} {d : ℕ} (hcells : s.cells k = some ⟨v, some d⟩)
    (hnone : s.live k = none) : d ≤ s.now := by
  by_contra hlt
  have halive : Cell.alive s.now (⟨v, some d⟩ : Cell ν) = true := by simpa [Cell.alive] using hlt
  rw [Store.live, hcells, Option.filter_some, if_pos halive] at hnone
  cases hnone

section Exec

variable [DecidableEq κ]

/-- The store after a command. -/
def Store.exec (s : Store κ ν) (c : Command κ ν) : Store κ ν :=
  match c.effect s with
  | none => s
  | some cell => { s with cells := Function.update s.cells c.key cell }

@[simp] theorem now_exec (s : Store κ ν) (c : Command κ ν) : (s.exec c).now = s.now := by
  rw [Store.exec]
  split <;> rfl

theorem exec_of_effect_none {s : Store κ ν} {c : Command κ ν} (h : c.effect s = none) : s.exec c = s := by
  rw [Store.exec, h]

theorem cells_exec {s : Store κ ν} {c : Command κ ν} {cell : Option (Cell ν)} (h : c.effect s = some cell) (k : κ) :
    (s.exec c).cells k = if k = c.key then cell else s.cells k := by
  rw [Store.exec, h]
  exact Function.update_apply s.cells c.key cell k

theorem live_exec {s : Store κ ν} {c : Command κ ν} {cell : Option (Cell ν)} (h : c.effect s = some cell) (k : κ) :
    (s.exec c).live k = if k = c.key then cell.filter (Cell.alive s.now) else s.live k := by
  rw [Store.live, now_exec, cells_exec h]
  split_ifs
  · rfl
  · rfl

/-- A command leaves every other key. -/
theorem cells_exec_of_ne {s : Store κ ν} {c : Command κ ν} {k : κ} (h : k ≠ c.key) : (s.exec c).cells k = s.cells k := by
  cases heffect : c.effect s with
  | none => rw [exec_of_effect_none heffect]
  | some cell => rw [cells_exec heffect, if_neg h]

/-- What happens to the store at one event: time goes by, and a command may arrive. -/
def Store.receive (s : Store κ ν) (elapsed : ℕ) : Option (Command κ ν) → Store κ ν
  | none => s.elapse elapsed
  | some c => (s.elapse elapsed).exec c

theorem now_receive (s : Store κ ν) (elapsed : ℕ) (c : Option (Command κ ν)) :
    (s.receive elapsed c).now = s.now + elapsed := by
  cases c <;> simp [Store.receive]

end Exec

/-! ### A machine over a store -/

section Driven

variable [DecidableEq κ] {σ ε ω : Type*}

/-- Each event of the machine lets time go by in the store, and sends it one command at most. -/
structure Driven (m : Machine σ ε ω) (store : σ → Store κ ν) (elapsed : σ → ε → ℕ)
    (sends : σ → ε → Option (Command κ ν)) : Prop where
  next : ∀ s e, store (m.next s e) = (store s).receive (elapsed s e) (sends s e)
  empty : ∀ k, (store m.init).cells k = none

variable (store : σ → Store κ ν) (elapsed : σ → ε → ℕ) (sends : σ → ε → Option (Command κ ν))

/-- The event sends a command that makes this of the key. -/
def Makes (k : κ) (cell : Option (Cell ν)) (s : σ) (e : ε) : Prop :=
  ∃ c, sends s e = some c ∧ c.key = k ∧ c.effect ((store s).elapse (elapsed s e)) = some cell

/-- The event alters the key. -/
def Alters (k : κ) (s : σ) (e : ε) : Prop := ∃ cell, Makes store elapsed sends k cell s e

/-- The event alters the key by a command that is not a lease. -/
def Revokes (k : κ) (s : σ) (e : ε) : Prop :=
  ∃ c, sends s e = some c ∧ c.isLease = false ∧ c.key = k ∧ c.effect ((store s).elapse (elapsed s e)) ≠ none

/-- The event is granted a lease of the key. -/
def Grants (k : κ) (v : ν) (ttl : Option ℕ) (s : σ) (e : ε) : Prop :=
  sends s e = some (.setNx k v ttl) ∧ ((store s).elapse (elapsed s e)).live k = none

variable {store elapsed sends} {m : Machine σ ε ω}

namespace Driven

theorem now_next (h : Driven m store elapsed sends) (s : σ) (e : ε) :
    (store (m.next s e)).now = (store s).now + elapsed s e := by
  rw [h.next, now_receive]

theorem now_take_le (h : Driven m store elapsed sends) (es : List ε) {i j : ℕ} (hij : i ≤ j) :
    (store (m.run (es.take i))).now ≤ (store (m.run (es.take j))).now :=
  m.rel_take (R := fun s s' => (store s).now ≤ (store s').now) (fun _ => le_rfl) le_trans
    (fun s e => by rw [h.now_next]; exact Nat.le_add_right _ _) es hij

/-- An event makes something of a key, or leaves it. -/
theorem cells_next (h : Driven m store elapsed sends) (k : κ) (s : σ) (e : ε) :
    (∃ cell, Makes store elapsed sends k cell s e ∧ (store (m.next s e)).cells k = cell) ∨
      (¬ Alters store elapsed sends k s e ∧ (store (m.next s e)).cells k = (store s).cells k) := by
  rw [h.next]
  cases hsends : sends s e with
  | none =>
    refine .inr ⟨?_, rfl⟩
    rintro ⟨cell, c, hc, -⟩
    rw [hsends] at hc
    cases hc
  | some c =>
    by_cases hkey : c.key = k
    · cases heffect : c.effect ((store s).elapse (elapsed s e)) with
      | none =>
        refine .inr ⟨?_, by rw [Store.receive, exec_of_effect_none heffect, Store.cells_elapse]⟩
        rintro ⟨cell, c', hc', -, heffect'⟩
        obtain rfl := Option.some.inj (hsends.symm.trans hc')
        rw [heffect] at heffect'
        cases heffect'
      | some cell =>
        exact .inl ⟨cell, ⟨c, hsends, hkey, heffect⟩, by rw [Store.receive, cells_exec heffect, if_pos hkey.symm]⟩
    · refine .inr ⟨?_, by rw [Store.receive, cells_exec_of_ne (Ne.symm hkey), Store.cells_elapse]⟩
      rintro ⟨cell, c', hc', hkey', -⟩
      obtain rfl := Option.some.inj (hsends.symm.trans hc')
      exact hkey hkey'

omit [DecidableEq κ] in
theorem makes_unique {k : κ} {s : σ} {e : ε} {cell cell' : Option (Cell ν)}
    (h : Makes store elapsed sends k cell s e) (h' : Makes store elapsed sends k cell' s e) : cell = cell' := by
  obtain ⟨c, hc, -, heffect⟩ := h
  obtain ⟨c', hc', -, heffect'⟩ := h'
  obtain rfl := Option.some.inj (hc.symm.trans hc')
  exact Option.some.inj (heffect.symm.trans heffect')

/-- A cell is at a key exactly if it was made there and nothing has altered the key since. -/
theorem cells_iff (h : Driven m store elapsed sends) (k : κ) (c : Cell ν) (es : List ε) :
    (store (m.run es)).cells k = some c ↔
      m.Since (Makes store elapsed sends k (some c)) (Alters store elapsed sends k) es := by
  refine Machine.iff_since (Q := fun s => (store s).cells k = some c) (by rw [h.empty]; exact nofun)
    (fun es e => ?_) es
  rcases h.cells_next k (m.run es) e with ⟨cell, hmakes, hcell⟩ | ⟨hnot, hsame⟩
  · rw [hcell]
    constructor
    · rintro rfl
      exact .inl hmakes
    · rintro (hmade | ⟨-, hnot⟩)
      · exact makes_unique hmakes hmade
      · exact absurd ⟨cell, hmakes⟩ hnot
  · rw [hsame]
    exact ⟨fun hcells => .inr ⟨hcells, hnot⟩, fun hor => hor.elim (fun hmade => absurd ⟨_, hmade⟩ hnot) And.left⟩

/-! ### Leases -/

/-- After a grant its cell is there, or its time has come, as long as only leases alter the key. -/
theorem held (h : Driven m store elapsed sends) {es : List ε} {k : κ} {v : ν} {ttl i : ℕ}
    (hgrant : m.Fires es i (Grants store elapsed sends k v (some ttl))) {j : ℕ} (hij : i < j)
    (hquiet : ∀ l, i < l → l < j → ¬ m.Fires es l (Revokes store elapsed sends k)) (hj : j ≤ es.length) :
    (store (m.run (es.take j))).cells k = some ⟨v, some ((store (m.run (es.take (i + 1)))).now + ttl)⟩ ∨
      (store (m.run (es.take (i + 1)))).now + ttl ≤ (store (m.run (es.take j))).now := by
  induction j, hij using Nat.le_induction with
  | base =>
    obtain ⟨e, he, hsends, hlive⟩ := hgrant
    left
    have hnow := h.now_next (m.run (es.take i)) e
    have heffect : (Command.setNx k v (some ttl)).effect
        ((store (m.run (es.take i))).elapse (elapsed (m.run (es.take i)) e)) =
          some (some ⟨v, some ((store (m.run (es.take i))).now + elapsed (m.run (es.take i)) e + ttl)⟩) := by
      simp [Command.effect, hlive]
    rw [Machine.run_take_succ he, hnow, h.next, hsends, Store.receive, cells_exec heffect]
    exact if_pos rfl
  | succ j hij ih =>
    have hlt : j < es.length := hj
    have he : es[j]? = some es[j] := List.getElem?_eq_getElem hlt
    rw [Machine.run_take_succ he]
    rcases ih (fun l hl hlj => hquiet l hl (Nat.lt_succ_of_lt hlj)) hlt.le with hcells | hover
    · rcases h.cells_next k (m.run (es.take j)) es[j] with ⟨cell, ⟨c, hsends, hkey, heffect⟩, -⟩ | ⟨-, hsame⟩
      · right
        -- only a lease can have altered the key, and it found nothing alive
        cases c with
        | setNx k' v' ttl' =>
          obtain rfl : k' = k := hkey
          rw [Command.effect] at heffect
          split_ifs at heffect with hsome
          rw [h.now_next]
          exact alive_of_live (s := (store (m.run (es.take j))).elapse _) hcells (by simpa using hsome)
        | _ =>
          exact absurd ⟨es[j], he, _, hsends, rfl, hkey, by rw [heffect]; exact Option.some_ne_none _⟩
            (hquiet j hij (Nat.lt_succ_self j))
      · exact .inl (hsame.trans hcells)
    · right
      rw [h.now_next]
      omega

/-- A lease excludes any other of its key until its time has come, or until a command that is not a lease alters
    the key. -/
theorem exclusive (h : Driven m store elapsed sends) {es : List ε} {k : κ} {v v' : ν} {ttl i j : ℕ}
    {ttl' : Option ℕ} (hi : m.Fires es i (Grants store elapsed sends k v (some ttl)))
    (hj : m.Fires es j (Grants store elapsed sends k v' ttl')) (hij : i < j) :
    (store (m.run (es.take (i + 1)))).now + ttl ≤ (store (m.run (es.take (j + 1)))).now ∨
      ∃ l, i < l ∧ l < j ∧ m.Fires es l (Revokes store elapsed sends k) := by
  by_cases hquiet : ∃ l, i < l ∧ l < j ∧ m.Fires es l (Revokes store elapsed sends k)
  · exact .inr hquiet
  · left
    have hheld := h.held hi hij (fun l hl hlj hfires => hquiet ⟨l, hl, hlj, hfires⟩) hj.lt.le
    obtain ⟨e, he, -, hlive⟩ := hj
    rw [Machine.run_take_succ he, h.now_next]
    rcases hheld with hcells | hover
    · exact alive_of_live (s := (store (m.run (es.take j))).elapse _) hcells hlive
    · omega

end Driven

end Driven

end Arcature.Lib.Expiry

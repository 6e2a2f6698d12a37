import Arcature.Jobs.Dispatch

/-! What is kept of an error (`truncate_for_storage` of `jobs/error.rs`, on its way through
    `mark_retry` and `mark_dead` of `jobs/complete.rs`).

    A long message is cut to 4096 bytes, or to a few less where that would cut a character, and three dots
    are put behind. It is cut before the call and once more in it:

        bytes that fit      once            twice
        4093                4093 + ...      the same
        4094                4094 + ...      4094 + .. + ...
        4096                4096 + ...      the same

    With the dots the text is over the bound again, unless exactly 4093 bytes fit (`stored_iff`). -/

namespace Arcature.Jobs
open Arcature.Lib

/-- What `mark_retry` and `mark_dead` store of a message that `stored_message` has cut. -/
def storedError (message : Str) : Str := truncateForStorage (truncateForStorage message)

/-- The first character that does not fit begins three bytes before the bound. -/
def FitsDots (message : Str) : Prop :=
  ∃ (fit rest : Str) (c : Char), message = fit ++ c :: rest ∧ fit.len + 3 = lastErrorMaxBytes ∧ c.utf8Size = 4

/-- The statement of a handler's error leaves the error as it is stored in the row of the claim. -/
theorem lastError_persist {t : JobTable} {job : ClaimedJob} {r : Row} (hr : t.get? job.id = some r)
    (hfence : fence job.id job.claimToken r = true) (e : JobError) (timeoutSecs delay : ℕ) (clock now : Time) :
    ∃ r', (exec t (persist job (.handlerError e) timeoutSecs delay clock now)).1.get? job.id = some r' ∧
      r'.lastError = some (storedError e.display) := by
  have hstatement : (persist job (.handlerError e) timeoutSecs delay clock now).hits t r = true ∧
      ((persist job (.handlerError e) timeoutSecs delay clock now).set r).lastError = some (storedError e.display) := by
    rw [persist, JobState.decide]
    split_ifs <;> exact ⟨hfence, rfl⟩
  refine ⟨_, get?_exec_some hr _, ?_⟩
  rw [if_pos hstatement.1, hstatement.2]

/-! ### One cut -/

theorem truncate_short {message : Str} (h : message.len ≤ lastErrorMaxBytes) : truncateForStorage message = message :=
  if_pos h

theorem truncate_long {fit rest : Str} {c : Char} (hfit : fit.len ≤ lastErrorMaxBytes)
    (hover : lastErrorMaxBytes < fit.len + c.utf8Size) :
    truncateForStorage (fit ++ c :: rest) = fit ++ ['.', '.', '.'] := by
  have hlong : ¬ (fit ++ c :: rest).len ≤ lastErrorMaxBytes := by
    rw [Str.len_append, Str.len]
    omega
  have hwalk : floorBoundary (fit ++ c :: rest) lastErrorMaxBytes = fit.len :=
    Str.walkBack_append rfl (fun _ => rfl) hfit hover
  rw [truncateForStorage, if_neg hlong, hwalk, Str.sliceTo_append]

/-! ### Two cuts -/

theorem len_replicate {c : Char} (hc : c.utf8Size = 1) (k : ℕ) : Str.len (List.replicate k c) = k := by
  induction k with
  | zero => rfl
  | succ k ih => rw [List.replicate_succ, Str.len, ih, hc, Nat.add_comm]

theorem len_dots (k : ℕ) : Str.len (List.replicate k '.') = k := len_replicate rfl k

theorem stored_short {message : Str} (h : message.len ≤ lastErrorMaxBytes) : storedError message = message := by
  rw [storedError, truncate_short h, truncate_short h]

/-- With 4093 bytes there is room for the dots. -/
theorem stored_of_room {fit rest : Str} {c : Char} (hroom : fit.len + 3 = lastErrorMaxBytes) (hsize : c.utf8Size = 4) :
    storedError (fit ++ c :: rest) = fit ++ ['.', '.', '.'] := by
  have hdots : (fit ++ ['.', '.', '.']).len = fit.len + 3 := Str.len_append fit _
  rw [storedError, truncate_long (by omega) (by omega), truncate_short (by omega)]

/-- With more there is not, and of the dots as many stay as fit. -/
theorem stored_of_no_room {fit rest : Str} {c : Char} {k : ℕ} (hk : k < 3) (hfit : fit.len + k = lastErrorMaxBytes)
    (hover : lastErrorMaxBytes < fit.len + c.utf8Size) :
    storedError (fit ++ c :: rest) = fit ++ List.replicate k '.' ++ ['.', '.', '.'] := by
  have hdots : ['.', '.', '.'] = List.replicate k '.' ++ '.' :: List.replicate (2 - k) '.' := by
    interval_cases k <;> rfl
  have hlen : (fit ++ List.replicate k '.').len = lastErrorMaxBytes := by
    rw [Str.len_append, len_dots, hfit]
  have hdot : lastErrorMaxBytes < (fit ++ List.replicate k '.').len + '.'.utf8Size := by
    rw [hlen]
    exact Nat.lt_succ_self _
  rw [storedError, truncate_long (by omega) hover]
  conv_lhs => rw [hdots, ← List.append_assoc]
  rw [truncate_long hlen.le hdot]

/-- What is stored starts with as much of the message as fits. -/
theorem stored_prefix (message : Str) :
    ∃ kept rest : Str, message = kept ++ rest ∧ kept.len ≤ lastErrorMaxBytes ∧
      (∀ c ∈ rest.head?, lastErrorMaxBytes < kept.len + c.utf8Size) ∧ kept <+: storedError message := by
  rcases Nat.lt_or_ge lastErrorMaxBytes message.len with hlong | hshort
  · obtain ⟨fit, c, rest, rfl, hfit, hover⟩ := Str.exists_overflow hlong
    refine ⟨fit, c :: rest, rfl, hfit, by simpa using hover, ?_⟩
    have hsize := c.utf8Size_le_four
    by_cases hroom : fit.len + 3 = lastErrorMaxBytes
    · rw [stored_of_room hroom (by omega)]
      exact List.prefix_append _ _
    · rw [stored_of_no_room (k := lastErrorMaxBytes - fit.len) (by omega) (by omega) hover, List.append_assoc]
      exact List.prefix_append _ _
  · exact ⟨message, [], (List.append_nil _).symm, hshort, by simp, by rw [stored_short hshort]⟩

/-- What is stored is within the bound, and the message cut once, if and only if the message is within the bound
    or has room for the dots. -/
theorem stored_iff (message : Str) :
    ((storedError message).len ≤ lastErrorMaxBytes ∧ storedError message = truncateForStorage message ∧
      ∃ kept rest : Str, message = kept ++ rest ∧ kept.len ≤ lastErrorMaxBytes ∧
        (∀ c ∈ rest.head?, lastErrorMaxBytes < kept.len + c.utf8Size) ∧ kept <+: storedError message) ↔
      message.len ≤ lastErrorMaxBytes ∨ FitsDots message := by
  constructor
  · rintro ⟨hbound, -, -⟩
    rcases Nat.lt_or_ge lastErrorMaxBytes message.len with hlong | hshort
    · obtain ⟨fit, c, rest, rfl, hfit, hover⟩ := Str.exists_overflow hlong
      have hsize := c.utf8Size_le_four
      by_cases hroom : fit.len + 3 = lastErrorMaxBytes
      · exact .inr ⟨fit, rest, c, rfl, hroom, by omega⟩
      · -- the dots that fit fill the bound, and three more come behind
        obtain ⟨k, hk⟩ := Nat.exists_eq_add_of_le hfit
        rw [stored_of_no_room (by omega) hk.symm hover, Str.len_append, Str.len_append, len_dots] at hbound
        have hthree : Str.len ['.', '.', '.'] = 3 := rfl
        omega
    · exact .inl hshort
  · intro h
    refine ⟨?_, ?_, stored_prefix message⟩
    · rcases h with hshort | ⟨fit, rest, c, rfl, hroom, hsize⟩
      · rwa [stored_short hshort]
      · rw [stored_of_room hroom hsize, Str.len_append, ← hroom]
        exact le_rfl
    · rcases h with hshort | ⟨fit, rest, c, rfl, hroom, hsize⟩
      · rw [stored_short hshort, truncate_short hshort]
      · rw [stored_of_room hroom hsize, truncate_long (by omega) (by omega)]

/-- 4095 letters and one of two bytes: the second cut adds a dot, and the text is three bytes too long. -/
theorem accent_overflows :
    storedError (List.replicate 4095 'x' ++ ['é']) ≠ truncateForStorage (List.replicate 4095 'x' ++ ['é']) ∧
      ¬ (storedError (List.replicate 4095 'x' ++ ['é'])).len ≤ lastErrorMaxBytes := by
  have hlen : Str.len (List.replicate 4095 'x') = 4095 := len_replicate (by rfl) 4095
  have hover : lastErrorMaxBytes < Str.len (List.replicate 4095 'x') + 'é'.utf8Size := by
    rw [hlen]
    decide
  have hfit : Str.len (List.replicate 4095 'x') + 1 = lastErrorMaxBytes := by rw [hlen]; rfl
  rw [stored_of_no_room (by omega) hfit hover, truncate_long (by omega) hover]
  constructor
  · intro heq
    rw [List.append_assoc] at heq
    exact absurd (List.append_cancel_left heq) (by decide)
  · rw [Str.len_append, Str.len_append, hlen]
    decide

end Arcature.Jobs

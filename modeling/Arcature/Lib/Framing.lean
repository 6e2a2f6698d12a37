import Arcature.Lib.Text

/-! Fixed-width integers as big-endian bytes, and byte strings framed by their length: the encodings
    whose concatenation can be taken apart again, which is what a hash over several fields needs. -/

namespace Arcature.Lib

/-- The last `k` base-256 digits of `n`, most significant first. -/
def beBytes : ℕ → ℕ → Bytes
  | 0, _ => []
  | k + 1, n => beBytes k (n / 256) ++ [UInt8.ofNat n]

/-- `(n as u64).to_be_bytes()`. -/
def be64 (n : ℕ) : Bytes := beBytes 8 n

/-- A byte string behind its length. -/
def frame (b : Bytes) : Bytes := be64 b.length ++ b

@[simp] theorem length_beBytes (k n : ℕ) : (beBytes k n).length = k := by
  induction k generalizing n with
  | zero => rfl
  | succ k ih => simp [beBytes, ih]

@[simp] theorem length_be64 (n : ℕ) : (be64 n).length = 8 := length_beBytes 8 n

/-- The digits name the number up to the width. -/
theorem mod_eq_of_beBytes {k n m : ℕ} (h : beBytes k n = beBytes k m) :
    n % 256 ^ k = m % 256 ^ k := by
  induction k generalizing n m with
  | zero => simp [Nat.mod_one]
  | succ k ih =>
    obtain ⟨hhigh, hlow⟩ := List.append_inj h (by simp)
    have hdiv := ih hhigh
    have hmod : n % 256 = m % 256 := by
      simpa using congrArg UInt8.toNat (List.singleton_inj.mp hlow)
    rw [pow_succ', Nat.mod_mul, Nat.mod_mul, hdiv, hmod]

theorem eq_of_be64 {n m : ℕ} (hn : n < 2 ^ 64) (hm : m < 2 ^ 64) (h : be64 n = be64 m) : n = m := by
  have := mod_eq_of_beBytes h
  omega

/-- A framed byte string is read off the front of whatever follows it. -/
theorem frame_append_inj {a b x y : Bytes} (ha : a.length < 2 ^ 64) (hb : b.length < 2 ^ 64)
    (h : frame a ++ x = frame b ++ y) : a = b ∧ x = y := by
  unfold frame at h
  rw [List.append_assoc, List.append_assoc] at h
  obtain ⟨hlen, hrest⟩ := List.append_inj h (by simp)
  exact List.append_inj hrest (eq_of_be64 ha hb hlen)

end Arcature.Lib

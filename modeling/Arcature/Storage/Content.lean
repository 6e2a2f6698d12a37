import Arcature.Storage.Path

/-! Names made of the bytes (`storage/content.rs`).

    A `ContentHasher` is fed a chunk at a time and counts what it was fed; what it ends in is an
    address, `ab/cd/<digest>.<extension>`:

        update chunk₁ ▸ update chunk₂ ▸ …  ──▶ finish extension ──▶ ContentAddress ──▶ path

    The hash function is a parameter, a state that chunks are fed to. `Sha256` says the one thing that
    is relied on: the digest is that of the chunks put together. -/

namespace Arcature.Storage
open Arcature.Lib

/-- A streaming hash: `new`, `update` and `finalize`, and the function of the whole that they compute. -/
structure Sha256 where
  σ : Type
  new : σ
  update : σ → Bytes → σ
  finalize : σ → ByteArr 32
  digest : Bytes → ByteArr 32
  streaming : ∀ chunks : List Bytes, finalize (chunks.foldl update new) = digest chunks.flatten

/-- `u64::MAX`. -/
def u64Max : ℕ := 2 ^ 64 - 1

/-- `{byte:02x}`. -/
def hexByte (byte : UInt8) : Str := [Nat.digitChar (byte.toNat / 16), Nat.digitChar (byte.toNat % 16)]

/-- `hex_lower`. -/
def hexLower (bytes : Bytes) : Str := bytes.flatMap hexByte

/-- A lowercase hexadecimal digit. -/
def isHexLower (c : Char) : Bool := c ∈ "0123456789abcdef".toList

/-- `ContentAddress`: 64 hexadecimal digits, a size and an extension. -/
structure ContentAddress where
  digest : Str
  bytes : ℕ
  extension : Extension
  length : digest.length = 64
  hex : ∀ c ∈ digest, isHexLower c = true

theorem isHexLower_digitChar {n : ℕ} (h : n < 16) : isHexLower (Nat.digitChar n) = true := by
  have hfacts : ∀ n : Fin 16, isHexLower (Nat.digitChar n) = true := by decide
  exact hfacts ⟨n, h⟩

theorem isHexLower_hexLower (bytes : Bytes) : ∀ c ∈ hexLower bytes, isHexLower c = true := by
  intro c hc
  obtain ⟨b, -, hc⟩ := List.mem_flatMap.mp hc
  have hb := b.toNat_lt
  rcases List.mem_cons.mp hc with rfl | hc
  · exact isHexLower_digitChar (by omega)
  · obtain rfl := List.mem_singleton.mp hc
    exact isHexLower_digitChar (by omega)

theorem length_hexLower (bytes : Bytes) : (hexLower bytes).length = 2 * bytes.length := by
  rw [hexLower, List.length_flatMap]
  simp [hexByte, Nat.mul_comm]

/-! ### Hashing -/

section Hash

variable (sha : Sha256)

/-- `ContentHasher`. -/
structure ContentHasher where
  hasher : sha.σ
  bytes : ℕ

variable {sha}

/-- `ContentHasher::new`. -/
def ContentHasher.new : ContentHasher sha := { hasher := sha.new, bytes := 0 }

/-- `update`. The count stops at `u64::MAX`. -/
def ContentHasher.update (h : ContentHasher sha) (chunk : Bytes) : ContentHasher sha :=
  { hasher := sha.update h.hasher chunk, bytes := min (h.bytes + chunk.length) u64Max }

/-- The address of a digest and a size. -/
def ContentAddress.ofDigest (digest : ByteArr 32) (bytes : ℕ) (extension : Extension) : ContentAddress where
  digest := hexLower digest.val
  bytes := bytes
  extension := extension
  length := by rw [length_hexLower, digest.property]
  hex := isHexLower_hexLower digest.val

/-- `finish`. -/
def ContentHasher.finish (h : ContentHasher sha) (extension : Extension) : ContentAddress :=
  .ofDigest (sha.finalize h.hasher) h.bytes extension

/-- `ContentAddress::of`. -/
def ContentAddress.of (sha : Sha256) (bytes : Bytes) (extension : Extension) : ContentAddress :=
  ((ContentHasher.new : ContentHasher sha).update bytes).finish extension

end Hash

/-- The hasher after a run of chunks. -/
theorem foldl_update {sha : Sha256} (chunks : List Bytes) :
    chunks.foldl ContentHasher.update (ContentHasher.new : ContentHasher sha) =
      { hasher := chunks.foldl sha.update sha.new, bytes := min chunks.flatten.length u64Max } := by
  induction chunks using List.reverseRecOn with
  | nil => rfl
  | append_singleton chunks chunk ih =>
    rw [List.foldl_concat, ih, ContentHasher.update, List.foldl_concat]
    simp only [List.flatten_append, List.length_append, List.flatten_singleton, ContentHasher.mk.injEq, true_and]
    omega

/-- The address is that of the chunks put together, however they were cut. -/
theorem finish_foldl_update {sha : Sha256} (chunks : List Bytes) (extension : Extension) :
    (chunks.foldl ContentHasher.update (ContentHasher.new : ContentHasher sha)).finish extension =
      .ofDigest (sha.digest chunks.flatten) (min chunks.flatten.length u64Max) extension := by
  rw [foldl_update, ContentHasher.finish, sha.streaming]

/-! ### Keys -/

/-- `Display` of a `ContentAddress`. -/
def ContentAddress.toStr (address : ContentAddress) : Str :=
  address.digest.take 2 ++ '/' :: ((address.digest.drop 2).take 2 ++
    '/' :: (address.digest ++ '.' :: address.extension.str))

/-- The segments of a key. -/
def ContentAddress.segments (address : ContentAddress) : List Str :=
  [address.digest.take 2, (address.digest.drop 2).take 2, address.digest ++ '.' :: address.extension.str]

theorem ContentAddress.toStr_eq (address : ContentAddress) : address.toStr = ['/'].intercalate address.segments := by
  simp [toStr, segments, List.intercalate_cons_cons]

theorem isSegment_of_alphanum {s : Str} (hne : s ≠ []) (hdots : s ≠ ['.', '.'])
    (h : ∀ c ∈ s, c = '.' ∨ c = '-' ∨ c = '_' ∨ c.isAlphanum = true) : IsSegment s where
  ne_nil := hne
  ne_dots := hdots
  slash hc := absurd (h _ hc) (by decide)
  backslash hc := absurd (h _ hc) (by decide)
  clean c hc := by
    rcases h c hc with rfl | rfl | rfl | hc
    · decide
    · decide
    · decide
    · exact isFatal_eq_false_of_isAlphanum hc

theorem isAlphanum_of_isHexLower {c : Char} (h : isHexLower c = true) : c.isAlphanum = true := by
  have hfacts : ∀ c ∈ "0123456789abcdef".toList, c.isAlphanum = true := by decide
  exact hfacts c (of_decide_eq_true h)

theorem ContentAddress.isSegment (address : ContentAddress) : ∀ s ∈ address.segments, IsSegment s := by
  have hlength := address.length
  have hhex : ∀ c ∈ address.digest, c.isAlphanum = true := fun c hc => isAlphanum_of_isHexLower (address.hex c hc)
  have hpart : ∀ s : Str, s ≠ [] → s <:+: address.digest → IsSegment s := by
    intro s hne hs
    refine isSegment_of_alphanum hne ?_ fun c hc => Or.inr (Or.inr (Or.inr (hhex c (hs.subset hc))))
    rintro rfl
    exact absurd (hhex '.' (hs.subset List.mem_cons_self)) (by decide)
  intro s hs
  simp only [segments, List.mem_cons, List.not_mem_nil, or_false] at hs
  rcases hs with rfl | rfl | rfl
  · refine hpart _ ?_ (List.take_prefix _ _).isInfix
    rw [← List.length_pos_iff, List.length_take]
    omega
  · refine hpart _ ?_ ((List.take_prefix _ _).isInfix.trans (List.drop_suffix _ _).isInfix)
    rw [← List.length_pos_iff, List.length_take, List.length_drop]
    omega
  · refine isSegment_of_alphanum (by simp) ?_ ?_
    · intro hdots
      have hlong := congrArg List.length hdots
      rw [List.length_append, hlength] at hlong
      simp at hlong
      omega
    · intro c hc
      rcases List.mem_append.mp hc with hc | hc
      · exact Or.inr (Or.inr (Or.inr (hhex c hc)))
      · rcases List.mem_cons.mp hc with hc | hc
        · exact Or.inl hc
        · exact Or.inr (Or.inr (Or.inr (address.extension.isAlphanum hc)))

/-- `path`: an address is always a key. -/
def ContentAddress.path (address : ContentAddress) : StoragePath where
  key := address.toStr
  valid := by
    rw [address.toStr_eq]
    exact validate_segments (by simp [segments]) address.isSegment

/-- `path_under`. -/
def ContentAddress.pathUnder (address : ContentAddress) (parent : Str) : Except StoragePathError StoragePath :=
  StoragePath.new (parent.rdropWhile (· == '/') ++ '/' :: address.toStr)

end Arcature.Storage

import Arcature.Storage.Content
import Arcature.Storage.Sniff

/-! Uploads under their own digest (`storage/store.rs`).

    A chunk goes to three places, and the last of them can fail:

        write    hasher ▸ head ▸ backend writer ──▶ fault
        finish   close ──▶ staging ──▶ address of the hasher ──▶ rename, or delete if the key is taken

    The backend is what it stores: a fault of a write stores none of the chunk, and the caller may go on.
    Hasher and object agree at the end exactly if no write that failed had anything to store
    (`upload_exact`). -/

namespace Arcature.Storage
open Arcature.Lib

/-- A disk: the objects under their keys. -/
abbrev Disk := Str → Option Bytes

/-- `StorageError`, for a backend's errors `ε`. -/
inductive StorageError (ε : Type) where
  | backend (source : ε)
  | path (source : StoragePathError)

/-- `UploadError`. -/
inductive UploadError (ε : Type) where
  | storage (source : StorageError ε)
  | content (source : SniffError)

/-- What the backend answers to the calls of `finish`: a fault, or nothing. -/
structure FinishFaults (ε : Type) where
  onClose : Option ε
  onExists : Option ε
  onDelete : Option ε
  onRename : Option ε

/-- `{n:0<width>x}`. -/
def hexPadded (width n : ℕ) : Str := (Nat.toDigits 16 n).leftpad width '0'

/-- The last segment of a staging key. -/
def stagingName (pid nanos counter : ℕ) : Str :=
  hexPadded 8 pid ++ '-' :: (hexPadded 32 nanos ++ '-' :: (hexPadded 16 counter ++ ".part".toList))

theorem isAlphanum_toDigits {n : ℕ} : ∀ c ∈ Nat.toDigits 16 n, c.isAlphanum = true := by
  have hdigit : ∀ n : Fin 16, (Nat.digitChar n).isAlphanum = true := by decide
  induction n using Nat.strong_induction_on with
  | _ n ih =>
    intro c hc
    rw [Nat.toDigits_eq_if (by decide)] at hc
    split_ifs at hc with hlt
    · obtain rfl := List.mem_singleton.mp hc
      exact hdigit ⟨n, hlt⟩
    · rcases List.mem_append.mp hc with hc | hc
      · exact ih (n / 16) (by omega) c hc
      · obtain rfl := List.mem_singleton.mp hc
        exact hdigit ⟨n % 16, by omega⟩

theorem isAlphanum_hexPadded {width n : ℕ} : ∀ c ∈ hexPadded width n, c.isAlphanum = true := by
  intro c hc
  rw [hexPadded, List.leftpad] at hc
  rcases List.mem_append.mp hc with hc | hc
  · rw [List.eq_of_mem_replicate hc]
    decide
  · exact isAlphanum_toDigits c hc

theorem isSegment_stagingName (pid nanos counter : ℕ) : IsSegment (stagingName pid nanos counter) := by
  refine isSegment_of_alphanum (by simp [stagingName]) ?_ ?_
  · intro hdots
    have hlong := congrArg List.length hdots
    simp [stagingName] at hlong
    omega
  · have hpart : ∀ c ∈ ".part".toList, c = '.' ∨ c = '-' ∨ c = '_' ∨ c.isAlphanum = true := by decide
    -- a number, and what comes behind it
    have hnumber : ∀ {width n : ℕ} {rest : Str},
        (∀ c ∈ rest, c = '.' ∨ c = '-' ∨ c = '_' ∨ c.isAlphanum = true) →
        ∀ c ∈ hexPadded width n ++ rest, c = '.' ∨ c = '-' ∨ c = '_' ∨ c.isAlphanum = true := by
      intro width n rest hrest c hc
      rcases List.mem_append.mp hc with hc | hc
      · exact Or.inr (Or.inr (Or.inr (isAlphanum_hexPadded c hc)))
      · exact hrest c hc
    have hdash : '-' = '.' ∨ '-' = '-' ∨ '-' = '_' ∨ '-'.isAlphanum = true := Or.inr (Or.inl rfl)
    exact hnumber (List.forall_mem_cons.mpr ⟨hdash, hnumber (List.forall_mem_cons.mpr ⟨hdash, hnumber hpart⟩)⟩)

/-- `STAGING_PREFIX`. -/
def stagingDir : Str := "_staging".toList

/-- `staging_path`, for a process, a time and a count. -/
def stagingPath (pid nanos counter : ℕ) : StoragePath where
  key := ['/'].intercalate [stagingDir, stagingName pid nanos counter]
  valid := by
    refine validate_segments (by simp) fun s hs => ?_
    rcases List.mem_cons.mp hs with rfl | hs
    · exact isSegment_of_alphanum (by decide) (by decide) (by decide)
    · obtain rfl := List.mem_singleton.mp hs
      exact isSegment_stagingName pid nanos counter

/-! ### The writer -/

section Writer

variable {sha : Sha256} {ε : Type}

variable (sha) in
/-- `UploadWriter`. `stored` is what the backend writer has taken so far. -/
structure UploadWriter where
  staging : StoragePath
  parent : Option Str
  stored : Bytes
  hasher : ContentHasher sha
  head : Bytes

/-- `open_upload`, with the staging key it drew. -/
def UploadWriter.openUpload (staging : StoragePath) (parent : Option Str) : UploadWriter sha :=
  { staging, parent, stored := [], hasher := .new, head := [] }

/-- `begin_upload_under`. -/
def UploadWriter.beginUploadUnder (staging : StoragePath) (parent : Str) :
    Except StoragePathError (UploadWriter sha) := do
  let parent := parent.rdropWhile (· == '/')
  let _ ← StoragePath.new parent
  return .openUpload staging (some parent)

/-- `write`, with what the backend answers. The hasher and the head come first. -/
def UploadWriter.write (u : UploadWriter sha) (chunk : Bytes) (fault : Option ε) :
    UploadWriter sha × Except (StorageError ε) Unit :=
  let u := { u with hasher := u.hasher.update chunk }
  let u :=
    if u.head.length < sniffBytes then { u with head := u.head ++ chunk.take (sniffBytes - u.head.length) } else u
  match fault with
  | none => ({ u with stored := u.stored ++ chunk }, .ok ())
  | some e => (u, .error (.backend e))

/-- A run of writes. The caller goes on whatever they answer. -/
def UploadWriter.writes (u : UploadWriter sha) (calls : List (Bytes × Option ε)) : UploadWriter sha :=
  calls.foldl (fun u call => (u.write call.1 call.2).1) u

/-- `byte_len`. -/
def UploadWriter.byteLen (u : UploadWriter sha) : ℕ := u.hasher.bytes

/-- The key an address has for this upload. -/
def UploadWriter.destination (u : UploadWriter sha) (address : ContentAddress) : Except StoragePathError StoragePath :=
  match u.parent with
  | some parent => address.pathUnder parent
  | none => .ok address.path

/-- `finish`, and the disk it leaves. -/
def UploadWriter.finish (u : UploadWriter sha) (extension : Extension) (faults : FinishFaults ε) (disk : Disk) :
    Except (StorageError ε) ContentAddress × Disk :=
  match faults.onClose with
  | some e => (.error (.backend e), disk)
  | none =>
    let disk := Function.update disk u.staging.key (some u.stored)
    let address := u.hasher.finish extension
    match u.destination address with
    | .error e => (.error (.path e), disk)
    | .ok destination =>
      match faults.onExists, disk destination.key with
      | some e, _ => (.error (.backend e), disk)
      -- the key is the digest, so the object there is taken to be this one
      | none, some _ =>
        match faults.onDelete with
        | some e => (.error (.backend e), disk)
        | none => (.ok address, Function.update disk u.staging.key none)
      | none, none =>
        match faults.onRename with
        | some e => (.error (.backend e), disk)
        | none =>
          (.ok address,
            Function.update (Function.update disk destination.key (disk u.staging.key)) u.staging.key none)

/-- `abort`. Only the delete can fail it. -/
def UploadWriter.abort (u : UploadWriter sha) (faults : FinishFaults ε) (disk : Disk) :
    Except (StorageError ε) Unit × Disk :=
  match faults.onDelete with
  | some e => (.error (.backend e), disk)
  | none => (.ok (), Function.update disk u.staging.key none)

/-- `finish_verified`. -/
def UploadWriter.finishVerified (infer : Bytes → Option SniffedType) (u : UploadWriter sha) (extension : Extension)
    (faults : FinishFaults ε) (disk : Disk) : Except (UploadError ε) ContentAddress × Disk :=
  match verify infer u.head extension with
  | .error rejection =>
    match u.abort faults disk with
    | (.error e, disk) => (.error (.storage e), disk)
    | (.ok (), disk) => (.error (.content rejection), disk)
  | .ok _ =>
    match u.finish extension faults disk with
    | (.error e, disk) => (.error (.storage e), disk)
    | (.ok address, disk) => (.ok address, disk)

/-! ### What a run of writes leaves -/

/-- What the hasher was fed: every chunk. -/
def fed (calls : List (Bytes × Option ε)) : Bytes := calls.flatMap Prod.fst

/-- What the backend stored: the chunks of the writes that did not fail. -/
def kept (calls : List (Bytes × Option ε)) : Bytes := (calls.filter fun call => call.2.isNone).flatMap Prod.fst

theorem take_take_append (n : ℕ) (a b : Bytes) :
    (if (a.take n).length < n then a.take n ++ b.take (n - (a.take n).length) else a.take n) = (a ++ b).take n := by
  rw [List.take_append, List.length_take]
  split_ifs with hroom
  · have hshort : a.length < n := by omega
    rw [Nat.min_eq_right hshort.le]
  · have hfull : n - a.length = 0 := by omega
    rw [hfull, List.take_zero, List.append_nil]

/-- Hasher and head see every chunk, the object only those that were taken. -/
theorem writes_openUpload (staging : StoragePath) (parent : Option Str) (calls : List (Bytes × Option ε)) :
    (UploadWriter.openUpload staging parent : UploadWriter sha).writes calls =
      { staging, parent
        stored := kept calls
        hasher := (calls.map Prod.fst).foldl ContentHasher.update .new
        head := (fed calls).take sniffBytes } := by
  induction calls using List.reverseRecOn with
  | nil => rfl
  | append_singleton calls call ih =>
    obtain ⟨chunk, fault⟩ := call
    have hfed : fed (calls ++ [(chunk, fault)]) = fed calls ++ chunk := by simp [fed]
    have hhead := take_take_append sniffBytes (fed calls) chunk
    rw [UploadWriter.writes, List.foldl_concat, ← UploadWriter.writes, ih, List.map_append, List.foldl_append, hfed,
      ← hhead]
    cases fault with
    | none =>
      have hkept : kept (calls ++ [(chunk, (none : Option ε))]) = kept calls ++ chunk := by simp [kept]
      rw [hkept, UploadWriter.write]
      split_ifs <;> rfl
    | some e =>
      have hkept : kept (calls ++ [(chunk, some e)]) = kept calls := by simp [kept]
      rw [hkept, UploadWriter.write]
      split_ifs <;> rfl

/-! ### Where it goes -/

theorem key_of_new {key : Str} {path : StoragePath} (h : StoragePath.new key = .ok path) : path.key = key := by
  rw [StoragePath.new] at h
  split at h
  · cases h
    rfl
  · cases h

/-- A staging key has one slash, and a destination at least two. -/
theorem count_staging (pid nanos counter : ℕ) : (stagingPath pid nanos counter).key.count '/' = 1 := by
  have hname : (stagingName pid nanos counter).count '/' = 0 :=
    List.count_eq_zero.mpr (isSegment_stagingName pid nanos counter).slash
  have hkey : (stagingPath pid nanos counter).key =
      ['/'].intercalate [stagingDir, stagingName pid nanos counter] := rfl
  rw [hkey, List.intercalate_cons_cons, List.intercalate_singleton, List.count_append, List.count_append, hname]
  decide

theorem two_le_count_toStr (address : ContentAddress) : 2 ≤ address.toStr.count '/' := by
  rw [ContentAddress.toStr, List.count_append, List.count_cons_self, List.count_append, List.count_cons_self]
  omega

theorem two_le_count_destination {u : UploadWriter sha} {address : ContentAddress} {destination : StoragePath}
    (h : u.destination address = .ok destination) : 2 ≤ destination.key.count '/' := by
  have hcount := two_le_count_toStr address
  rw [UploadWriter.destination] at h
  cases hparent : u.parent with
  | none =>
    rw [hparent] at h
    cases h
    exact hcount
  | some parent =>
    rw [hparent] at h
    rw [key_of_new h, List.count_append, List.count_cons_self]
    omega

/-- What `finish` leaves at the destination: the object that was there, or else the upload. -/
theorem finish_eq_ok {u : UploadWriter sha} {extension : Extension} {faults : FinishFaults ε} {disk disk' : Disk}
    {address : ContentAddress} (hstaging : u.staging.key.count '/' = 1)
    (h : u.finish extension faults disk = (.ok address, disk')) :
    address = u.hasher.finish extension ∧
      ∃ destination, u.destination address = .ok destination ∧
        disk' destination.key = some ((disk destination.key).getD u.stored) := by
  rw [UploadWriter.finish] at h
  dsimp only at h
  cases hclose : faults.onClose with
  | some e => simp [hclose] at h
  | none =>
    rw [hclose] at h
    dsimp only at h
    cases hdestination : u.destination (u.hasher.finish extension) with
    | error e => simp [hdestination] at h
    | ok destination =>
      have hcount := two_le_count_destination hdestination
      have hne : destination.key ≠ u.staging.key := by
        intro heq
        rw [heq, hstaging] at hcount
        omega
      rw [hdestination] at h
      dsimp only at h
      rw [Function.update_of_ne hne] at h
      cases hexists : faults.onExists with
      | some e => simp [hexists] at h
      | none =>
        rw [hexists] at h
        cases hthere : disk destination.key with
        | some there =>
          cases hdelete : faults.onDelete with
          | some e => simp [hthere, hdelete] at h
          | none =>
            simp only [hthere, hdelete, Prod.mk.injEq, Except.ok.injEq] at h
            obtain ⟨rfl, rfl⟩ := h
            refine ⟨rfl, destination, hdestination, ?_⟩
            rw [Function.update_of_ne hne, Function.update_of_ne hne, hthere]
            rfl
        | none =>
          cases hrename : faults.onRename with
          | some e => simp [hthere, hrename] at h
          | none =>
            simp only [hthere, hrename, Prod.mk.injEq, Except.ok.injEq] at h
            obtain ⟨rfl, rfl⟩ := h
            refine ⟨rfl, destination, hdestination, ?_⟩
            rw [Function.update_of_ne hne, Function.update_self, Function.update_self, hthere]
            rfl

/-- No backend answers a fault. -/
def FinishFaults.none : FinishFaults ε := ⟨Option.none, Option.none, Option.none, Option.none⟩

/-- Then `finish` succeeds, if the key is valid. -/
theorem finish_of_faultless {u : UploadWriter sha} {extension : Extension} {disk : Disk} {destination : StoragePath}
    (h : u.destination (u.hasher.finish extension) = .ok destination) :
    ∃ disk', u.finish extension (FinishFaults.none : FinishFaults ε) disk =
      (.ok (u.hasher.finish extension), disk') := by
  simp only [UploadWriter.finish, FinishFaults.none, h]
  cases Function.update disk u.staging.key (some u.stored) destination.key with
  | none => exact ⟨_, rfl⟩
  | some there => exact ⟨_, rfl⟩

/-- `finish_verified` only succeeds as `finish` does. -/
theorem finish_of_finishVerified {infer : Bytes → Option SniffedType} {u : UploadWriter sha} {extension : Extension}
    {faults : FinishFaults ε} {disk disk' : Disk} {address : ContentAddress}
    (h : u.finishVerified infer extension faults disk = (.ok address, disk')) :
    u.finish extension faults disk = (.ok address, disk') := by
  rw [UploadWriter.finishVerified] at h
  split at h
  · split at h <;> cases h
  · split at h
    · cases h
    · next hfinish =>
      cases h
      exact hfinish

/-! ### What is stored is what the address says -/

/-- The object under a key hashes to the address's digest and has its size. -/
def StoredAs (sha : Sha256) (disk : Disk) (key : Str) (address : ContentAddress) : Prop :=
  ∃ bytes, disk key = some bytes ∧ hexLower (sha.digest bytes).val = address.digest ∧ bytes.length = address.bytes

/-- When the upload comes out right. An object that is at the destination already must be the right one. Else
    no write may have failed that had something to store; and beyond `u64::MAX` bytes, where the count
    stands still, what was stored must number just as many and have the digest of the whole. -/
def Exact (sha : Sha256) (calls : List (Bytes × Option ε)) : Option Bytes → Prop
  | some there => hexLower (sha.digest there).val = hexLower (sha.digest (fed calls)).val ∧
      there.length = min (fed calls).length u64Max
  | none =>
    if (fed calls).length ≤ u64Max then ∀ call ∈ calls, call.2.isSome → call.1 = []
    else (kept calls).length = u64Max ∧
      hexLower (sha.digest (kept calls)).val = hexLower (sha.digest (fed calls)).val

theorem kept_cons (chunk : Bytes) (fault : Option ε) (calls : List (Bytes × Option ε)) :
    kept ((chunk, fault) :: calls) = (if fault.isNone then chunk else []) ++ kept calls := by
  cases fault <;> rfl

theorem kept_sublist (calls : List (Bytes × Option ε)) : (kept calls).Sublist (fed calls) :=
  (List.filter_sublist).flatMap Prod.fst

/-- The object is as long as what was hashed only if nothing was lost. -/
theorem length_kept_eq_iff (calls : List (Bytes × Option ε)) :
    (kept calls).length = (fed calls).length ↔ ∀ call ∈ calls, call.2.isSome → call.1 = [] := by
  induction calls with
  | nil => simp [kept, fed]
  | cons call calls ih =>
    obtain ⟨chunk, fault⟩ := call
    have hfed : fed ((chunk, fault) :: calls) = chunk ++ fed calls := rfl
    have hle := (kept_sublist calls).length_le
    rw [kept_cons, hfed, List.forall_mem_cons, ← ih, List.length_append, List.length_append,
      ← List.length_eq_zero_iff]
    cases fault with
    | none => simp
    | some e =>
      simp only [Option.isNone_some, Bool.false_eq_true, if_false, List.length_nil, Option.isSome_some, true_implies]
      omega

theorem kept_eq_fed {calls : List (Bytes × Option ε)} (h : (kept calls).length = (fed calls).length) :
    kept calls = fed calls := (kept_sublist calls).eq_of_length h

theorem storedAs_iff {calls : List (Bytes × Option ε)} {disk disk' : Disk} {key : Str} {extension : Extension}
    (h : disk' key = some ((disk key).getD (kept calls))) :
    StoredAs sha disk' key (.ofDigest (sha.digest (fed calls)) (min (fed calls).length u64Max) extension) ↔
      Exact sha calls (disk key) := by
  have hobject : StoredAs sha disk' key
      (.ofDigest (sha.digest (fed calls)) (min (fed calls).length u64Max) extension) ↔
      hexLower (sha.digest ((disk key).getD (kept calls))).val = hexLower (sha.digest (fed calls)).val ∧
        ((disk key).getD (kept calls)).length = min (fed calls).length u64Max := by
    rw [StoredAs, h]
    constructor
    · rintro ⟨_, ⟨rfl⟩, hsame⟩
      exact hsame
    · intro hsame
      exact ⟨_, rfl, hsame⟩
  rw [hobject]
  cases disk key with
  | some there => exact Iff.rfl
  | none =>
    rw [Option.getD_none, Exact]
    split_ifs with hsize
    · rw [Nat.min_eq_left hsize, ← length_kept_eq_iff]
      constructor
      · rintro ⟨-, hlength⟩
        exact hlength
      · intro hlength
        rw [kept_eq_fed hlength]
        exact ⟨rfl, rfl⟩
    · rw [Nat.min_eq_right (not_le.mp hsize).le]
      exact and_comm

end Writer

/-- The upload after a run of writes. -/
def uploaded {ε : Type} (sha : Sha256) (staging : StoragePath) (parent : Option Str)
    (calls : List (Bytes × Option ε)) : UploadWriter sha :=
  (UploadWriter.openUpload staging parent).writes calls

/-- After writes that all succeed. -/
theorem uploaded_of_chunks {ε : Type} {sha : Sha256} (staging : StoragePath) (parent : Option Str)
    (chunks : List Bytes) (extension : Extension) :
    (uploaded sha staging parent (chunks.map fun chunk => (chunk, (none : Option ε)))).head =
        chunks.flatten.take sniffBytes ∧
      (uploaded sha staging parent (chunks.map fun chunk => (chunk, (none : Option ε)))).hasher.finish extension =
        .ofDigest (sha.digest chunks.flatten) (min chunks.flatten.length u64Max) extension := by
  have hchunks : (chunks.map fun chunk => (chunk, (none : Option ε))).map Prod.fst = chunks := by
    rw [List.map_map]
    exact List.map_id _
  have hfed : fed (chunks.map fun chunk => (chunk, (none : Option ε))) = chunks.flatten := by
    rw [fed, List.flatMap_def, hchunks]
  rw [uploaded, writes_openUpload, hchunks, hfed]
  exact ⟨rfl, finish_foldl_update chunks extension⟩

/-- An upload that a call answers with an address is stored as the address says exactly where it came out
    right; and what writes that all succeed lead to depends on their bytes and not on how they were cut. -/
theorem upload_exact (sha : Sha256) (ε : Type) (infer : Bytes → Option SniffedType) (pid nanos counter : ℕ)
    (parent : Option Str) (extension : Extension) :
    (∀ (calls : List (Bytes × Option ε)) (faults : FinishFaults ε) (disk disk' : Disk) (address : ContentAddress),
      (uploaded sha (stagingPath pid nanos counter) parent calls).finish extension faults disk = (.ok address, disk') ∨
        (uploaded sha (stagingPath pid nanos counter) parent calls).finishVerified infer extension faults disk =
          (.ok address, disk') →
      ∃ destination, (uploaded sha (stagingPath pid nanos counter) parent calls).destination address = .ok destination ∧
        (StoredAs sha disk' destination.key address ↔ Exact sha calls (disk destination.key))) ∧
    ∀ chunks chunks' : List Bytes, chunks.flatten = chunks'.flatten →
      let u := uploaded sha (stagingPath pid nanos counter) parent (chunks.map fun chunk => (chunk, (none : Option ε)))
      let u' := uploaded sha (stagingPath pid nanos counter) parent (chunks'.map fun chunk => (chunk, (none : Option ε)))
      u.head = u'.head ∧ verify infer u.head extension = verify infer u'.head extension ∧
        u.hasher.finish extension = u'.hasher.finish extension := by
  refine ⟨?_, ?_⟩
  · intro calls faults disk disk' address h
    have hfinish := h.elim id finish_of_finishVerified
    obtain ⟨haddress, destination, hdestination, hobject⟩ := finish_eq_ok (by
      rw [uploaded, writes_openUpload]
      exact count_staging pid nanos counter) hfinish
    refine ⟨destination, hdestination, ?_⟩
    rw [uploaded, writes_openUpload] at haddress hobject
    rw [finish_foldl_update] at haddress
    rw [haddress]
    exact storedAs_iff hobject
  · intro chunks chunks' hflat u u'
    obtain ⟨hhead, haddress⟩ := @uploaded_of_chunks ε sha (stagingPath pid nanos counter) parent chunks extension
    obtain ⟨hhead', haddress'⟩ := @uploaded_of_chunks ε sha (stagingPath pid nanos counter) parent chunks' extension
    rw [← hflat] at hhead' haddress'
    have hsame : u.head = u'.head := hhead.trans hhead'.symm
    exact ⟨hsame, by rw [hsame], haddress.trans haddress'.symm⟩

/-- The first write fails and the second does not: one byte is stored under the digest of two. -/
theorem lost_chunk_hashed :
    ¬ ∃ sha : Sha256, ∀ (calls : List (Bytes × Option Unit)) (faults : FinishFaults Unit) (disk disk' : Disk)
      (address : ContentAddress),
      (uploaded sha (stagingPath 1 0 0) none calls).finish jpg faults disk = (.ok address, disk') →
      ∃ destination, (uploaded sha (stagingPath 1 0 0) none calls).destination address = .ok destination ∧
        StoredAs sha disk' destination.key address := by
  rintro ⟨sha, hstored⟩
  let calls : List (Bytes × Option Unit) := [([1], some ()), ([2], none)]
  have hu : uploaded sha (stagingPath 1 0 0) none calls = _ := writes_openUpload _ _ _
  obtain ⟨disk', hfinish⟩ : ∃ disk', (uploaded sha (stagingPath 1 0 0) none calls).finish jpg .none (fun _ => none) =
      (.ok ((uploaded sha (stagingPath 1 0 0) none calls).hasher.finish jpg), disk') :=
    finish_of_faultless (by rw [hu]; rfl)
  obtain ⟨destination, hdestination, hobject⟩ := hstored calls .none _ disk' _ hfinish
  obtain ⟨-, destination', hdestination', hleft⟩ := finish_eq_ok (by rw [hu]; exact count_staging 1 0 0) hfinish
  obtain rfl := Except.ok.inj (hdestination.symm.trans hdestination')
  rw [hu] at hleft
  rw [hu, finish_foldl_update] at hobject
  have hexact : Exact sha calls none :=
    (@storedAs_iff sha Unit calls (fun _ => none) disk' destination.key jpg hleft).mp hobject
  have hsize : (fed calls).length ≤ u64Max := by decide
  rw [Exact, if_pos hsize] at hexact
  exact absurd (hexact ([1], some ()) List.mem_cons_self rfl) (by decide)

end Arcature.Storage

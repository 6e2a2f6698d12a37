import Arcature.Lib.Tasks
import Arcature.Storage.Upload

/-! Any number of uploads on one disk (`storage/store.rs`).

    A handler drives its `UploadWriter` as it likes, one request to the backend after the other, and each request
    may be answered, fail, or be given up with the handler's future. Between two requests of one upload come any of
    the other uploads', and whatever else the application does to the disk:

        entering ──▶ writing ──close──▶ looking ──there──▶ removing ──▶ returned address
                       │  ↺ write          └──not there──▶ moving ────▶ returned address
                       ├──discard──▶ returned, without an address
                       └─────────── every request ──▶ returned error, dropped

    Two uploads of the same bytes may both find nothing and both rename. Whatever the order: a name of a digest has
    an object of that digest, unless a write of its upload failed and the handler went on; who was answered an
    address finds an object there until somebody deletes it; and an upload that was answered leaves nothing
    behind (`shelved`). -/

namespace Arcature.Storage.Uploads
open Arcature.Lib

/-! ### The uploads -/

/-- What a handler does next with its `UploadWriter`. -/
inductive Call where
  | write (chunk : Bytes)
  | finish (extension : Extension)
  | finishVerified (extension : Extension)
  | abort
  | drop

section Steps

variable (sha : Sha256) {ε : Type}

/-- An upload that was begun: the ticket and the time its staging key is made of, its prefix, and what was written
    and answered so far. -/
structure Flight (ε : Type) where
  ticket : ℕ
  nanos : ℕ
  parent : Option Str
  calls : List (Bytes × Option ε)

/-- What decides about the next call: the writes so far, and how they went. -/
abbrev Handler (ε : Type) := List (Bytes × Option ε) → Call

/-- What becomes of a request. -/
inductive Fate (ε : Type) where
  | answered
  | failed (e : ε)
  | cancelled

/-- What is left open at a request: the time, what is seen of an object that is not finished or not yet gone, and
    of a rename that was not answered whether it took place. -/
structure Chance (ε : Type) where
  nanos : ℕ
  shown : Option Bytes
  fate : Fate ε
  moved : Bool

def Fate.isAnswered : Fate ε → Bool
  | .answered => true
  | .failed _ | .cancelled => false

/-- Where an upload is. -/
inductive Stage (ε : Type) where
  | entering (parent : Option Str)
  | refused (e : StoragePathError)
  | writing (f : Flight ε)
  | looking (f : Flight ε) (extension : Extension) (destination : StoragePath)
  | removing (f : Flight ε) (extension : Extension) (destination : StoragePath)
  | moving (f : Flight ε) (extension : Extension) (destination : StoragePath)
  | returned (f : Flight ε) (result : Except (UploadError ε) (Option ContentAddress))
  | dropped (f : Flight ε)

/-- A task: an upload, or something else that sets a key of the disk. -/
inductive Place (ε : Type) where
  | upload (handler : Handler ε) (stage : Stage ε)
  | other (key : Str) (value : Option Bytes) (done : Bool)

/-- What the tasks share: the disk, and `STAGING_COUNTER` before it wraps around. -/
structure Shelf where
  disk : Disk
  begun : ℕ

/-- The prefix that `begin_upload_under` keeps. -/
def parentOf : Option Str → Except StoragePathError (Option Str)
  | none => .ok none
  | some parent =>
    let parent := parent.rdropWhile (· == '/')
    (StoragePath.new parent).map fun _ => some parent

variable (pid : ℕ)

/-- `staging_path`. -/
def Flight.staging (f : Flight ε) : StoragePath := stagingPath pid f.nanos (f.ticket % 2 ^ 64)

/-- The `UploadWriter`. -/
def Flight.writer (f : Flight ε) : UploadWriter sha := uploaded sha (f.staging pid) f.parent f.calls

/-- The address it ends in. -/
def Flight.address (f : Flight ε) (extension : Extension) : ContentAddress :=
  (f.writer sha pid).hasher.finish extension

/-- A write, and how it went. -/
def Flight.wrote (f : Flight ε) (chunk : Bytes) (fault : Option ε) : Flight ε :=
  { f with calls := f.calls ++ [(chunk, fault)] }

/-- Where a request leads that leads to `next` when it is answered. -/
def Fate.lead (fate : Fate ε) (f : Flight ε) (next : Stage ε) : Stage ε :=
  match fate with
  | .answered => next
  | .failed e => .returned f (.error (.storage (.backend e)))
  | .cancelled => .dropped f

/-- The disk after a request about a staging object. Only an answer says what it did. -/
def Shelf.stage (s : Shelf) (f : Flight ε) (x : Chance ε) (bytes : Option Bytes) : Shelf :=
  { s with disk := Function.update s.disk (f.staging pid).key (if x.fate.isAnswered then bytes else x.shown) }

/-- `finish`, up to the close. -/
def close (s : Shelf) (f : Flight ε) (x : Chance ε) (extension : Extension) : Shelf × Stage ε :=
  (s.stage pid f x (some (f.writer sha pid).stored),
    x.fate.lead f
      (match (f.writer sha pid).destination (f.address sha pid extension) with
      | .error e => .returned f (.error (.storage (.path e)))
      | .ok destination => .looking f extension destination))

/-- `abort`, for a rejection if there is one. -/
def discard (s : Shelf) (f : Flight ε) (x : Chance ε) (rejection : Option SniffError) : Shelf × Stage ε :=
  (s.stage pid f x none,
    x.fate.lead f (.returned f (match rejection with | none => .ok none | some e => .error (.content e))))

variable (infer : Bytes → Option SniffedType) (notFound : ε)

/-- The next call of a handler, up to its first request. -/
def call (s : Shelf) (f : Flight ε) (x : Chance ε) : Call → Shelf × Stage ε
  | .write chunk =>
    (s.stage pid f x x.shown,
      match x.fate with
      | .answered => .writing (f.wrote chunk none)
      | .failed e => .writing (f.wrote chunk (some e))
      | .cancelled => .dropped f)
  | .finish extension => close sha pid s f x extension
  | .finishVerified extension =>
    match verify infer (f.writer sha pid).head extension with
    | .error rejection => discard pid s f x (some rejection)
    | .ok _ => close sha pid s f x extension
  | .abort => discard pid s f x none
  | .drop => (s, .dropped f)

/-- Whether a rename takes place: there must be an object. -/
def Chance.renames (x : Chance ε) (object : Option Bytes) : Bool := object.isSome && (x.fate.isAnswered || x.moved)

/-- A rename of an object that is not there does not succeed. -/
def Chance.found (x : Chance ε) (object : Option Bytes) : Fate ε :=
  if object.isNone && x.fate.isAnswered then .failed notFound else x.fate

/-- The next request of an upload. -/
def advance (handler : Handler ε) (s : Shelf) (x : Chance ε) : Stage ε → Shelf × Stage ε
  | .entering parent =>
    match parentOf parent with
    | .error e => (s, .refused e)
    | .ok parent =>
      let f : Flight ε := ⟨s.begun, x.nanos, parent, []⟩
      ({ s.stage pid f x x.shown with begun := s.begun + 1 }, x.fate.lead f (.writing f))
  | .writing f => call sha pid infer s f x (handler f.calls)
  | .looking f extension destination =>
    (s, x.fate.lead f
      (if (s.disk destination.key).isSome then .removing f extension destination
      else .moving f extension destination))
  | .removing f extension _ =>
    (s.stage pid f x none, x.fate.lead f (.returned f (.ok (some (f.address sha pid extension)))))
  | .moving f extension destination =>
    let object := s.disk (f.staging pid).key
    let moved := if x.renames object then Function.update s.disk destination.key object else s.disk
    let x := { x with fate := x.found notFound object }
    (({ s with disk := moved } : Shelf).stage pid f x none,
      x.fate.lead f (.returned f (.ok (some (f.address sha pid extension)))))
  | stage => (s, stage)

/-- The next access of a task. -/
def act (s : Shelf) (place : Place ε) (x : Chance ε) : Shelf × Place ε :=
  match place with
  | .upload handler stage =>
    let r := advance sha pid infer notFound handler s x stage
    (r.1, .upload handler r.2)
  | .other key value false => ({ s with disk := Function.update s.disk key value }, .other key value true)
  | .other key value true => (s, .other key value true)

/-- What is started. -/
inductive Entry (ε : Type) where
  | upload (handler : Handler ε) (parent : Option Str)
  | other (key : Str) (value : Option Bytes)

/-- Where it starts. -/
def Entry.start : Entry ε → Place ε
  | .upload handler parent => .upload handler (.entering parent)
  | .other key value => .other key value false

/-- The uploads of one process on a disk. -/
def uploads : Program Shelf (Place ε) (Entry ε) (Chance ε) :=
  ⟨⟨fun _ => none, 0⟩, Entry.start, act sha pid infer notFound⟩

end Steps

/-! ### What is shown of them -/

section Spec

variable (sha : Sha256) {ε : Type} (pid : ℕ)

/-- An upload renames its object to a key. -/
def Renames (f : Flight ε) (extension : Extension) (key : Str) (bytes : Bytes) (s : Tasks Shelf (Place ε))
    (e : Turn (Entry ε) (Chance ε)) : Prop :=
  ∃ i x handler destination, e = .step i x ∧
    s.places[i]? = some (.upload handler (.moving f extension destination)) ∧ destination.key = key ∧
      s.memory.disk (f.staging pid).key = some bytes ∧ x.renames (some bytes) = true

/-- Something else sets a key. -/
def Sets (key : Str) (value : Option Bytes) (s : Tasks Shelf (Place ε)) (e : Turn (Entry ε) (Chance ε)) : Prop :=
  ∃ i x, e = .step i x ∧ s.places[i]? = some (.other key value false)

/-- An upload looks at its key and finds an object. -/
def Finds (f : Flight ε) (key : Str) (s : Tasks Shelf (Place ε)) (e : Turn (Entry ε) (Chance ε)) : Prop :=
  ∃ i x handler extension destination, e = .step i x ∧
    s.places[i]? = some (.upload handler (.looking f extension destination)) ∧ destination.key = key ∧
      (s.memory.disk key).isSome = true

/-- Nothing else is ever started that sets the staging key. -/
def Apart (es : List (Turn (Entry ε) (Chance ε))) (f : Flight ε) : Prop :=
  ∀ value, Turn.spawn (.other (f.staging pid).key value) ∉ es

/-- The digest that a key names: the beginning of its last segment. -/
def nameIn (key : Str) : Str := (afterLast (· == '/') key).take 64

/-- The upload of a stage that has one. -/
def Stage.flight : Stage ε → Option (Flight ε)
  | .entering _ | .refused _ => none
  | .writing f | .looking f _ _ | .removing f _ _ | .moving f _ _ | .returned f _ | .dropped f => some f

variable (infer : Bytes → Option SniffedType) (notFound : ε)

end Spec

/-! ### Keys -/

/-- What a number in hexadecimal stands for. -/
def hexValue (s : Str) : ℕ := s.foldl (fun v c => 16 * v + "0123456789abcdef".toList.idxOf c) 0

theorem hexValue_concat (s : Str) (c : Char) :
    hexValue (s ++ [c]) = 16 * hexValue s + "0123456789abcdef".toList.idxOf c := by
  rw [hexValue, List.foldl_concat, ← hexValue]

theorem hexValue_toDigits (n : ℕ) : hexValue (Nat.toDigits 16 n) = n := by
  have hdigit : ∀ n : Fin 16, "0123456789abcdef".toList.idxOf (Nat.digitChar n) = n := by decide
  induction n using Nat.strong_induction_on with
  | _ n ih =>
    rw [Nat.toDigits_eq_if (by decide)]
    split_ifs with hlt
    · have hone := hexValue_concat [] (Nat.digitChar n)
      rw [hdigit ⟨n, hlt⟩] at hone
      simpa [hexValue] using hone
    · rw [hexValue_concat, ih (n / 16) (by omega), hdigit ⟨n % 16, by omega⟩]
      exact Nat.div_add_mod n 16

theorem hexValue_hexPadded (width n : ℕ) : hexValue (hexPadded width n) = n := by
  have hzeros : ∀ k : ℕ, hexValue (List.replicate k '0') = 0 := by
    intro k
    induction k with
    | zero => rfl
    | succ k ih =>
      rw [List.replicate_succ', hexValue_concat, ih]
      rfl
  rw [hexPadded, List.leftpad, hexValue, List.foldl_append, ← hexValue, hzeros, ← hexValue, hexValue_toDigits]

theorem length_hexPadded {n : ℕ} (h : n < 2 ^ 64) : (hexPadded 16 n).length = 16 := by
  have hlength := (Nat.length_toDigits_le_iff (b := 16) (n := n) (k := 16) (by decide) (by decide)).mpr (by omega)
  rw [hexPadded, List.length_leftpad, max_eq_left hlength]

/-- The count is the last part of a staging key. -/
theorem key_stagingPath (pid nanos counter : ℕ) : (stagingPath pid nanos counter).key =
    (stagingDir ++ '/' :: (hexPadded 8 pid ++ '-' :: (hexPadded 32 nanos ++ ['-']))) ++
      (hexPadded 16 counter ++ ".part".toList) := by
  simp [stagingPath, stagingName, List.intercalate_cons_cons]

/-- Two counts of one process make two keys. -/
theorem counter_of_key_eq {pid nanos nanos' counter counter' : ℕ} (hlt : counter < 2 ^ 64) (hlt' : counter' < 2 ^ 64)
    (h : (stagingPath pid nanos counter).key = (stagingPath pid nanos' counter').key) : counter = counter' := by
  rw [key_stagingPath, key_stagingPath] at h
  have hlength : (hexPadded 16 counter ++ ".part".toList).length =
      (hexPadded 16 counter' ++ ".part".toList).length := by
    rw [List.length_append, List.length_append, length_hexPadded hlt, length_hexPadded hlt']
  have htail := (List.append_inj' h hlength).2
  have hdigits := List.append_cancel_right htail
  have hvalue := congrArg hexValue hdigits
  rwa [hexValue_hexPadded, hexValue_hexPadded] at hvalue

/-- A destination is no staging key. -/
theorem destination_ne_staging {sha : Sha256} {u : UploadWriter sha} {address : ContentAddress}
    {destination : StoragePath} (h : u.destination address = .ok destination) (pid nanos counter : ℕ) :
    destination.key ≠ (stagingPath pid nanos counter).key := by
  intro heq
  have hcount := two_le_count_destination h
  rw [heq, count_staging] at hcount
  omega

theorem afterLast_append {p : Char → Bool} {c : Char} {rest : Str} (hc : p c = true) (hrest : ∀ d ∈ rest, p d = false)
    (s : Str) : afterLast p (s ++ c :: rest) = rest := by
  have hall : ∀ d ∈ rest.reverse, (!p d) = true := fun d hd => by simp [hrest d (List.mem_reverse.mp hd)]
  rw [afterLast, List.reverse_append, List.reverse_cons, List.append_assoc,
    List.takeWhile_append_of_pos hall]
  simp [hc]

/-- The digest can be read off the key. -/
theorem nameIn_destination {sha : Sha256} {u : UploadWriter sha} {address : ContentAddress} {destination : StoragePath}
    (h : u.destination address = .ok destination) : nameIn destination.key = address.digest := by
  -- a key ends in the address, and the address in its name
  obtain ⟨before, hkey⟩ : ∃ before,
      destination.key = before ++ '/' :: (address.digest ++ '.' :: address.extension.str) := by
    rw [UploadWriter.destination] at h
    cases hparent : u.parent with
    | none =>
      rw [hparent] at h
      cases h
      exact ⟨address.digest.take 2 ++ '/' :: (address.digest.drop 2).take 2, by
        simp [ContentAddress.path, ContentAddress.toStr]⟩
    | some parent =>
      rw [hparent] at h
      refine ⟨parent.rdropWhile (· == '/') ++
        '/' :: (address.digest.take 2 ++ '/' :: (address.digest.drop 2).take 2), ?_⟩
      rw [key_of_new h]
      simp [ContentAddress.toStr]
  have hslash : ∀ c ∈ address.digest ++ '.' :: address.extension.str, (c == '/') = false := by
    intro c hc
    have hsegment := address.isSegment _ (by simp [ContentAddress.segments] :
      address.digest ++ '.' :: address.extension.str ∈ address.segments)
    exact beq_eq_false_iff_ne.mpr fun heq => hsegment.slash (heq ▸ hc)
  rw [nameIn, hkey, afterLast_append (by simp) hslash, List.take_append_of_le_length (by rw [address.length]),
    List.take_of_length_le (by rw [address.length])]

/-! ### The writer of an upload -/

section Writer

variable {sha : Sha256} {ε : Type} {pid : ℕ}

theorem writer_eq (f : Flight ε) : f.writer sha pid =
    { staging := f.staging pid, parent := f.parent, stored := kept f.calls
      hasher := (f.calls.map Prod.fst).foldl ContentHasher.update .new
      head := (fed f.calls).take sniffBytes } :=
  writes_openUpload _ _ _

/-- A handler's write is the writer's. -/
theorem writer_wrote (f : Flight ε) (chunk : Bytes) (fault : Option ε) :
    (f.wrote chunk fault).writer sha pid = ((f.writer sha pid).write chunk fault).1 := by
  rw [Flight.writer, Flight.writer, uploaded, Flight.wrote, UploadWriter.writes, List.foldl_concat]
  rfl

theorem address_eq (f : Flight ε) (extension : Extension) : f.address sha pid extension =
    .ofDigest (sha.digest (fed f.calls)) (min (fed f.calls).length u64Max) extension := by
  rw [Flight.address, writer_eq, finish_foldl_update]
  rfl

@[simp] theorem staging_wrote (f : Flight ε) (chunk : Bytes) (fault : Option ε) :
    (f.wrote chunk fault).staging pid = f.staging pid := rfl

end Writer

/-! ### What one request does -/

section Steps

variable {sha : Sha256} {ε : Type} {pid : ℕ} {infer : Bytes → Option SniffedType} {notFound : ε}

@[simp] theorem flight_lead {fate : Fate ε} {f : Flight ε} {next : Stage ε} (h : next.flight = some f) :
    (fate.lead f next).flight = some f := by
  cases fate with
  | answered => exact h
  | failed e => rfl
  | cancelled => rfl

@[simp] theorem begun_stage (s : Shelf) (f : Flight ε) (x : Chance ε) (bytes : Option Bytes) :
    (s.stage pid f x bytes).begun = s.begun := rfl

variable (sha pid infer notFound) in
/-- The staging key belongs to the upload for good. -/
theorem flight_advance (handler : Handler ε) (s : Shelf) (x : Chance ε) {stage : Stage ε} {f : Flight ε}
    (h : stage.flight = some f) :
    (∃ g, (advance sha pid infer notFound handler s x stage).2.flight = some g ∧ g.ticket = f.ticket ∧
      g.nanos = f.nanos) ∧ (advance sha pid infer notFound handler s x stage).1.begun = s.begun := by
  have hclose : ∀ extension, (∃ g, (close sha pid s f x extension).2.flight = some g ∧ g.ticket = f.ticket ∧
      g.nanos = f.nanos) ∧ (close sha pid s f x extension).1.begun = s.begun := by
    intro extension
    refine ⟨⟨f, ?_, rfl, rfl⟩, rfl⟩
    rw [close]
    apply flight_lead
    split <;> rfl
  have hdiscard : ∀ rejection, (∃ g, (discard pid s f x rejection).2.flight = some g ∧ g.ticket = f.ticket ∧
      g.nanos = f.nanos) ∧ (discard pid s f x rejection).1.begun = s.begun := by
    intro rejection
    exact ⟨⟨f, flight_lead rfl, rfl, rfl⟩, rfl⟩
  cases stage with
  | entering parent => cases h
  | refused e => cases h
  | writing g =>
    cases h
    rw [advance]
    cases handler f.calls with
    | write chunk =>
      refine ⟨?_, rfl⟩
      rw [call]
      dsimp only
      cases x.fate with
      | answered => exact ⟨_, rfl, rfl, rfl⟩
      | failed e => exact ⟨_, rfl, rfl, rfl⟩
      | cancelled => exact ⟨f, rfl, rfl, rfl⟩
    | finish extension => exact hclose extension
    | finishVerified extension =>
      rw [call]
      split
      · exact hdiscard _
      · exact hclose extension
    | abort => exact hdiscard _
    | drop => exact ⟨⟨f, rfl, rfl, rfl⟩, rfl⟩
  | looking g extension destination =>
    cases h
    refine ⟨⟨f, flight_lead ?_, rfl, rfl⟩, rfl⟩
    split_ifs <;> rfl
  | removing g extension destination =>
    cases h
    exact ⟨⟨f, flight_lead rfl, rfl, rfl⟩, rfl⟩
  | moving g extension destination =>
    cases h
    exact ⟨⟨f, flight_lead rfl, rfl, rfl⟩, rfl⟩
  | returned g result =>
    cases h
    exact ⟨⟨f, rfl, rfl, rfl⟩, rfl⟩
  | dropped g =>
    cases h
    exact ⟨⟨f, rfl, rfl, rfl⟩, rfl⟩

/-- The ticket of a task. -/
def Place.ticket : Place ε → Option ℕ
  | .upload _ stage => stage.flight.map Flight.ticket
  | .other _ _ _ => none

variable (sha pid infer notFound) in
theorem draws_uploads : (uploads sha pid infer notFound).Draws Place.ticket Shelf.begun where
  init := rfl
  start a := by cases a <;> rfl
  act s place x := by
    cases place with
    | other key value done => cases done <;> exact .inl ⟨rfl, rfl⟩
    | upload handler stage =>
      cases hflight : stage.flight with
      | some f =>
        obtain ⟨⟨g, hg, hticket, -⟩, hbegun⟩ :=
          flight_advance sha pid infer notFound handler s x hflight
        refine .inl ⟨?_, hbegun⟩
        change ((advance sha pid infer notFound handler s x stage).2.flight.map Flight.ticket) = stage.flight.map _
        rw [hg, hflight, Option.map_some, Option.map_some, hticket]
      | none =>
        cases stage with
        | entering parent =>
          change ((advance sha pid infer notFound handler s x (.entering parent)).2.flight.map Flight.ticket = none ∧
            _) ∨ _ ∧ (advance sha pid infer notFound handler s x (.entering parent)).2.flight.map Flight.ticket = _ ∧ _
          cases hparent : parentOf parent with
          | error e => exact .inl (by simp [uploads, act, advance, hparent, Stage.flight])
          | ok parent =>
            refine .inr ⟨rfl, ?_, by simp [uploads, act, advance, hparent]⟩
            simp only [advance, hparent]
            rw [flight_lead rfl, Option.map_some]
        | refused e => exact .inl ⟨rfl, rfl⟩
        | _ => cases hflight

/-- What an access sets a key to that is no staging key. -/
def Place.lays (pid : ℕ) (s : Shelf) (x : Chance ε) (key : Str) : Place ε → Option (Option Bytes)
  | .upload _ (.moving f _ destination) =>
    if destination.key = key ∧ x.renames (s.disk (f.staging pid).key) = true then some (s.disk (f.staging pid).key)
    else none
  | .other k value false => if k = key then some value else none
  | _ => none

@[simp] theorem disk_stage_of_ne {s : Shelf} {f : Flight ε} {x : Chance ε} {bytes : Option Bytes} {key : Str}
    (h : key ≠ (f.staging pid).key) : (s.stage pid f x bytes).disk key = s.disk key :=
  Function.update_of_ne h _ _

/-- An upload touches no key but its own two. -/
theorem disk_advance (handler : Handler ε) (s : Shelf) (x : Chance ε) {stage : Stage ε} {f : Flight ε} {key : Str}
    (h : stage.flight = some f) (hkey : key ≠ (f.staging pid).key) :
    (advance sha pid infer notFound handler s x stage).1.disk key =
      ((Place.upload handler stage).lays pid s x key).getD (s.disk key) := by
  cases stage with
  | entering parent => cases h
  | refused e => cases h
  | writing g =>
    cases h
    rw [advance]
    cases handler f.calls with
    | write chunk => exact disk_stage_of_ne hkey
    | finish extension => exact disk_stage_of_ne hkey
    | finishVerified extension =>
      rw [call]
      split
      · exact disk_stage_of_ne hkey
      · exact disk_stage_of_ne hkey
    | abort => exact disk_stage_of_ne hkey
    | drop => rfl
  | looking g extension destination => rfl
  | removing g extension destination =>
    cases h
    exact disk_stage_of_ne hkey
  | moving g extension destination =>
    cases h
    simp only [advance, Place.lays]
    rw [disk_stage_of_ne hkey]
    by_cases hmoved : x.renames (s.disk (f.staging pid).key) = true
    · rw [if_pos hmoved]
      by_cases hdestination : destination.key = key
      · subst hdestination
        simp [hmoved]
      · rw [if_neg fun hc => hdestination hc.1, Option.getD_none]
        exact Function.update_of_ne (Ne.symm hdestination) _ _
    · rw [if_neg hmoved, if_neg fun hc => hmoved hc.2, Option.getD_none]
  | returned g result => rfl
  | dropped g => rfl

theorem disk_act (s : Shelf) (place : Place ε) (x : Chance ε) {key : Str}
    (hkey : ∀ nanos counter, key ≠ (stagingPath pid nanos counter).key) :
    (act sha pid infer notFound s place x).1.disk key = (place.lays pid s x key).getD (s.disk key) := by
  cases place with
  | other k value done =>
    cases done with
    | true => rfl
    | false =>
      by_cases hk : k = key
      · subst hk
        simp [act, Place.lays]
      · simp [act, Place.lays, hk, Function.update_of_ne (Ne.symm hk)]
  | upload handler stage =>
    cases hflight : stage.flight with
    | some f => exact disk_advance handler s x hflight (hkey _ _)
    | none =>
      cases stage with
      | entering parent =>
        simp only [act, advance]
        split
        · rfl
        · exact disk_stage_of_ne (hkey _ _)
      | refused e => rfl
      | _ => cases hflight

/-! ### What the others do to a staging key -/

/-- What a stage leaves under its staging key, if nobody else sets it. -/
def Leaves (key : Str) (s : Shelf) : Stage ε → Prop
  | .looking f _ _ | .removing f _ _ | .moving f _ _ => s.disk key = some (kept f.calls)
  | .returned _ (.ok _) | .returned _ (.error (.content _)) => s.disk key = none
  | _ => True

theorem Leaves.congr {key : Str} {s s' : Shelf} {stage : Stage ε} (h : Leaves key s stage)
    (hdisk : s'.disk key = s.disk key) : Leaves key s' stage := by
  cases stage with
  | returned f result =>
    cases result with
    | ok address => exact hdisk.trans h
    | error e =>
      cases e with
      | storage e => trivial
      | content e => exact hdisk.trans h
  | looking f extension destination => exact hdisk.trans h
  | removing f extension destination => exact hdisk.trans h
  | moving f extension destination => exact hdisk.trans h
  | _ => trivial

theorem leaves_lead {key : Str} {s : Shelf} {fate : Fate ε} {f : Flight ε} {next : Stage ε}
    (h : fate.isAnswered = true → Leaves key s next) : Leaves key s (fate.lead f next) := by
  cases fate with
  | answered => exact h rfl
  | failed e => trivial
  | cancelled => trivial

theorem disk_stage {s : Shelf} {f : Flight ε} {x : Chance ε} {bytes : Option Bytes} (h : x.fate.isAnswered = true) :
    (s.stage pid f x bytes).disk (f.staging pid).key = bytes := by
  rw [Shelf.stage, if_pos h]
  exact Function.update_self _ _ _

theorem leaves_advance (handler : Handler ε) {s : Shelf} (x : Chance ε) {stage : Stage ε} {f : Flight ε}
    (h : stage.flight = some f) (hleaves : Leaves (f.staging pid).key s stage) :
    Leaves (f.staging pid).key (advance sha pid infer notFound handler s x stage).1
      (advance sha pid infer notFound handler s x stage).2 := by
  have hclose : ∀ extension, Leaves (f.staging pid).key (close sha pid s f x extension).1
      (close sha pid s f x extension).2 := by
    intro extension
    refine leaves_lead fun hanswered => ?_
    split
    · trivial
    · rw [Leaves, close, disk_stage hanswered, writer_eq]
  have hdiscard : ∀ rejection, Leaves (f.staging pid).key (discard pid s f x rejection).1
      (discard pid s f x rejection).2 := by
    intro rejection
    refine leaves_lead fun hanswered => ?_
    cases rejection <;> exact disk_stage hanswered
  cases stage with
  | entering parent => cases h
  | refused e => cases h
  | writing g =>
    cases h
    rw [advance]
    cases handler f.calls with
    | write chunk =>
      rw [call]
      cases x.fate <;> trivial
    | finish extension => exact hclose extension
    | finishVerified extension =>
      rw [call]
      split
      · exact hdiscard _
      · exact hclose extension
    | abort => exact hdiscard _
    | drop => trivial
  | looking g extension destination =>
    cases h
    refine leaves_lead fun _ => ?_
    split_ifs
    · exact hleaves
    · exact hleaves
  | removing g extension destination =>
    cases h
    exact leaves_lead fun hanswered => disk_stage hanswered
  | moving g extension destination =>
    cases h
    rw [advance]
    refine leaves_lead fun hanswered => disk_stage hanswered
  | returned g result => exact hleaves
  | dropped g => trivial

/-! ### What is known of an upload -/

variable (sha pid infer notFound) in
/-- What the stage of an upload says about the schedule so far. -/
def Told (es : List (Turn (Entry ε) (Chance ε))) : Stage ε → Prop
  | .looking f extension destination | .moving f extension destination =>
    (f.writer sha pid).destination (f.address sha pid extension) = .ok destination
  | .removing f extension destination =>
    (f.writer sha pid).destination (f.address sha pid extension) = .ok destination ∧
      ∃ i, (uploads sha pid infer notFound).tasks.Fires es i (Finds f destination.key)
  | .returned f (.ok (some address)) =>
    ∃ extension destination, address = f.address sha pid extension ∧
      (f.writer sha pid).destination address = .ok destination ∧
        ∃ i, (uploads sha pid infer notFound).tasks.Fires es i fun s e =>
          Finds f destination.key s e ∨ ∃ bytes, Renames pid f extension destination.key bytes s e
  | .returned f (.error (.content rejection)) =>
    ∃ extension, verify infer ((fed f.calls).take sniffBytes) extension = .error rejection
  | _ => True

variable {es : List (Turn (Entry ε) (Chance ε))}

theorem Told.concat {stage : Stage ε} (h : Told sha pid infer notFound es stage) (e : Turn (Entry ε) (Chance ε)) :
    Told sha pid infer notFound (es ++ [e]) stage := by
  cases stage with
  | removing f extension destination =>
    obtain ⟨hdestination, i, hfinds⟩ := h
    exact ⟨hdestination, i, Machine.fires_concat.mpr (.inl hfinds)⟩
  | returned f result =>
    cases result with
    | error e => cases e <;> exact h
    | ok address =>
      cases address with
      | none => trivial
      | some address =>
        obtain ⟨extension, destination, haddress, hdestination, i, hfires⟩ := h
        exact ⟨extension, destination, haddress, hdestination, i, Machine.fires_concat.mpr (.inl hfires)⟩
  | _ => exact h

theorem told_lead {fate : Fate ε} {f : Flight ε} {next : Stage ε}
    (h : fate.isAnswered = true → Told sha pid infer notFound es next) :
    Told sha pid infer notFound es (fate.lead f next) := by
  cases fate with
  | answered => exact h rfl
  | failed e => trivial
  | cancelled => trivial

/-- A step of an upload. -/
theorem told_advance {n : ℕ} {handler : Handler ε} {stage : Stage ε}
    (hplace : ((uploads sha pid infer notFound).tasks.run es).places[n]? = some (.upload handler stage))
    (htold : Told sha pid infer notFound es stage) (x : Chance ε) :
    Told sha pid infer notFound (es ++ [.step n x])
      (advance sha pid infer notFound handler ((uploads sha pid infer notFound).tasks.run es).memory x stage).2 := by
  have hclose : ∀ f extension, Told sha pid infer notFound (es ++ [.step n x])
      (close sha pid ((uploads sha pid infer notFound).tasks.run es).memory f x extension).2 := by
    intro f extension
    refine told_lead fun _ => ?_
    split
    · trivial
    · next destination hdestination => exact hdestination
  cases stage with
  | entering parent =>
    rw [advance]
    split
    · trivial
    · exact told_lead fun _ => trivial
  | writing f =>
    rw [advance]
    cases handler f.calls with
    | write chunk =>
      rw [call]
      cases x.fate <;> trivial
    | finish extension => exact hclose f extension
    | finishVerified extension =>
      rw [call]
      split
      · next rejection hverify =>
        rw [writer_eq] at hverify
        exact told_lead fun _ => ⟨extension, hverify⟩
      · exact hclose f extension
    | abort => exact told_lead fun _ => trivial
    | drop => trivial
  | looking f extension destination =>
    refine told_lead fun _ => ?_
    split_ifs with hthere
    · exact ⟨htold, es.length, Machine.fires_last.mpr
        ⟨n, x, handler, extension, destination, rfl, hplace, rfl, hthere⟩⟩
    · exact htold
  | removing f extension destination =>
    obtain ⟨hdestination, i, hfinds⟩ := htold
    refine told_lead fun _ => ⟨extension, destination, rfl, hdestination, i, ?_⟩
    exact Machine.fires_concat.mpr (.inl (hfinds.imp fun s e h => .inl h))
  | moving f extension destination =>
    rw [advance]
    refine told_lead fun hanswered => ⟨extension, destination, rfl, htold, es.length, Machine.fires_last.mpr (.inr ?_)⟩
    -- an answered rename had an object
    cases hobject : ((uploads sha pid infer notFound).tasks.run es).memory.disk (f.staging pid).key with
    | none =>
      rw [hobject] at hanswered
      cases hfate : x.fate <;> simp [Chance.found, hfate, Fate.isAnswered] at hanswered
    | some bytes =>
      rw [hobject] at hanswered
      have hfound : x.found notFound (some bytes) = x.fate := by simp [Chance.found]
      rw [hfound] at hanswered
      exact ⟨bytes, n, x, handler, destination, rfl, hplace, rfl, hobject, by simp [Chance.renames, hanswered]⟩
  | refused e => trivial
  | returned f result => exact htold.concat _
  | dropped f => trivial

/-- Whatever the schedule. -/
theorem told_run {n : ℕ} {handler : Handler ε} {stage : Stage ε}
    (h : ((uploads sha pid infer notFound).tasks.run es).places[n]? = some (.upload handler stage)) :
    Told sha pid infer notFound es stage := by
  induction es using List.reverseRecOn generalizing stage with
  | nil => simp at h
  | append_singleton es e ih =>
    rw [Machine.run_concat, Program.next_tasks] at h
    rcases Program.of_getElem?_turn _ h with ⟨-, hsame⟩ | ⟨a, -, -, hstart⟩ | ⟨x, place, rfl, hthere, hstep⟩
    · exact (ih hsame).concat e
    · cases a with
      | other key value => cases hstart
      | upload handler' parent =>
        cases hstart
        trivial
    · cases place with
      | other key value done => cases done <;> cases hstep
      | upload handler' stage' =>
        cases hstep
        exact told_advance hthere (ih hthere) x

/-! ### Every schedule -/

/-- Below `2 ^ 64` tickets a staging key says whose it is. -/
theorem eq_of_staging {s : Tasks Shelf (Place ε)} (hdrawn : Program.Drawn Place.ticket Shelf.begun s)
    (hroom : s.memory.begun ≤ 2 ^ 64) {m n : ℕ} {handler handler' : Handler ε} {stage stage' : Stage ε}
    {f g : Flight ε} (hm : s.places[m]? = some (.upload handler stage))
    (hn : s.places[n]? = some (.upload handler' stage')) (hf : stage.flight = some f) (hg : stage'.flight = some g)
    (hkey : (f.staging pid).key = (g.staging pid).key) : m = n := by
  have htf : (Place.upload handler stage).ticket = some f.ticket := by simp [Place.ticket, hf]
  have htg : (Place.upload handler' stage').ticket = some g.ticket := by simp [Place.ticket, hg]
  have hlf := hdrawn.lt m _ _ hm htf
  have hlg := hdrawn.lt n _ _ hn htg
  have hcounter := counter_of_key_eq (by omega) (by omega) hkey
  have hticket : f.ticket = g.ticket := by omega
  exact hdrawn.inj m n _ _ _ hm hn htf (hticket ▸ htg)

variable (pid) in
/-- A staging key that nothing else sets. -/
structure Staged (key : Str) (s : Tasks Shelf (Place ε)) : Prop where
  alone : ∀ (n : ℕ) value, s.places[n]? ≠ some (.other key value false)
  leaves : ∀ (n : ℕ) handler stage f, s.places[n]? = some (.upload handler stage) → stage.flight = some f →
    (f.staging pid).key = key → Leaves key s.memory stage

/-- A step of another task leaves a staging key as it is. -/
theorem disk_turn {s : Tasks Shelf (Place ε)} {e : Turn (Entry ε) (Chance ε)} {n : ℕ} {handler : Handler ε}
    {stage : Stage ε} {f : Flight ε}
    (hdrawn : Program.Drawn Place.ticket Shelf.begun ((uploads sha pid infer notFound).turn s e))
    (hroom : ((uploads sha pid infer notFound).turn s e).memory.begun ≤ 2 ^ 64)
    (htold : ∀ (m : ℕ) handler g extension destination,
      s.places[m]? = some (.upload handler (.moving g extension destination)) →
        (g.writer sha pid).destination (g.address sha pid extension) = .ok destination)
    (halone : ∀ (m : ℕ) value, s.places[m]? ≠ some (.other (f.staging pid).key value false))
    (hplace : s.places[n]? = some (.upload handler stage)) (hflight : stage.flight = some f)
    (hother : ∀ x, e ≠ .step n x) :
    ((uploads sha pid infer notFound).turn s e).memory.disk (f.staging pid).key =
      s.memory.disk (f.staging pid).key := by
  have hstill := (uploads sha pid infer notFound).getElem?_turn_ne hplace hother
  rcases (uploads sha pid infer notFound).turn_cases s e with ⟨a, -, hturn⟩ | ⟨m, x, place, rfl, hthere, hturn⟩ |
    ⟨m, x, -, -, hturn⟩
  · rw [hturn]
  · have hne : m ≠ n := fun hmn => hother x (by rw [hmn])
    have hmoved := (uploads sha pid infer notFound).getElem?_turn hthere x
    rw [hturn]
    cases place with
    | other key value done =>
      cases done with
      | true => rfl
      | false =>
        have hkey : (f.staging pid).key ≠ key := fun hkey => halone m value (hkey ▸ hthere)
        exact Function.update_of_ne hkey _ _
    | upload handler' stage' =>
      cases hflight' : stage'.flight with
      | some g =>
        obtain ⟨⟨g', hg', hticket, hnanos⟩, -⟩ := flight_advance sha pid infer notFound handler'
          s.memory x hflight'
        have hsame : g'.staging pid = g.staging pid := by rw [Flight.staging, Flight.staging, hticket, hnanos]
        have hkey : (f.staging pid).key ≠ (g.staging pid).key := fun hkey =>
          hne (eq_of_staging hdrawn hroom hmoved hstill hg' hflight (by rw [hsame, hkey]))
        refine (disk_advance handler' s.memory x hflight' hkey).trans ?_
        cases stage' with
        | moving g₀ extension destination =>
          have hdestination := destination_ne_staging (htold m handler' g₀ extension destination hthere) pid f.nanos
            (f.ticket % 2 ^ 64)
          rw [Place.lays, if_neg fun hc => hdestination hc.1, Option.getD_none]
        | _ => rfl
      | none =>
        cases stage' with
        | entering parent =>
          simp only [uploads, act, advance] at hmoved ⊢
          cases hparent : parentOf parent with
          | error e => rfl
          | ok parent =>
            simp only [hparent] at hmoved ⊢
            have hkey : (f.staging pid).key ≠ (Flight.staging pid ⟨s.memory.begun, x.nanos, parent, []⟩).key :=
              fun hkey => hne (eq_of_staging hdrawn hroom hmoved hstill (flight_lead rfl) hflight hkey.symm)
            exact disk_stage_of_ne hkey
        | refused e => rfl
        | _ => cases hflight'
  · rw [hturn]

variable (sha pid infer notFound) in
theorem begun_run (hroom : es.length ≤ 2 ^ 64) : Program.Drawn Place.ticket Shelf.begun
    ((uploads sha pid infer notFound).tasks.run es) ∧
      ((uploads sha pid infer notFound).tasks.run es).memory.begun ≤ 2 ^ 64 := by
  obtain ⟨hdrawn, hcount⟩ := (draws_uploads sha pid infer notFound).run es
  exact ⟨hdrawn, hcount.trans hroom⟩

variable (sha pid infer notFound) in
theorem staged_run {key : Str} (hroom : es.length ≤ 2 ^ 64) (hapart : ∀ value, Turn.spawn (.other key value) ∉ es) :
    Staged pid key ((uploads sha pid infer notFound).tasks.run es) := by
  induction es using List.reverseRecOn with
  | nil => exact ⟨by simp, by simp⟩
  | append_singleton es e ih =>
    have hroom' : es.length ≤ 2 ^ 64 := by simp at hroom; omega
    have hs := ih hroom' fun value hmem => hapart value (List.mem_append_left _ hmem)
    obtain ⟨hdrawn, hbegun⟩ := begun_run sha pid infer notFound hroom
    rw [Machine.run_concat, Program.next_tasks] at hdrawn hbegun ⊢
    constructor
    · intro n value h
      rcases Program.of_getElem?_turn _ h with ⟨-, hsame⟩ | ⟨a, rfl, -, hstart⟩ | ⟨x, place, rfl, hthere, hstep⟩
      · exact hs.alone n value hsame
      · cases a with
        | upload handler parent => cases hstart
        | other k v =>
          cases hstart
          exact hapart value (by simp)
      · cases place with
        | upload handler stage => cases hstep
        | other k v done => cases done <;> cases hstep
    · intro n handler stage f h hflight hkey
      rcases Program.of_getElem?_turn _ h with ⟨hother, hsame⟩ | ⟨a, -, -, hstart⟩ | ⟨x, place, rfl, hthere, hstep⟩
      · subst hkey
        have hkept := disk_turn hdrawn hbegun (fun m handler g extension destination hm => told_run hm) hs.alone hsame
          hflight hother
        exact (hs.leaves n handler stage f hsame hflight rfl).congr hkept
      · cases a with
        | other k v => cases hstart
        | upload handler' parent =>
          cases hstart
          cases hflight
      · cases place with
        | other k v done => cases done <;> cases hstep
        | upload handler' stage' =>
          cases hstep
          have hmemory : ((uploads sha pid infer notFound).turn ((uploads sha pid infer notFound).tasks.run es)
              (.step n x)).memory = ((uploads sha pid infer notFound).act
                ((uploads sha pid infer notFound).tasks.run es).memory (.upload handler stage') x).1 := by
            simp [Program.turn, hthere]
          rw [hmemory]
          cases hflight' : stage'.flight with
          | some g =>
            obtain ⟨⟨g', hg', hticket, hnanos⟩, -⟩ := flight_advance sha pid infer notFound handler
              ((uploads sha pid infer notFound).tasks.run es).memory x hflight'
            obtain rfl : g' = f := Option.some.inj (hg'.symm.trans hflight)
            have hsame : g'.staging pid = g.staging pid := by rw [Flight.staging, Flight.staging, hticket, hnanos]
            rw [hsame] at hkey
            subst hkey
            exact leaves_advance handler x hflight' (hs.leaves n handler stage' g hthere hflight' rfl)
          | none =>
            cases stage' with
            | entering parent =>
              simp only [uploads, act, advance]
              split
              · trivial
              · exact leaves_lead fun _ => trivial
            | refused e => trivial
            | _ => cases hflight'

/-! ### One upload by itself -/

/-- The fault that `finish` may meet at a stage. -/
def Stage.fault (faults : FinishFaults ε) : Stage ε → Option ε
  | .looking _ _ _ => faults.onExists
  | .removing _ _ _ => faults.onDelete
  | .moving _ _ _ => faults.onRename
  | _ => none

/-- A request that is answered or fails, and does nothing where it fails. -/
def quiet (pid : ℕ) (s : Shelf) (f : Flight ε) (fault : Option ε) : Chance ε :=
  ⟨0, s.disk (f.staging pid).key, match fault with | none => .answered | some e => .failed e, false⟩

variable (sha pid infer notFound) in
/-- The next request of an upload that nothing disturbs. -/
def undisturbed (handler : Handler ε) (f : Flight ε) (faults : FinishFaults ε) (p : Shelf × Stage ε) :
    Shelf × Stage ε :=
  advance sha pid infer notFound handler p.1 (quiet pid p.1 f (p.2.fault faults)) p.2

/-- It is `finish`: the close, and then two requests. -/
theorem finish_eq_undisturbed (handler : Handler ε) (s : Shelf) (f : Flight ε) (extension : Extension)
    (faults : FinishFaults ε) :
    (undisturbed sha pid infer notFound handler f faults)^[2]
        (close sha pid s f (quiet pid s f faults.onClose) extension) =
      ({ s with disk := ((f.writer sha pid).finish extension faults s.disk).2 },
        .returned f ((((f.writer sha pid).finish extension faults s.disk).1.mapError .storage).map some)) := by
  have hstaging : (f.writer sha pid).staging = f.staging pid := by rw [writer_eq]
  simp only [Function.iterate_succ, Function.iterate_zero, Function.comp_apply, id_eq, UploadWriter.finish, hstaging]
  cases hclose : faults.onClose with
  | some e =>
    simp [undisturbed, close, quiet, Fate.lead, advance, Shelf.stage, Fate.isAnswered, Except.mapError, Except.map]
  | none =>
    cases hdestination : (f.writer sha pid).destination ((f.writer sha pid).hasher.finish extension) with
    | error e =>
      simp [undisturbed, close, quiet, Fate.lead, advance, Shelf.stage, Fate.isAnswered, Flight.address, hdestination,
        Except.mapError, Except.map]
    | ok destination =>
      have hne := destination_ne_staging hdestination pid f.nanos (f.ticket % 2 ^ 64)
      cases hexists : faults.onExists with
      | some e =>
        simp [undisturbed, close, quiet, Fate.lead, advance, Shelf.stage, Fate.isAnswered, Flight.address, hdestination,
          Stage.fault, hexists, Except.mapError, Except.map]
      | none =>
        have hne' : destination.key ≠ (f.staging pid).key := hne
        cases hthere : s.disk destination.key with
        | some there =>
          cases hdelete : faults.onDelete <;>
            simp [undisturbed, close, quiet, Fate.lead, advance, Shelf.stage, Fate.isAnswered, Flight.address,
              hdestination, Stage.fault, hexists, hne', hthere, hdelete, Except.mapError,
              Except.map]
        | none =>
          cases hrename : faults.onRename <;>
            simp [undisturbed, close, quiet, Fate.lead, advance, Shelf.stage, Fate.isAnswered, Flight.address,
              hdestination, Stage.fault, hexists, hne', hthere, hrename, Chance.found, Chance.renames,
              Except.mapError, Except.map]

/-! ### A key that is no staging key -/

/-- What an access sets, an upload renames or another call sets. -/
theorem lays_eq_some {s : Tasks Shelf (Place ε)} {n : ℕ} {place : Place ε} {x : Chance ε} {key : Str}
    {value : Option Bytes} (hplace : s.places[n]? = some place) :
    place.lays pid s.memory x key = some value ↔
      (∃ f extension bytes, value = some bytes ∧ Renames pid f extension key bytes s (.step n x)) ∨
        Sets key value s (.step n x) := by
  constructor
  · intro h
    cases place with
    | other k v done =>
      cases done with
      | true => cases h
      | false =>
        simp only [Place.lays] at h
        split_ifs at h with hk
        cases h
        subst hk
        exact .inr ⟨n, x, rfl, hplace⟩
    | upload handler stage =>
      cases stage with
      | moving f extension destination =>
        simp only [Place.lays] at h
        split_ifs at h with hc
        cases h
        obtain ⟨hkey, hrenames⟩ := hc
        cases hobject : s.memory.disk (f.staging pid).key with
        | none => simp [hobject, Chance.renames] at hrenames
        | some bytes =>
          rw [hobject] at hrenames
          exact .inl ⟨f, extension, bytes, rfl, n, x, handler, destination, rfl, hplace, hkey, hobject, hrenames⟩
      | _ => cases h
  · rintro (⟨f, extension, bytes, rfl, m, y, handler, destination, hstep, hthere, hkey, hobject, hrenames⟩ |
      ⟨m, y, hstep, hthere⟩)
    · obtain ⟨rfl, rfl⟩ := Turn.step.inj hstep
      obtain rfl := Option.some.inj (hplace.symm.trans hthere)
      rw [Place.lays, hobject, if_pos ⟨hkey, hrenames⟩]
    · obtain ⟨rfl, rfl⟩ := Turn.step.inj hstep
      obtain rfl := Option.some.inj (hplace.symm.trans hthere)
      rw [Place.lays, if_pos rfl]

variable (sha pid infer notFound) in
/-- One event, at a key that is no staging key. -/
theorem disk_turn_iff {s : Tasks Shelf (Place ε)} {e : Turn (Entry ε) (Chance ε)} {key : Str} {value : Option Bytes}
    (hkey : ∀ nanos counter, key ≠ (stagingPath pid nanos counter).key) :
    ((uploads sha pid infer notFound).turn s e).memory.disk key = value ↔
      ((∃ f extension bytes, value = some bytes ∧ Renames pid f extension key bytes s e) ∨ Sets key value s e) ∨
        (s.memory.disk key = value ∧
          ¬ ((∃ f extension other, Renames pid f extension key other s e) ∨ ∃ v, Sets key v s e)) := by
  -- an event that makes no access sets nothing
  have hidle : (∀ n x place, e = .step n x → s.places[n]? ≠ some place) →
      ((uploads sha pid infer notFound).turn s e).memory.disk key = s.memory.disk key →
      (((uploads sha pid infer notFound).turn s e).memory.disk key = value ↔
        ((∃ f extension bytes, value = some bytes ∧ Renames pid f extension key bytes s e) ∨ Sets key value s e) ∨
          (s.memory.disk key = value ∧
            ¬ ((∃ f extension other, Renames pid f extension key other s e) ∨ ∃ v, Sets key v s e))) := by
    intro hnone hsame
    have hrenames : ∀ f extension bytes, ¬ Renames pid f extension key bytes s e := by
      rintro f extension bytes ⟨n, x, handler, destination, rfl, hplace, -⟩
      exact hnone n x _ rfl hplace
    have hsets : ∀ v, ¬ Sets key v s e := by
      rintro v ⟨n, x, rfl, hplace⟩
      exact hnone n x _ rfl hplace
    rw [hsame]
    simp [hrenames, hsets]
  rcases (uploads sha pid infer notFound).turn_cases s e with ⟨a, rfl, hturn⟩ | ⟨n, x, place, rfl, hplace, hturn⟩ |
    ⟨n, x, rfl, hplace, hturn⟩
  · exact hidle (fun n x place he => by cases he) (by rw [hturn])
  · have hdisk : ((uploads sha pid infer notFound).turn s (.step n x)).memory.disk key =
        (place.lays pid s.memory x key).getD (s.memory.disk key) := by
      rw [hturn]
      exact disk_act s.memory place x hkey
    have hlays : ∀ v, place.lays pid s.memory x key = some v ↔ _ := fun v => lays_eq_some hplace
    rw [hdisk, ← hlays value]
    cases hset : place.lays pid s.memory x key with
    | none =>
      have hnone : ¬ ((∃ f extension other, Renames pid f extension key other s (.step n x)) ∨
          ∃ v, Sets key v s (.step n x)) := by
        rintro (⟨f, extension, other, hrenames⟩ | ⟨v, hsets⟩)
        · have hsome := (hlays (some other)).mpr (.inl ⟨f, extension, other, rfl, hrenames⟩)
          rw [hset] at hsome
          cases hsome
        · have hsome := (hlays v).mpr (.inr hsets)
          rw [hset] at hsome
          cases hsome
      simp [hnone]
    | some v =>
      have hsome : (∃ f extension other, Renames pid f extension key other s (.step n x)) ∨
          ∃ v, Sets key v s (.step n x) := by
        rcases (hlays v).mp hset with ⟨f, extension, bytes, -, hrenames⟩ | hsets
        · exact .inl ⟨f, extension, bytes, hrenames⟩
        · exact .inr ⟨v, hsets⟩
      simp [hsome]
  · refine hidle (fun m y place he hthere => ?_) (by rw [hturn])
    obtain ⟨rfl, rfl⟩ := Turn.step.inj he
    rw [hplace] at hthere
    cases hthere

variable (sha pid infer notFound) in
/-- Where an object was found or put there is one. -/
theorem isSome_turn {s : Tasks Shelf (Place ε)} {e : Turn (Entry ε) (Chance ε)} {f : Flight ε} {extension : Extension}
    {key : Str} (hkey : ∀ nanos counter, key ≠ (stagingPath pid nanos counter).key)
    (h : Finds f key s e ∨ ∃ bytes, Renames pid f extension key bytes s e) :
    (((uploads sha pid infer notFound).turn s e).memory.disk key).isSome = true := by
  rcases h with ⟨n, x, handler, extension', destination, rfl, hplace, -, hthere⟩ | ⟨bytes, hrenames⟩
  · rw [Option.isSome_iff_ne_none]
    intro hnone
    rcases (disk_turn_iff sha pid infer notFound hkey).mp hnone with
      (⟨_, _, bytes, hvalue, -⟩ | ⟨m, y, hstep, hother⟩) | ⟨hbefore, -⟩
    · cases hvalue
    · obtain ⟨rfl, rfl⟩ := Turn.step.inj hstep
      rw [hplace] at hother
      cases hother
    · rw [hbefore] at hthere
      cases hthere
  · have hsome := (disk_turn_iff sha pid infer notFound hkey).mpr
      (.inl (.inl ⟨f, extension, bytes, rfl, hrenames⟩))
    rw [hsome]
    rfl

/-- It stays, until something else deletes it. -/
theorem isSome_run {f : Flight ε} {extension : Extension} {key : Str} {i : ℕ}
    (hkey : ∀ nanos counter, key ≠ (stagingPath pid nanos counter).key)
    (h : (uploads sha pid infer notFound).tasks.Fires es i fun s e =>
      Finds f key s e ∨ ∃ bytes, Renames pid f extension key bytes s e)
    (hkept : ∀ j, i < j → ¬ (uploads sha pid infer notFound).tasks.Fires es j (Sets key none)) :
    (((uploads sha pid infer notFound).tasks.run es).memory.disk key).isSome = true := by
  obtain ⟨e, he, hhappens⟩ := h
  have hlt := (List.getElem?_eq_some_iff.mp he).1
  have hnext := isSome_turn sha pid infer notFound hkey hhappens
  rw [← Program.next_tasks, ← Machine.run_take_succ he] at hnext
  by_contra hgone
  have hend : ((uploads sha pid infer notFound).tasks.run (es.take es.length)).memory.disk key = none := by
    rw [List.take_length]
    exact Option.not_isSome_iff_eq_none.mp hgone
  obtain ⟨j, hij, -, e', he', hbefore, hafter⟩ := Machine.crossing
    (Q := fun s : Tasks Shelf (Place ε) => s.memory.disk key = none) (Nat.succ_le_of_lt hlt) le_rfl
    (Option.isSome_iff_ne_none.mp hnext) hend
  rcases (disk_turn_iff sha pid infer notFound hkey).mp hafter with (⟨_, _, bytes, hvalue, -⟩ | hsets) | ⟨hsame, -⟩
  · cases hvalue
  · exact hkept j hij ⟨e', he', hsets⟩
  · exact hbefore hsame

/-! ### After a rename -/

/-- An upload that makes no more requests. -/
def Stage.Ended : Stage ε → Prop
  | .returned _ _ | .dropped _ | .refused _ => True
  | _ => False

end Steps

/-- A hash that forgets what it was fed. -/
def forgetful : Sha256 where
  σ := Unit
  new := ()
  update _ _ := ()
  finalize _ := ⟨List.replicate 32 0, by simp⟩
  digest _ := ⟨List.replicate 32 0, by simp⟩
  streaming _ := rfl

/-- A handler that writes once and finishes. -/
def once (bytes : Bytes) : Handler Unit
  | [] => .write bytes
  | _ => .finish jpg

/-- Both find nothing and both rename. -/
def race : List (Turn (Entry Unit) (Chance Unit)) :=
  let x : Chance Unit := ⟨0, none, .answered, false⟩
  [.spawn (.upload (once [1, 2, 3]) none), .spawn (.upload (once [1, 2, 3]) none), .step 0 x, .step 1 x, .step 0 x,
    .step 1 x, .step 0 x, .step 1 x, .step 0 x, .step 1 x, .step 0 x, .step 1 x]

/-- How long the object is of an upload that was answered. -/
def Place.answered {ε : Type} : Place ε → Option ℕ
  | .upload _ (.returned _ (.ok (some address))) => some address.bytes
  | _ => none

end Arcature.Storage.Uploads

import Arcature.Http.Multipart
import Arcature.Storage.Uploads

/-! One uploaded file, checked before the handler sees it (`validation/upload.rs`).

    The extractor reads the parts of the body in order, within the bounds, up to the first it takes, and what comes
    behind that is not looked at:

        next_field ── no part left ──▶ missing
           ▲  │
           │  ├── no filename, or not the field's name: read it to its end
           └──┘
              └── bytes ──▶ filename ──▶ first bytes ──▶ UploadedFile ──store──▶ address
                                 └ extension     └ contents

    `extracted` says of every body which of these it is; `stored` what becomes of the file between any number of
    other uploads. -/

namespace Arcature.Validation
open Arcature.Lib Arcature.Storage
open Arcature.Http.Multipart (MultipartLimits MultipartError BoundedMultipart BoundedField Fits FieldDrains Refuses
  partSize bodySize fieldDrains)

/-! ### The extractor -/

/-- `AllowedExtensions::images`. -/
def images : AllowedExtensions :=
  {jpg, ⟨"jpeg".toList, by decide, by decide, by decide⟩, ⟨"png".toList, by decide, by decide, by decide⟩,
    ⟨"gif".toList, by decide, by decide, by decide⟩, ⟨"webp".toList, by decide, by decide, by decide⟩}

/-- `UploadPolicy`. -/
structure UploadPolicy where
  allowed : AllowedExtensions
  field : Option Str

/-- `UploadPolicy::new`. -/
def UploadPolicy.new (allowed : AllowedExtensions) : UploadPolicy := ⟨allowed, none⟩

/-- `with_field`. -/
def UploadPolicy.withField (policy : UploadPolicy) (field : Str) : UploadPolicy := { policy with field := some field }

/-- A part: what its header says and the chunks it comes in. -/
structure Part where
  name : Option Str
  fileName : Option Str
  chunks : List Bytes

/-- The bytes of a part. -/
def Part.bytes (part : Part) : Bytes := part.chunks.flatten

/-- The filename of a part that the policy takes: it has one, and the name that is required. -/
def UploadPolicy.takes (policy : UploadPolicy) (part : Part) : Option Str :=
  part.fileName.filter fun _ => policy.field.all fun required => part.name = some required

/-- `bytes` of a `BoundedField`. -/
def fieldBytes (f : BoundedField) : Except MultipartError (Bytes × BoundedMultipart) :=
  match f.drain (f.field.length + 1) with
  | (_, .error e) => .error e
  | (chunks, .ok m) => .ok (chunks.flatten, m)

/-- The rejection: of a bound, or of one of the checks, with the code and the message under `UPLOAD_FIELD`. -/
inductive Rejection where
  | multipart (error : MultipartError)
  | upload (code message : String)
  deriving DecidableEq

section Extract

variable (nfc : Str → Str) (infer : Bytes → Option SniffedType)

/-- `UploadedFile`: its bytes are what its name says. -/
structure UploadedFile where
  filename : SafeFilename
  contentType : Option SniffedType
  bytes : Bytes
  verified : verify infer bytes filename.extension = .ok contentType

/-- The checks on the part that is taken. -/
def check (policy : UploadPolicy) (fileName : Str) (bytes : Bytes) : Except Rejection (UploadedFile infer) :=
  match SafeFilename.parse nfc fileName policy.allowed with
  | .error _ => .error (.upload "extension" "That filename or file type is not accepted here")
  | .ok filename =>
    match h : verify infer bytes filename.extension with
    | .error _ => .error (.upload "contents" "The file's contents do not match its file extension")
    | .ok contentType => .ok ⟨filename, contentType, bytes, h⟩

/-- The loop of `from_request`. The parts are those that the multipart has left. -/
def extract (policy : UploadPolicy) : List Part → BoundedMultipart → Except Rejection (UploadedFile infer)
  | parts, m =>
    match m.nextField with
    | .error e => .error (.multipart e)
    | .ok none => .error (.upload "missing" "No file was uploaded")
    | .ok (some field) =>
      match parts with
      -- not with a field in hand
      | [] => .error (.upload "missing" "No file was uploaded")
      | part :: parts =>
        match fieldBytes field with
        | .error e => .error (.multipart e)
        | .ok (bytes, m) =>
          match policy.takes part with
          | none => extract policy parts m
          | some fileName => check nfc infer policy fileName bytes

/-- `from_request`, with the limits and the policy that the route has set. -/
def fromRequest (limits : Option MultipartLimits) (policy : Option UploadPolicy) (body : List Part) :
    Except Rejection (UploadedFile infer) :=
  extract nfc infer (policy.getD (.new images)) body
    (.new (body.map Part.chunks) (limits.getD .new))

end Extract

/-! ### What is accepted -/

/-- The body keeps to the bounds. -/
structure Admits (limits : MultipartLimits) (body : List Part) : Prop where
  fields : body.length ≤ limits.fields
  field : ∀ part ∈ body, Fits limits.fieldBytes (partSize part.chunks)
  total : Fits limits.totalBytes (bodySize (body.map Part.chunks))

/-- The first part that the policy takes, and what stands before it. -/
structure Takes (policy : UploadPolicy) (body before : List Part) (part : Part) (fileName : Str) : Prop where
  first : before ++ [part] <+: body
  passed : ∀ p ∈ before, policy.takes p = none
  taken : policy.takes part = some fileName

section Spec

variable (nfc : Str → Str) (infer : Bytes → Option SniffedType)

/-- What the extractor makes of a body. -/
structure Extracted (limits : MultipartLimits) (policy : UploadPolicy) (body : List Part)
    (result : Except Rejection (UploadedFile infer)) : Prop where
  /-- It accepts the first part that the policy takes, if what was read up to its end keeps to the bounds, its name
      is safe and its bytes are what the name says. -/
  accepted : ∀ file, result = .ok file ↔ ∃ before part fileName, Takes policy body before part fileName ∧
    Admits limits (before ++ [part]) ∧ SafeFilename.parse nfc fileName policy.allowed = .ok file.filename ∧
      file.bytes = part.bytes
  extension : result = .error (.upload "extension" "That filename or file type is not accepted here") ↔
    ∃ before part fileName, Takes policy body before part fileName ∧ Admits limits (before ++ [part]) ∧
      ∃ e, SafeFilename.parse nfc fileName policy.allowed = .error e
  contents : result = .error (.upload "contents" "The file's contents do not match its file extension") ↔
    ∃ before part fileName, Takes policy body before part fileName ∧ Admits limits (before ++ [part]) ∧
      ∃ filename e, SafeFilename.parse nfc fileName policy.allowed = .ok filename ∧
        verify infer part.bytes filename.extension = .error e
  missing : result = .error (.upload "missing" "No file was uploaded") ↔
    (∀ part ∈ body, policy.takes part = none) ∧ Admits limits body ∧ body.length ≠ limits.fields
  /-- Else a bound refused it, on the way to the end of that part or of the body. -/
  bounded : (∃ e, result = .error (.multipart e)) ↔
    (∃ before part fileName, Takes policy body before part fileName ∧ ¬ Admits limits (before ++ [part])) ∨
      (∀ part ∈ body, policy.takes part = none) ∧ ¬ (Admits limits body ∧ body.length ≠ limits.fields)
  /-- With the images, what is accepted was recognized. -/
  recognized : policy.allowed = images → ∀ file, result = .ok file → file.contentType.isSome = true

end Spec

/-! ### One part -/

section Proofs

variable {nfc : Str → Str} {infer : Bytes → Option SniffedType} {limits : MultipartLimits} {policy : UploadPolicy}

/-- The multipart before a rest of the body, after `k` parts of `t` bytes. -/
def before (limits : MultipartLimits) (k t : ℕ) (rest : List Part) : BoundedMultipart :=
  ⟨rest.map Part.chunks, limits, ⟨k, min t Http.Multipart.u64Max⟩⟩

/-- The next parts keep to the bounds, after `k` parts of `t` bytes. -/
structure Room (limits : MultipartLimits) (k t : ℕ) (parts : List Part) : Prop where
  fields : k + parts.length ≤ limits.fields
  field : ∀ part ∈ parts, Fits limits.fieldBytes (partSize part.chunks)
  total : Fits limits.totalBytes (t + bodySize (parts.map Part.chunks))

theorem admits_iff {body : List Part} : Admits limits body ↔ Room limits 0 0 body := by
  constructor
  · intro h
    exact ⟨by simpa using h.fields, h.field, by simpa using h.total⟩
  · intro h
    exact ⟨by simpa using h.fields, h.field, by simpa using h.total⟩

theorem room_append {k t : ℕ} {parts rest : List Part} : Room limits k t (parts ++ rest) ↔
    Room limits k t parts ∧ Room limits (k + parts.length) (t + bodySize (parts.map Part.chunks)) rest := by
  have hsize : bodySize ((parts ++ rest).map Part.chunks) =
      bodySize (parts.map Part.chunks) + bodySize (rest.map Part.chunks) := by
    simp [bodySize]
  constructor
  · intro h
    obtain ⟨hfields, hfield, htotal⟩ := h
    rw [List.length_append] at hfields
    rw [List.forall_mem_append] at hfield
    rw [hsize, ← add_assoc] at htotal
    exact ⟨⟨by omega, hfield.1, htotal.mono (by omega)⟩, ⟨by omega, hfield.2, htotal⟩⟩
  · rintro ⟨hparts, hrest⟩
    refine ⟨?_, List.forall_mem_append.mpr ⟨hparts.field, hrest.field⟩, ?_⟩
    · have hfields := hrest.fields
      rw [List.length_append]
      omega
    · rw [hsize, ← add_assoc]
      exact hrest.total

theorem room_cons {k t : ℕ} {part : Part} {parts : List Part} : Room limits k t (part :: parts) ↔
    Room limits k t [part] ∧ Room limits (k + 1) (t + partSize part.chunks) parts := by
  have happend : Room limits k t ([part] ++ parts) ↔ _ := room_append
  simpa using happend

/-- A part is read to its end exactly where it keeps to the caps. -/
theorem fieldBytes_eq (part : List Bytes) {m : BoundedMultipart} {t : ℕ} (ht : Fits m.limits.totalBytes t) :
    (Fits m.limits.fieldBytes (partSize part) ∧ Fits m.limits.totalBytes (t + partSize part) →
      fieldBytes ⟨part, 0, m.counted t⟩ = .ok (part.flatten, m.counted (t + partSize part))) ∧
    (¬ (Fits m.limits.fieldBytes (partSize part) ∧ Fits m.limits.totalBytes (t + partSize part)) →
      ∃ e, fieldBytes ⟨part, 0, m.counted t⟩ = .error e) := by
  have hdrains := fieldDrains part (m := m) (a := 0) (t := t) (by simp [Fits]) ht
  rw [Nat.zero_min] at hdrains
  rw [fieldBytes]
  dsimp only
  generalize BoundedField.drain (part.length + 1) _ = result at hdrains ⊢
  cases hdrains with
  | all _ hf hft =>
    rw [zero_add] at hf
    exact ⟨fun _ => rfl, fun hnot => absurd ⟨hf, hft⟩ hnot⟩
  | @upTo pre post chunk e hf hft hrefuses =>
    refine ⟨?_, fun _ => ⟨e, rfl⟩⟩
    rintro ⟨hfield, htotal⟩
    rw [Http.Multipart.partSize_append, Http.Multipart.partSize_cons] at hfield htotal
    rw [zero_add] at hrefuses
    cases hrefuses with
    | field hnot => exact absurd (hfield.mono (by omega)) hnot
    | body _ hnot => exact absurd (htotal.mono (by omega)) hnot

variable (nfc infer) in
/-- One turn of the loop. -/
theorem extract_cons (part : Part) (parts : List Part) {k t : ℕ} (ht : Fits limits.totalBytes t) :
    (Room limits k t [part] → extract nfc infer policy (part :: parts) (before limits k t (part :: parts)) =
      match policy.takes part with
      | none => extract nfc infer policy parts (before limits (k + 1) (t + partSize part.chunks) parts)
      | some fileName => check nfc infer policy fileName part.bytes) ∧
    (¬ Room limits k t [part] →
      ∃ e, extract nfc infer policy (part :: parts) (before limits k t (part :: parts)) = .error (.multipart e)) := by
  have hroom : Room limits k t [part] ↔ k < limits.fields ∧ Fits limits.fieldBytes (partSize part.chunks) ∧
      Fits limits.totalBytes (t + partSize part.chunks) := by
    constructor
    · intro h
      exact ⟨h.fields, h.field part (by simp), by simpa using h.total⟩
    · rintro ⟨hlt, hfield, htotal⟩
      exact ⟨hlt, by simpa using hfield, by simpa using htotal⟩
  have hbytes := fieldBytes_eq part.chunks (m := ⟨parts.map Part.chunks, limits, ⟨k + 1, 0⟩⟩) ht
  rw [hroom, extract, BoundedMultipart.nextField]
  by_cases hfull : limits.fields ≤ k
  · refine ⟨fun h => absurd h.1 (not_lt.mpr hfull), fun _ => ⟨.tooManyFields limits.fields, ?_⟩⟩
    simp [before, hfull]
  · have hlt : k < limits.fields := not_le.mp hfull
    simp only [before, hfull, if_false, List.map_cons]
    by_cases hcaps : Fits limits.fieldBytes (partSize part.chunks) ∧ Fits limits.totalBytes (t + partSize part.chunks)
    · refine ⟨fun _ => ?_, fun hnot => absurd ⟨hlt, hcaps⟩ hnot⟩
      have hread := hbytes.1 hcaps
      simp only [BoundedMultipart.counted] at hread
      rw [hread]
      rfl
    · refine ⟨fun h => absurd h.2 hcaps, fun _ => ?_⟩
      obtain ⟨e, hread⟩ := hbytes.2 hcaps
      simp only [BoundedMultipart.counted] at hread
      rw [hread]
      exact ⟨e, rfl⟩

variable (nfc infer) in
/-- The parts that are not taken only count. -/
theorem extract_passed {passed : List Part} (hpassed : ∀ p ∈ passed, policy.takes p = none) (rest : List Part)
    {k t : ℕ} (hk : k ≤ limits.fields) (ht : Fits limits.totalBytes t) :
    (Room limits k t passed → extract nfc infer policy (passed ++ rest) (before limits k t (passed ++ rest)) =
      extract nfc infer policy rest
        (before limits (k + passed.length) (t + bodySize (passed.map Part.chunks)) rest)) ∧
    (¬ Room limits k t passed →
      ∃ e, extract nfc infer policy (passed ++ rest) (before limits k t (passed ++ rest)) = .error (.multipart e)) := by
  induction passed generalizing k t with
  | nil => exact ⟨fun _ => rfl, fun hnot => absurd ⟨by simpa using hk, by simp, by simpa using ht⟩ hnot⟩
  | cons part passed ih =>
    obtain ⟨hpart, hrest⟩ := List.forall_mem_cons.mp hpassed
    obtain ⟨hread, hrefused⟩ := extract_cons nfc infer part (passed ++ rest) ht
    rw [room_cons, List.cons_append]
    by_cases hroom : Room limits k t [part]
    · rw [hread hroom, hpart]
      have hlt := hroom.fields
      have hsize : Fits limits.totalBytes (t + partSize part.chunks) := by simpa using hroom.total
      obtain ⟨hall, hnot⟩ := ih hrest (k := k + 1) hlt hsize
      refine ⟨fun h => ?_, fun h => hnot fun hmore => h ⟨hroom, hmore⟩⟩
      rw [hall h.2]
      simp only [List.length_cons, List.map_cons, Http.Multipart.bodySize_cons]
      congr 2 <;> omega
    · exact ⟨fun h => absurd h.1 hroom, fun _ => hrefused hroom⟩

/-! ### A whole body -/

variable {body : List Part}

/-- A body has a first part that is taken, or none that is. -/
theorem takes_or (policy : UploadPolicy) (body : List Part) :
    (∃ passed part fileName, Takes policy body passed part fileName) ∨ ∀ part ∈ body, policy.takes part = none := by
  induction body with
  | nil => exact .inr (by simp)
  | cons p body ih =>
    cases hp : policy.takes p with
    | some fileName => exact .inl ⟨[], p, fileName, ⟨body, rfl⟩, by simp, hp⟩
    | none =>
      rcases ih with ⟨passed, part, fileName, hfirst, hpassed, htaken⟩ | hnone
      · refine .inl ⟨p :: passed, part, fileName, ?_, List.forall_mem_cons.mpr ⟨hp, hpassed⟩, htaken⟩
        exact List.prefix_cons_inj p |>.mpr hfirst
      · exact .inr (List.forall_mem_cons.mpr ⟨hp, hnone⟩)

theorem Takes.not_none {passed : List Part} {part : Part} {fileName : Str}
    (h : Takes policy body passed part fileName) : ¬ ∀ part ∈ body, policy.takes part = none := by
  intro hnone
  have htaken := h.taken
  rw [hnone part (h.first.subset (by simp))] at htaken
  cases htaken

/-- It is the only one. -/
theorem Takes.unique {passed passed' : List Part} {part part' : Part} {fileName fileName' : Str}
    (h : Takes policy body passed part fileName) (h' : Takes policy body passed' part' fileName') :
    passed = passed' ∧ part = part' ∧ fileName = fileName' := by
  -- neither stands among what the other has passed
  have hsame : passed ++ [part] = passed' ++ [part'] := by
    rcases List.prefix_or_prefix_of_prefix h.first h'.first with hle | hle
    · rcases List.prefix_concat_iff.mp hle with heq | hle
      · exact heq
      · have htaken := h.taken
        rw [h'.passed part (hle.subset (by simp))] at htaken
        cases htaken
    · rcases List.prefix_concat_iff.mp hle with heq | hle
      · exact heq.symm
      · have htaken := h'.taken
        rw [h.passed part' (hle.subset (by simp))] at htaken
        cases htaken
  obtain ⟨rfl, hpart⟩ := List.append_inj' hsame rfl
  obtain rfl := List.singleton_inj.mp hpart
  exact ⟨rfl, rfl, Option.some.inj (h.taken.symm.trans h'.taken)⟩

theorem check_eq_ok {fileName : Str} {bytes : Bytes} {file : UploadedFile infer} :
    check nfc infer policy fileName bytes = .ok file ↔
      SafeFilename.parse nfc fileName policy.allowed = .ok file.filename ∧ file.bytes = bytes := by
  obtain ⟨filename, contentType, bytes', hverified⟩ := file
  rw [check]
  cases hparse : SafeFilename.parse nfc fileName policy.allowed with
  | error e => simp
  | ok safe =>
    dsimp only
    constructor
    · intro h
      split at h
      · cases h
      · cases h
        exact ⟨rfl, rfl⟩
    · rintro ⟨⟨rfl⟩, rfl⟩
      split
      · next e he =>
        rw [hverified] at he
        cases he
      · next kind he =>
        obtain rfl := Except.ok.inj (hverified.symm.trans he)
        rfl

theorem check_eq_error {fileName : Str} {bytes : Bytes} {rejection : Rejection} :
    check nfc infer policy fileName bytes = .error rejection ↔
      (rejection = .upload "extension" "That filename or file type is not accepted here" ∧
        ∃ e, SafeFilename.parse nfc fileName policy.allowed = .error e) ∨
      (rejection = .upload "contents" "The file's contents do not match its file extension" ∧
        ∃ filename e, SafeFilename.parse nfc fileName policy.allowed = .ok filename ∧
          verify infer bytes filename.extension = .error e) := by
  rw [check]
  cases hparse : SafeFilename.parse nfc fileName policy.allowed with
  | error e => simp [eq_comm]
  | ok safe =>
    dsimp only
    split
    · next e he => simp [he, eq_comm]
    · next kind he => simp [he]

theorem before_zero (body : List Part) : before limits 0 0 body = .new (body.map Part.chunks) limits := by
  simp [before, BoundedMultipart.new]

/-- So it has what one of them has. -/
theorem Takes.exists_iff {passed : List Part} {part : Part} {fileName : Str}
    (h : Takes policy body passed part fileName) {Q : List Part → Part → Str → Prop} :
    (∃ passed part fileName, Takes policy body passed part fileName ∧ Q passed part fileName) ↔
      Q passed part fileName := by
  constructor
  · rintro ⟨passed', part', fileName', htakes, hQ⟩
    obtain ⟨rfl, rfl, rfl⟩ := h.unique htakes
    exact hQ
  · intro hQ
    exact ⟨passed, part, fileName, h, hQ⟩

theorem not_takes_of_none (h : ∀ part ∈ body, policy.takes part = none) {Q : List Part → Part → Str → Prop} :
    ¬ ∃ passed part fileName, Takes policy body passed part fileName ∧ Q passed part fileName := by
  rintro ⟨passed, part, fileName, htakes, -⟩
  exact htakes.not_none h

variable (nfc infer limits) in
/-- A body with a part that is taken. -/
theorem extract_taken {passed : List Part} {part : Part} {fileName : Str}
    (h : Takes policy body passed part fileName) :
    (Admits limits (passed ++ [part]) → extract nfc infer policy body (.new (body.map Part.chunks) limits) =
      check nfc infer policy fileName part.bytes) ∧
    (¬ Admits limits (passed ++ [part]) →
      ∃ e, extract nfc infer policy body (.new (body.map Part.chunks) limits) = .error (.multipart e)) := by
  obtain ⟨⟨rest, rfl⟩, hpassed, htaken⟩ := h
  have hzero : Fits limits.totalBytes 0 := by simp [Fits]
  obtain ⟨hall, hrefused⟩ := extract_passed nfc infer hpassed (part :: rest) (Nat.zero_le limits.fields) hzero
  rw [← before_zero, List.append_assoc, List.singleton_append, admits_iff, room_append]
  by_cases hroom : Room limits 0 0 passed
  · obtain ⟨hread, hpart⟩ := extract_cons nfc infer part rest (k := 0 + passed.length) hroom.total
    rw [hall hroom]
    rw [htaken] at hread
    exact ⟨fun h => hread h.2, fun hnot => hpart fun h => hnot ⟨hroom, h⟩⟩
  · exact ⟨fun h => absurd h.1 hroom, fun _ => hrefused hroom⟩

variable (nfc infer limits) in
/-- A body without one: the count is looked at once more at its end. -/
theorem extract_none (h : ∀ part ∈ body, policy.takes part = none) :
    (Admits limits body ∧ body.length ≠ limits.fields →
      extract nfc infer policy body (.new (body.map Part.chunks) limits) =
        .error (.upload "missing" "No file was uploaded")) ∧
    (¬ (Admits limits body ∧ body.length ≠ limits.fields) →
      ∃ e, extract nfc infer policy body (.new (body.map Part.chunks) limits) = .error (.multipart e)) := by
  have hzero : Fits limits.totalBytes 0 := by simp [Fits]
  obtain ⟨hall, hrefused⟩ := extract_passed nfc infer h [] (Nat.zero_le limits.fields) hzero
  rw [List.append_nil, before_zero] at hall hrefused
  rw [admits_iff]
  by_cases hroom : Room limits 0 0 body
  · have hfields := hroom.fields
    rw [hall hroom, extract, BoundedMultipart.nextField]
    by_cases hfull : body.length = limits.fields
    · refine ⟨fun hc => absurd hfull hc.2, fun _ => ⟨.tooManyFields limits.fields, ?_⟩⟩
      simp [before, hfull]
    · have hlt : ¬ limits.fields ≤ body.length := by omega
      refine ⟨fun _ => ?_, fun hnot => absurd ⟨hroom, hfull⟩ hnot⟩
      simp [before, hlt]
  · exact ⟨fun hc => absurd hc.1 hroom, fun _ => hrefused hroom⟩

/-- An image says what it is. -/
theorem isSome_of_images {extension : Extension} (h : extension ∈ images) :
    (expectedSignatures extension).isSome = true := by
  have hall : ∀ e ∈ images, (expectedSignatures e).isSome = true := by decide
  exact hall extension h

/-- Every body, under any limits and any policy. -/
theorem extracted (nfc : Str → Str) (infer : Bytes → Option SniffedType) (limits : Option MultipartLimits)
    (policy : Option UploadPolicy) (body : List Part) :
    Extracted nfc infer (limits.getD .new) (policy.getD (.new images)) body
      (fromRequest nfc infer limits policy body) := by
  rw [fromRequest]
  generalize limits.getD .new = limits, policy.getD (.new images) = policy
  rcases takes_or policy body with ⟨passed, part, fileName, htakes⟩ | hnone
  · obtain ⟨hadmitted, hrefused⟩ := extract_taken nfc infer limits htakes
    have hsome := htakes.not_none
    by_cases hadmits : Admits limits (passed ++ [part])
    · rw [hadmitted hadmits]
      constructor
      · intro file
        refine Iff.trans ?_ htakes.exists_iff.symm
        simp [check_eq_ok, hadmits]
      · refine Iff.trans ?_ htakes.exists_iff.symm
        simp [check_eq_error, hadmits]
      · refine Iff.trans ?_ htakes.exists_iff.symm
        simp [check_eq_error, hadmits]
      · simp [check_eq_error, hsome]
      · refine iff_of_false (by simp [check_eq_error]) ?_
        rintro (hrefused | ⟨hnone, -⟩)
        · exact htakes.exists_iff.mp hrefused hadmits
        · exact hsome hnone
      · intro himages file hfile
        obtain ⟨hparse, -⟩ := check_eq_ok.mp hfile
        obtain ⟨_, hprepare, -⟩ := parse_eq_ok.mp hparse
        obtain ⟨_, _, -, hsplit, -⟩ := prepare_eq_ok.mp hprepare
        have hallowed := (splitExtension_eq_ok.mp hsplit).2.1
        have hsignature := isSome_of_images (himages ▸ hallowed)
        rw [Option.isSome_iff_ne_none] at hsignature ⊢
        exact fun hkind => hsignature ((verify_eq_ok infer file.verified).2.mp hkind)
    · obtain ⟨e, he⟩ := hrefused hadmits
      rw [he]
      constructor
      · intro file
        refine Iff.trans ?_ htakes.exists_iff.symm
        simp [hadmits]
      · refine Iff.trans ?_ htakes.exists_iff.symm
        simp [hadmits]
      · refine Iff.trans ?_ htakes.exists_iff.symm
        simp [hadmits]
      · simp [hsome]
      · exact iff_of_true ⟨e, rfl⟩ (.inl (htakes.exists_iff.mpr hadmits))
      · simp
  · obtain ⟨hend, hrefused⟩ := extract_none nfc infer limits hnone
    have hnever : ∀ Q : List Part → Part → Str → Prop,
        ¬ ∃ passed part fileName, Takes policy body passed part fileName ∧ Q passed part fileName :=
      fun Q => not_takes_of_none hnone
    by_cases hadmits : Admits limits body ∧ body.length ≠ limits.fields
    · rw [hend hadmits]
      exact ⟨fun file => iff_of_false (by simp) (hnever _), iff_of_false (by simp) (hnever _),
        iff_of_false (by simp) (hnever _), iff_of_true rfl ⟨hnone, hadmits⟩,
        iff_of_false (by simp) fun h => h.elim (hnever _) fun h => h.2 hadmits, by simp⟩
    · obtain ⟨e, he⟩ := hrefused hadmits
      rw [he]
      exact ⟨fun file => iff_of_false (by simp) (hnever _), iff_of_false (by simp) (hnever _),
        iff_of_false (by simp) (hnever _), iff_of_false (by simp) fun h => hadmits h.2,
        iff_of_true ⟨e, rfl⟩ (.inr ⟨hnone, hadmits⟩), by simp⟩

end Proofs

/-! ### On the disk -/

section Store

open Arcature.Storage.Uploads

variable {infer : Bytes → Option SniffedType} {ε : Type}

/-- `UploadedFile::write`: one write, and then the finish or, where it failed, the abort. -/
def UploadedFile.handler (file : UploadedFile infer) : Handler ε
  | [] => .write file.bytes
  | [(_, none)] => .finishVerified file.filename.extension
  | _ => .abort

/-- What `write` makes of the last result. A write that failed is what it reports, however the abort went. -/
def writeAnswer : List (Bytes × Option ε) → Except (UploadError ε) (Option ContentAddress) →
    Option (Except (UploadError ε) ContentAddress)
  | [(_, some e)], _ => some (.error (.storage (.backend e)))
  | _, .ok address => address.map .ok
  | _, .error e => some (.error e)

/-- What `store` and `store_under` answer. -/
def storeAnswer : Stage ε → Option (Except (UploadError ε) ContentAddress)
  | .refused e => some (.error (.storage (.path e)))
  | .returned f result => writeAnswer f.calls result
  | _ => none

section Spec

variable (sha : Sha256) (pid : ℕ) (notFound : ε)

/-- What becomes of a file that is stored, at its place in a schedule. -/
structure Stored (file : UploadedFile infer) (es : List (Turn (Entry ε) (Chance ε))) (n : ℕ) (stage : Stage ε) :
    Prop where
  /-- The second check finds nothing that the first has not. -/
  checked : ∀ e, storeAnswer stage ≠ some (.error (.content e))
  /-- The address is that of the bytes, and there is an object under it until somebody deletes it. -/
  answered : ∀ address, storeAnswer stage = some (.ok address) →
    address = .of sha file.bytes file.filename.extension ∧ ∃ f destination, stage.flight = some f ∧
      (f.writer sha pid).destination address = .ok destination ∧
        ∃ i, (uploads sha pid infer notFound).tasks.Fires es i (fun s e => Finds f destination.key s e ∨
            ∃ bytes, Renames pid f file.filename.extension destination.key bytes s e) ∧
          ((∀ j, i < j → ¬ (uploads sha pid infer notFound).tasks.Fires es j (Sets destination.key none)) →
            (((uploads sha pid infer notFound).tasks.run es).memory.disk destination.key).isSome = true)
  /-- What is put there are the bytes, and never after the write has failed. -/
  renamed : ∀ i x f extension key bytes,
    (uploads sha pid infer notFound).tasks.Fires es i
        (fun s e => e = .step n x ∧ Renames pid f extension key bytes s e) →
      f.calls = [(file.bytes, none)] ∧ extension = file.filename.extension ∧
        (Apart pid es f → bytes = file.bytes ∧ hexLower (sha.digest file.bytes).val = nameIn key)
  /-- Nothing is left behind where it was answered, or where the abort was after a write that failed. -/
  cleared : ∀ f address, stage = .returned f (.ok address) → Apart pid es f →
    ((uploads sha pid infer notFound).tasks.run es).memory.disk (f.staging pid).key = none
  failed : ∀ f e, stage.flight = some f → f.calls = [(file.bytes, some e)] → ∀ answer, storeAnswer stage = some answer →
    answer = .error (.storage (.backend e))

end Spec

variable {sha : Sha256} {pid : ℕ} {notFound : ε} {file : UploadedFile infer}

/-- Nothing was written yet, or the bytes of the file once. -/
def Written (file : UploadedFile infer) (f : Flight ε) : Prop :=
  f.calls = [] ∨ ∃ fault, f.calls = [(file.bytes, fault)]

variable (sha pid) in
/-- Where the upload of a file may be. -/
def Along (file : UploadedFile infer) : Stage ε → Prop
  | .entering _ | .refused _ => True
  | .writing f | .dropped f | .returned f (.error (.storage _)) => Written file f
  | .looking f extension _ | .removing f extension _ | .moving f extension _ =>
    f.calls = [(file.bytes, none)] ∧ extension = file.filename.extension
  | .returned f (.ok (some address)) =>
    f.calls = [(file.bytes, none)] ∧ address = f.address sha pid file.filename.extension
  | .returned f (.ok none) => ∃ e, f.calls = [(file.bytes, some e)]
  | .returned _ (.error (.content _)) => False

theorem along_lead {fate : Fate ε} {f : Flight ε} {next : Stage ε} (hwritten : Written file f)
    (h : Along sha pid file next) : Along sha pid file (fate.lead f next) := by
  cases fate with
  | answered => exact h
  | failed e => exact hwritten
  | cancelled => exact hwritten

/-- The check looks at the first bytes only. -/
theorem verify_take (bytes : Bytes) (extension : Extension) :
    verify infer (bytes.take sniffBytes) extension = verify infer bytes extension := by
  rw [verify, verify, sniff, sniff, List.take_take, min_self]

theorem along_advance (s : Shelf) (x : Chance ε) {stage : Stage ε} (h : Along sha pid file stage) :
    Along sha pid file (advance sha pid infer notFound file.handler s x stage).2 := by
  have hdiscard : ∀ f : Flight ε, (∃ e, f.calls = [(file.bytes, some e)]) →
      Along sha pid file (discard pid s f x none).2 := by
    rintro f ⟨e, he⟩
    exact along_lead (.inr ⟨some e, he⟩) ⟨e, he⟩
  cases stage with
  | entering parent =>
    rw [advance]
    split
    · trivial
    · exact along_lead (.inl rfl) (.inl rfl)
  | refused e => trivial
  | writing f =>
    rw [advance]
    rcases h with hnone | ⟨fault, hcalls⟩
    · rw [hnone, UploadedFile.handler, call]
      have hwrote : ∀ fault, Written file (f.wrote file.bytes fault) := fun fault =>
        .inr ⟨fault, by rw [Flight.wrote, hnone, List.nil_append]⟩
      cases x.fate with
      | answered => exact hwrote none
      | failed e => exact hwrote (some e)
      | cancelled => exact .inl hnone
    · cases fault with
      | some e =>
        rw [hcalls]
        exact hdiscard f ⟨e, hcalls⟩
      | none =>
        have hhead : (f.writer sha pid).head = file.bytes.take sniffBytes := by
          rw [writer_eq, hcalls]
          simp [fed]
        rw [hcalls, UploadedFile.handler, call, hhead, verify_take, file.verified]
        refine along_lead (.inr ⟨none, hcalls⟩) ?_
        split
        · exact .inr ⟨none, hcalls⟩
        · exact ⟨hcalls, rfl⟩
  | looking f extension destination =>
    refine along_lead (.inr ⟨none, h.1⟩) ?_
    split_ifs
    · exact h
    · exact h
  | removing f extension destination =>
    obtain ⟨hcalls, rfl⟩ := h
    exact along_lead (.inr ⟨none, hcalls⟩) ⟨hcalls, rfl⟩
  | moving f extension destination =>
    obtain ⟨hcalls, rfl⟩ := h
    exact along_lead (.inr ⟨none, hcalls⟩) ⟨hcalls, rfl⟩
  | returned f result => exact h
  | dropped f => exact h

variable {es : List (Turn (Entry ε) (Chance ε))} {n : ℕ} {stage : Stage ε}

/-- Whatever the schedule. -/
theorem along_run
    (h : ((uploads sha pid infer notFound).tasks.run es).places[n]? = some (.upload file.handler stage)) :
    Along sha pid file stage := by
  induction es using List.reverseRecOn generalizing stage with
  | nil => simp at h
  | append_singleton es e ih =>
    rw [Machine.run_concat, Program.next_tasks] at h
    rcases Program.of_getElem?_turn _ h with ⟨-, hsame⟩ | ⟨a, -, -, hstart⟩ | ⟨x, place, -, hthere, hstep⟩
    · exact ih hsame
    · cases a with
      | other key value => cases hstart
      | upload handler parent =>
        obtain ⟨-, rfl⟩ := Place.upload.inj hstart
        trivial
    · cases place with
      | other key value done => cases done <;> cases hstep
      | upload handler stage' =>
        obtain ⟨rfl, rfl⟩ := Place.upload.inj hstep
        exact along_advance _ x (ih hthere)

/-- A place keeps its handler. -/
theorem handler_take {i : ℕ} {handler handler' : Handler ε} {stage' : Stage ε}
    (h : ((uploads sha pid infer notFound).tasks.run (es.take i)).places[n]? = some (.upload handler stage'))
    (hlast : ((uploads sha pid infer notFound).tasks.run es).places[n]? = some (.upload handler' stage)) :
    handler = handler' := by
  obtain ⟨-, place, hplace, hsame⟩ := Program.rel_places (K := fun _ => True)
    (R := fun place place' : Place ε => ∀ h stage, place = .upload h stage → ∃ stage', place' = .upload h stage')
    (fun _ h stage hplace => ⟨stage, hplace⟩)
    (fun hab hbc h stage ha => by
      obtain ⟨stage', hb⟩ := hab h stage ha
      exact hbc h stage' hb)
    (fun _ _ _ => trivial)
    (fun s _ place x _ _ h stage hstage => by
      subst hstage
      exact ⟨_, rfl⟩)
    trivial h (es.drop i)
  rw [List.take_append_drop, hlast] at hplace
  obtain ⟨stage'', hthere⟩ := hsame handler stage' rfl
  rw [← Option.some.inj hplace] at hthere
  exact (Place.upload.inj hthere).1.symm

theorem address_of_written {f : Flight ε} (h : f.calls = [(file.bytes, none)]) :
    f.address sha pid file.filename.extension = .of sha file.bytes file.filename.extension := by
  have hof : ContentAddress.of sha file.bytes file.filename.extension =
      .ofDigest (sha.digest [file.bytes].flatten) (min [file.bytes].flatten.length u64Max) file.filename.extension :=
    finish_foldl_update [file.bytes] file.filename.extension
  rw [hof, address_eq, h]
  simp [fed]

/-- An address is what the finish answered, and an error is the backend's or the prefix's. -/
theorem storeAnswer_cases (h : Along sha pid file stage) {answer : Except (UploadError ε) ContentAddress}
    (hanswer : storeAnswer stage = some answer) :
    (∃ f address, stage = .returned f (.ok (some address)) ∧ answer = .ok address) ∨
      ∃ e, answer = .error (.storage e) := by
  cases stage with
  | refused e =>
    cases hanswer
    exact .inr ⟨_, rfl⟩
  | returned f result =>
    cases result with
    | ok address =>
      cases address with
      | some address =>
        rw [storeAnswer, h.1] at hanswer
        cases hanswer
        exact .inl ⟨f, address, rfl, rfl⟩
      | none =>
        obtain ⟨e, he⟩ := h
        rw [storeAnswer, he] at hanswer
        cases hanswer
        exact .inr ⟨_, rfl⟩
    | error e =>
      cases e with
      | content e => exact h.elim
      | storage e =>
        rcases h with hcalls | ⟨fault, hcalls⟩
        · rw [storeAnswer, hcalls] at hanswer
          cases hanswer
          exact .inr ⟨e, rfl⟩
        · rw [storeAnswer, hcalls] at hanswer
          cases fault <;> cases hanswer <;> exact .inr ⟨_, rfl⟩
  | _ => cases hanswer

end Store

open Arcature.Storage.Uploads in
/-- Between any number of other uploads, and whatever becomes of its requests. -/
theorem stored (sha : Sha256) (pid : ℕ) {infer : Bytes → Option SniffedType} {ε : Type} (notFound : ε)
    (file : UploadedFile infer) (es : List (Turn (Entry ε) (Chance ε))) (hroom : es.length ≤ 2 ^ 64) (n : ℕ)
    (stage : Stage ε)
    (h : ((uploads sha pid infer notFound).tasks.run es).places[n]? = some (.upload file.handler stage)) :
    Stored sha pid notFound file es n stage where
  checked e hanswer := by
    rcases storeAnswer_cases (along_run h) hanswer with ⟨_, _, -, hok⟩ | ⟨_, herror⟩
    · cases hok
    · cases herror
  answered address hanswer := by
    rcases storeAnswer_cases (along_run h) hanswer with ⟨f, address', rfl, hok⟩ | ⟨_, herror⟩
    · cases hok
      obtain ⟨hcalls, haddress⟩ := along_run h
      obtain ⟨extension, destination, haddress', hdestination, i, hfires⟩ := told_run h
      have hextension : extension = file.filename.extension := by
        have hsame := congrArg ContentAddress.extension (haddress'.symm.trans haddress)
        rwa [address_eq, address_eq] at hsame
      subst hextension
      exact ⟨haddress.trans (address_of_written hcalls), f, destination, rfl, hdestination, i, hfires,
        isSome_run (fun nanos counter => destination_ne_staging hdestination pid nanos counter) hfires⟩
    · cases herror
  renamed i x f extension key bytes hfires := by
    obtain ⟨e, he, rfl, m, y, handler, destination, hstep, hplace, rfl, hobject, hrenames⟩ := hfires
    obtain ⟨rfl, rfl⟩ := Turn.step.inj hstep
    obtain rfl := handler_take hplace h
    obtain ⟨hcalls, rfl⟩ := along_run hplace
    refine ⟨hcalls, rfl, fun hapart => ?_⟩
    have hstaged := staged_run sha pid infer notFound ((List.length_take_le' i es).trans hroom)
      fun value hmem => hapart value (List.mem_of_mem_take hmem)
    have hleaves : _ = some (kept f.calls) := hstaged.leaves n _ _ f hplace rfl rfl
    have hdestination : (f.writer sha pid).destination (f.address sha pid file.filename.extension) = .ok destination :=
      told_run hplace
    rw [hobject, hcalls] at hleaves
    obtain rfl := Option.some.inj hleaves
    refine ⟨by simp [kept], ?_⟩
    rw [nameIn_destination hdestination, address_eq, hcalls]
    simp [fed, ContentAddress.ofDigest]
  cleared f address hstage hapart := by
    subst hstage
    exact (staged_run sha pid infer notFound hroom hapart).leaves n _ _ f h rfl rfl
  failed f e hflight hcalls answer hanswer := by
    cases stage with
    | returned g result =>
      obtain rfl := Option.some.inj hflight
      rw [storeAnswer, hcalls] at hanswer
      exact (Option.some.inj hanswer).symm
    | refused e => cases hflight
    | _ => cases hanswer

/-- A picture. -/
def picture : UploadedFile fun _ => some ⟨"jpg".toList, "image/jpeg".toList⟩ where
  filename := ⟨"me".toList, jpg⟩
  contentType := some ⟨"jpg".toList, "image/jpeg".toList⟩
  bytes := [255, 216, 255]
  verified := by decide

open Arcature.Storage.Uploads in
/-- It is stored while somebody else sets a key. -/
theorem stored_picture :
    let x : Chance Unit := ⟨0, none, .answered, false⟩
    let es : List (Turn (Entry Unit) (Chance Unit)) := [.spawn (.upload picture.handler none),
      .spawn (.other "notes".toList (some [1])), .step 0 x, .step 0 x, .step 1 x, .step 0 x, .step 0 x, .step 0 x]
    ∃ stage, ((uploads forgetful 1 (fun _ => some ⟨"jpg".toList, "image/jpeg".toList⟩) ()).tasks.run es).places[0]? =
        some (.upload picture.handler stage) ∧
      (∃ address, storeAnswer stage = some (.ok address)) ∧ Stored forgetful 1 () picture es 0 stage :=
  ⟨_, rfl, ⟨_, rfl⟩, stored forgetful 1 () picture _ (by decide) 0 _ rfl⟩

end Arcature.Validation

import Arcature.Storage.Filename

/-! What an object's leading bytes say it is (`storage/sniff.rs`).

    The signatures themselves are `infer`'s, a function of the first `SNIFF_BYTES`; this module holds
    an extension to them: one with a signature must sniff to it, one without to nothing. -/

namespace Arcature.Storage
open Arcature.Lib

/-- `SNIFF_BYTES`. -/
def sniffBytes : ℕ := 512

/-- `SniffedType`. -/
structure SniffedType where
  extension : Str
  mime : Str
  deriving DecidableEq

/-- `SniffError`. -/
inductive SniffError where
  | unrecognized (declared : Extension)
  | mismatch (declared : Extension) (sniffed : Str)
  deriving DecidableEq

/-- `SIGNATURES`. -/
def signatures : List (Str × List Str) :=
  [("jpg", ["jpg"]), ("jpeg", ["jpg"]), ("png", ["png"]), ("gif", ["gif"]), ("webp", ["webp"]),
    ("bmp", ["bmp"]), ("ico", ["ico"]), ("tif", ["tif"]), ("tiff", ["tif"]), ("avif", ["avif"]),
    ("heic", ["heic"]), ("psd", ["psd"]),
    -- documents
    ("pdf", ["pdf"]), ("epub", ["epub"]), ("rtf", ["rtf"]), ("docx", ["docx", "zip"]),
    ("xlsx", ["xlsx", "zip"]), ("pptx", ["pptx", "zip"]),
    -- archives
    ("zip", ["zip"]), ("gz", ["gz"]), ("bz2", ["bz2"]), ("xz", ["xz"]), ("zst", ["zst"]), ("7z", ["7z"]),
    ("rar", ["rar"]),
    -- audio and video
    ("mp3", ["mp3"]), ("wav", ["wav"]), ("flac", ["flac"]), ("ogg", ["ogg"]), ("mp4", ["mp4"]),
    ("m4a", ["m4a"]), ("webm", ["webm"]), ("mov", ["mov"]), ("avi", ["avi"]),
    -- fonts
    ("woff", ["woff"]), ("woff2", ["woff2"]), ("ttf", ["ttf"]), ("otf", ["otf"])].map
    fun (name, expected) => (name.toList, expected.map String.toList)

/-- `expected_signatures`. -/
def expectedSignatures (extension : Extension) : Option (List Str) := signatures.lookup extension.str

section Infer

variable (infer : Bytes → Option SniffedType)

/-- `sniff`. -/
def sniff (bytes : Bytes) : Option SniffedType := infer (bytes.take sniffBytes)

/-- `verify`. -/
def verify (bytes : Bytes) (extension : Extension) : Except SniffError (Option SniffedType) :=
  match expectedSignatures extension, sniff infer bytes with
  | some expected, some found =>
    if found.extension ∈ expected then .ok (some found) else .error (.mismatch extension found.mime)
  | some _, none => .error (.unrecognized extension)
  | none, none => .ok none
  | none, some found => .error (.mismatch extension found.mime)

/-- An extension without a signature is only accepted with bytes that have none. -/
theorem verify_eq_ok {bytes : Bytes} {extension : Extension} {kind : Option SniffedType}
    (h : verify infer bytes extension = .ok kind) :
    kind = sniff infer bytes ∧ (kind = none ↔ expectedSignatures extension = none) := by
  rw [verify] at h
  cases hexpected : expectedSignatures extension <;> cases hsniff : sniff infer bytes <;>
    simp only [hexpected, hsniff] at h
  · cases h
    simp
  · cases h
  · cases h
  · split_ifs at h
    cases h
    simp

end Infer

end Arcature.Storage

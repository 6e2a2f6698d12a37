import Arcature.Lib.Disposition
import Arcature.Lib.HeaderMap
import Arcature.Storage.Path
import Arcature.Storage.Sniff

/-! Stored objects on their way out (`http/download.rs`).

    An `Attachment` is built from bytes or off a disk, relabelled any number of times, and answered:

        from_bytes, from_disk ──▶ media_type (sniff head)      scriptable types become bytes
        with_content_type     ──▶ the mime of a SniffedType    and here they do not
        into_response         ──▶ Content-Type, Content-Disposition, ..

    The suggested name goes out as `filename=` in ASCII, and a second time as `filename*=` when that
    lost something. A recipient gets back the name that was sanitized (`fileName_recovered`). -/

namespace Arcature.Http
open Arcature.Lib Arcature.Storage

/-- `OCTET_STREAM`. -/
def octetStream : Str := "application/octet-stream".toList

/-- `DOWNLOAD_CSP`. -/
def downloadCsp : Str := "default-src 'none'; sandbox".toList

/-- `NO_SNIFF`. -/
def noSniff : Str := "nosniff".toList

/-- `SCRIPTABLE`. -/
def scriptable : List Str :=
  ["text/html", "application/xhtml+xml", "image/svg+xml", "text/xml", "application/xml"].map String.toList

/-- `media_type`. -/
def mediaType (sniffed : Option SniffedType) : Str :=
  match sniffed.map SniffedType.mime with
  | none => octetStream
  | some mime => if mime ∈ scriptable then octetStream else mime

/-! ### The suggested name -/

/-- `ascii_fallback`. -/
def asciiFallback (filename : Str) : Str :=
  filename.map fun c =>
    if c = '"' ∨ c = '\\' then '_' else if (0x21 ≤ c.toNat ∧ c.toNat ≤ 0x7e) ∨ c = ' ' then c else '_'

/-- The bytes that `rfc5987_encode` leaves alone. -/
def isUnescaped (b : UInt8) : Bool :=
  (Char.ofNat b.toNat).isAlphanum || "!#$&+-.^_`|~".toList.contains (Char.ofNat b.toNat)

/-- `rfc5987_encode`. -/
def rfc5987Encode (filename : Str) : Str := percentEncodeExcept isUnescaped filename.bytes

/-- `content_disposition`. -/
def contentDisposition : Option Str → Str
  | none => "attachment".toList
  | some filename =>
    "attachment; filename=\"".toList ++ asciiFallback filename ++ ['"'] ++
      if filename.all fun c => c.toNat < 0x80 then [] else "; filename*=UTF-8''".toList ++ rfc5987Encode filename

/-! ### The response -/

/-- `Attachment`. -/
structure Attachment where
  body : Bytes
  contentType : Str
  contentLength : Option ℕ
  filename : Option Str
  deriving DecidableEq

/-- A response. -/
structure Response where
  status : ℕ
  headers : HeaderMap Str
  body : Bytes
  deriving DecidableEq

/-- What a disk answers about one object: its size, and the bytes of a range and of the rest. -/
structure DiskObject (ε : Type) where
  stat : Except ε ℕ
  reader : Except ε Unit
  read : ℕ → ℕ → Except ε Bytes
  stream : ℕ → Except ε Bytes

/-- `HeaderValue::try_from`. -/
def headerValue (value : Str) : Option Str :=
  if value.bytes.all fun b => (0x20 ≤ b && b != 0x7f) || b == 0x09 then some value else none

namespace Attachment

variable (infer : Bytes → Option SniffedType)

/-- `from_bytes`. -/
def fromBytes (bytes : Bytes) : Attachment :=
  { body := bytes
    contentType := mediaType (sniff infer bytes)
    contentLength := some bytes.length
    filename := none }

/-- `from_disk`. An object inside the sniff window has no tail to ask for. -/
def fromDisk {ε : Type} (object : DiskObject ε) : Except ε Attachment := do
  let length ← object.stat
  object.reader
  let head ← object.read 0 (min length sniffBytes)
  let tail ← if length ≤ head.length then .ok [] else object.stream head.length
  .ok
    { body := head ++ tail
      contentType := mediaType (sniff infer head)
      contentLength := some length
      filename := none }

/-- `with_filename`. -/
def withFilename (attachment : Attachment) (filename : SafeFilename) : Attachment :=
  { attachment with filename := some filename.toStr }

/-- `with_content_type`. -/
def withContentType (attachment : Attachment) (sniffed : SniffedType) : Attachment :=
  { attachment with contentType := sniffed.mime }

/-- `into_response`. -/
def intoResponse (attachment : Attachment) : Response :=
  let headers : HeaderMap Str := []
  let headers := headers.insert "content-type".toList attachment.contentType
  let headers := headers.insert "x-content-type-options".toList noSniff
  let headers := headers.insert "content-security-policy".toList downloadCsp
  let disposition := (headerValue (contentDisposition attachment.filename)).getD "attachment".toList
  let headers := headers.insert "content-disposition".toList disposition
  let headers :=
    match attachment.contentLength.bind fun length => headerValue (Nat.toDigits 10 length) with
    | some length => headers.insert "content-length".toList length
    | none => headers
  { status := 200, headers, body := attachment.body }

end Attachment

/-! ### The content type -/

/-- One call of the builder. -/
inductive Relabel where
  | filename (filename : SafeFilename)
  | contentType (sniffed : SniffedType)

/-- What a call makes of an attachment. -/
def Attachment.relabel (attachment : Attachment) : Relabel → Attachment
  | .filename filename => attachment.withFilename filename
  | .contentType sniffed => attachment.withContentType sniffed

/-- The type given last, if one was given. -/
def lastType (calls : List Relabel) : Option SniffedType :=
  calls.foldl (fun last call => match call with
    | .filename _ => last
    | .contentType sniffed => some sniffed) none

/-- The response has no scriptable type. -/
def Unscriptable (attachment : Attachment) : Prop :=
  ∀ value ∈ attachment.intoResponse.headers.getAll "content-type".toList, value ∉ scriptable

theorem mediaType_notMem (sniffed : Option SniffedType) : mediaType sniffed ∉ scriptable := by
  rw [mediaType]
  cases sniffed.map SniffedType.mime with
  | none => decide
  | some mime =>
    dsimp only
    split_ifs with hmime
    · decide
    · exact hmime

theorem contentType_fromBytes (infer : Bytes → Option SniffedType) (bytes : Bytes) :
    (Attachment.fromBytes infer bytes).contentType ∉ scriptable := mediaType_notMem (sniff infer bytes)

theorem contentType_intoResponse (attachment : Attachment) :
    attachment.intoResponse.headers.getAll "content-type".toList = [attachment.contentType] := by
  have hnosniff : ¬ "x-content-type-options".toList = "content-type".toList := by decide
  have hcsp : ¬ "content-security-policy".toList = "content-type".toList := by decide
  have hdisposition : ¬ "content-disposition".toList = "content-type".toList := by decide
  have hlength : ¬ "content-length".toList = "content-type".toList := by decide
  rw [Attachment.intoResponse]
  dsimp only
  split <;>
    simp only [HeaderMap.getAll_insert, if_neg hlength, if_neg hdisposition, if_neg hcsp, if_neg hnosniff, if_true]

/-- The calls behind the last `with_content_type` leave the type alone. -/
theorem contentType_relabel (attachment : Attachment) (calls : List Relabel) :
    (calls.foldl Attachment.relabel attachment).contentType =
      ((lastType calls).map SniffedType.mime).getD attachment.contentType := by
  induction calls using List.reverseRecOn with
  | nil => rfl
  | append_singleton calls call ih =>
    rw [List.foldl_append, List.foldl_cons, List.foldl_nil, lastType, List.foldl_append, ← lastType]
    cases call with
    | filename filename => exact ih
    | contentType sniffed => rfl

/-- What is built from bytes or off a disk is filtered. -/
theorem contentType_fromDisk {infer : Bytes → Option SniffedType} {ε : Type} {object : DiskObject ε}
    {attachment : Attachment} (h : Attachment.fromDisk infer object = .ok attachment) :
    ∃ head, attachment.contentType = mediaType (sniff infer head) := by
  rw [Attachment.fromDisk] at h
  cases hstat : object.stat with
  | error e => simp [hstat, bind, Except.bind] at h
  | ok length =>
    cases hreader : object.reader with
    | error e => simp [hstat, hreader, bind, Except.bind] at h
    | ok opened =>
      cases hread : object.read 0 (min length sniffBytes) with
      | error e => simp [hstat, hreader, hread, bind, Except.bind] at h
      | ok head =>
        simp only [hstat, hreader, hread, bind, Except.bind] at h
        split_ifs at h with hshort
        · cases h
          exact ⟨head, rfl⟩
        · cases hstream : object.stream head.length with
          | error e => simp [hstream] at h
          | ok tail =>
            rw [hstream] at h
            cases h
            exact ⟨head, rfl⟩

theorem unscriptable_relabel {attachment : Attachment} (h : attachment.contentType ∉ scriptable)
    (calls : List Relabel) :
    Unscriptable (calls.foldl Attachment.relabel attachment) ↔
      ∀ sniffed, lastType calls = some sniffed → sniffed.mime ∉ scriptable := by
  rw [Unscriptable, contentType_intoResponse, contentType_relabel]
  cases lastType calls with
  | none => simpa using h
  | some sniffed => simp

/-- A download has no scriptable type exactly if the type it was given last is none: the filter is on the
    ways in, and not on `with_content_type`. -/
theorem unscriptable_iff (infer : Bytes → Option SniffedType) (calls : List Relabel) :
    (∀ bytes, Unscriptable (calls.foldl Attachment.relabel (.fromBytes infer bytes)) ↔
      ∀ sniffed, lastType calls = some sniffed → sniffed.mime ∉ scriptable) ∧
    ∀ (ε : Type) (object : DiskObject ε) (attachment : Attachment),
      Attachment.fromDisk infer object = .ok attachment →
      (Unscriptable (calls.foldl Attachment.relabel attachment) ↔
        ∀ sniffed, lastType calls = some sniffed → sniffed.mime ∉ scriptable) := by
  refine ⟨fun bytes => unscriptable_relabel (contentType_fromBytes infer bytes) calls, fun ε object attachment h => ?_⟩
  obtain ⟨head, hhead⟩ := contentType_fromDisk h
  exact unscriptable_relabel (hhead ▸ mediaType_notMem _) calls

/-- The signature of an HTML document, as far as the example below needs it. -/
def inferHtml (bytes : Bytes) : Option SniffedType :=
  if (Str.bytes "<html>".toList).isPrefixOf bytes then some ⟨"html".toList, "text/html".toList⟩ else none

/-- The type that `sniff` returned for an HTML document goes out as it is. -/
theorem html_forwarded :
    ¬ ∀ (infer : Bytes → Option SniffedType) (bytes : Bytes) (calls : List Relabel),
      (∀ sniffed, .contentType sniffed ∈ calls → ∃ head, sniff infer head = some sniffed) →
      Unscriptable (calls.foldl Attachment.relabel (.fromBytes infer bytes)) := by
  intro hnever
  let html : SniffedType := ⟨"html".toList, "text/html".toList⟩
  have hsniff : sniff inferHtml (Str.bytes "<html>".toList) = some html := by decide +kernel
  have hcalls : ∀ sniffed, Relabel.contentType sniffed ∈ [Relabel.contentType html] →
      ∃ head, sniff inferHtml head = some sniffed := by
    intro sniffed hmem
    cases List.mem_singleton.mp hmem
    exact ⟨_, hsniff⟩
  have hbad := hnever inferHtml (Str.bytes "<html>".toList) [.contentType html] hcalls
  exact (unscriptable_relabel (contentType_fromBytes _ _) _).mp hbad html rfl (by decide)

/-! ### The name that comes back -/

theorem isAscii_of_all {s : Str} (h : (s.all fun c => decide (c.toNat < 0x80)) = true) : ∀ c ∈ s, c.toNat < 0x80 :=
  fun c hc => of_decide_eq_true (List.all_eq_true.mp h c hc)

/-- What goes between the quotes stands for itself. -/
theorem isQuotedChar_asciiFallback {filename : Str} {c : Char} (hc : c ∈ asciiFallback filename) :
    Disposition.isQuotedChar c = true ∧ 0x20 ≤ c.toNat ∧ c.toNat ≤ 0x7e := by
  obtain ⟨d, -, rfl⟩ := List.mem_map.mp hc
  split_ifs with hquote hgraphic
  · decide
  · obtain ⟨hq, hb⟩ := not_or.mp hquote
    have hrange : 0x20 ≤ d.toNat ∧ d.toNat ≤ 0x7e := by
      rcases hgraphic with hgraphic | rfl
      · omega
      · decide
    refine ⟨?_, hrange⟩
    have hdelete : d.toNat ≠ 0x7f := by omega
    simp [Disposition.isQuotedChar, hrange.1, hq, hb, hdelete]
  · decide

/-- A printable name without quotes and backslashes is its own fallback. -/
theorem asciiFallback_eq_self {filename : Str}
    (h : ∀ c ∈ filename, (0x20 ≤ c.toNat ∧ c.toNat ≤ 0x7e) ∧ c ≠ '"' ∧ c ≠ '\\') :
    asciiFallback filename = filename := by
  refine (List.map_congr_left fun c hc => ?_).trans (List.map_id _)
  obtain ⟨hrange, hquote, hback⟩ := h c hc
  have hkept : (0x21 ≤ c.toNat ∧ c.toNat ≤ 0x7e) ∨ c = ' ' := by
    rcases Nat.lt_or_ge 0x20 c.toNat with hlt | hge
    · exact Or.inl ⟨hlt, hrange.2⟩
    · exact Or.inr (Char.toNat_inj.mp (le_antisymm hge hrange.1))
  rw [if_neg (not_or.mpr ⟨hquote, hback⟩), if_pos hkept]
  rfl

theorem isUnescaped_facts : ∀ n : Fin 256, isUnescaped (UInt8.ofNat n) = true → n.val < 0x80 ∧ n.val ≠ 0x25 := by
  decide +kernel

theorem isUnescaped_ascii {b : UInt8} (h : isUnescaped b = true) : b.toNat < 0x80 ∧ b ≠ 0x25 := by
  have hfacts := isUnescaped_facts ⟨b.toNat, b.toNat_lt⟩
  rw [UInt8.ofNat_toNat] at hfacts
  obtain ⟨hascii, hpercent⟩ := hfacts h
  exact ⟨hascii, fun heq => hpercent (congrArg UInt8.toNat heq)⟩

/-- The value, a parameter at a time. -/
theorem contentDisposition_eq (filename : Str) :
    contentDisposition (some filename) = "attachment".toList ++ ("; ".toList ++ "filename".toList ++
      '=' :: '"' :: (asciiFallback filename ++ '"' ::
        if filename.all fun c => c.toNat < 0x80 then []
        else "; ".toList ++ "filename*".toList ++
          '=' :: ("UTF-8".toList ++ '\'' :: ([] ++ '\'' :: rfc5987Encode filename)))) := by
  have hopening : "attachment; filename=\"".toList =
      "attachment".toList ++ ("; ".toList ++ ("filename".toList ++ ['=', '"'])) := by decide
  have hsecond : "; filename*=UTF-8''".toList =
      "; ".toList ++ ("filename*".toList ++ ('=' :: ("UTF-8".toList ++ ['\'', '\'']))) := by decide
  unfold contentDisposition
  dsimp only
  rw [hopening, hsecond]
  simp only [List.append_assoc, List.cons_append, List.nil_append]

/-- The parameters sent: the plain name, and the extended one if the name is not ASCII. -/
def sentParams (filename : Str) : List (Str × Disposition.Value) :=
  ("filename".toList, .plain (asciiFallback filename)) ::
    if filename.all fun c => c.toNat < 0x80 then []
    else [("filename*".toList, .extended "UTF-8".toList [] (rfc5987Encode filename))]

theorem names_sentParams (filename : Str) :
    (sentParams filename).map Prod.fst = ["filename".toList] ∨
      (sentParams filename).map Prod.fst = ["filename".toList, "filename*".toList] := by
  rw [sentParams]
  split_ifs
  · exact Or.inl rfl
  · exact Or.inr rfl

/-- They are what a recipient reads. -/
theorem read_contentDisposition (filename : Str) :
    Disposition.read (contentDisposition (some filename)) =
      some { kind := "attachment".toList, params := sentParams filename } := by
  have hquoted : ∀ c ∈ asciiFallback filename, Disposition.isQuotedChar c = true := fun c hc =>
    (isQuotedChar_asciiFallback hc).1
  have hchars : Disposition.areValueChars 0 (rfc5987Encode filename) = true :=
    Disposition.areValueChars_percentEncode (fun _ h => h) _
  rw [contentDisposition_eq, sentParams]
  refine Disposition.read_append (by decide) (by decide) (by decide) ?_ ?_
  · intro c hc
    obtain rfl : ';' = c := Option.some.inj hc
    decide
  · obtain ⟨fuel, hfuel⟩ : ∃ fuel, ∀ tail : Str, ("; ".toList ++ "filename".toList ++
        '=' :: '"' :: (asciiFallback filename ++ '"' :: tail)).length = fuel + tail.length + 2 := by
      refine ⟨11 + (asciiFallback filename).length, fun tail => ?_⟩
      simp
      omega
    rw [hfuel, Disposition.params_quoted (by decide) (by decide) (by decide) (by decide) hquoted]
    split_ifs with hascii
    · rfl
    · rw [Disposition.params_extended (by decide) (by decide) (by decide) (by decide) ⟨by decide, by decide⟩
        (by simp) hchars]
      rfl

/-- A name that is printable where it is ASCII, without quotes and backslashes, is recovered. -/
theorem fileName_read {filename : Str}
    (hplain : (∀ c ∈ filename, c.toNat < 0x80) →
      ∀ c ∈ filename, (0x20 ≤ c.toNat ∧ c.toNat ≤ 0x7e) ∧ c ≠ '"' ∧ c ≠ '\\')
    {header : Disposition.Header} (h : Disposition.read (contentDisposition (some filename)) = some header) :
    header.fileName = some filename := by
  rw [read_contentDisposition] at h
  obtain rfl := Option.some.inj h
  have hstar : ("filename*".toList == "filename".toList) = false := by decide
  rw [sentParams]
  split_ifs with hascii
  · have hself := asciiFallback_eq_self (hplain (isAscii_of_all hascii))
    rw [Disposition.Header.fileName, List.lookup_cons, hstar, hself]
    rfl
  · have hcharset : "UTF-8".toList.map Char.toLower = "utf-8".toList := by decide
    have hbytes : percentDecode (rfc5987Encode filename).bytes = filename.bytes :=
      percentDecode_encode (fun _ h => isUnescaped_ascii h) _
    rw [Disposition.Header.fileName, List.lookup_cons, hstar]
    simp only [List.lookup_cons_self, hcharset, if_true, hbytes, Str.ofBytes?_bytes]

theorem printable_contentDisposition (filename : Str) :
    ∀ c ∈ contentDisposition (some filename), 0x20 ≤ c.toNat ∧ c.toNat ≤ 0x7e := by
  have hopening : ∀ c ∈ "attachment; filename=\"".toList, 0x20 ≤ c.toNat ∧ c.toNat ≤ 0x7e := by decide
  have hsecond : ∀ c ∈ "; filename*=UTF-8''".toList, 0x20 ≤ c.toNat ∧ c.toNat ≤ 0x7e := by decide
  intro c hc
  unfold contentDisposition at hc
  dsimp only at hc
  rcases List.mem_append.mp hc with hc | hc
  · rcases List.mem_append.mp hc with hc | hc
    · rcases List.mem_append.mp hc with hc | hc
      · exact hopening c hc
      · exact (isQuotedChar_asciiFallback hc).2
    · obtain rfl := List.mem_singleton.mp hc
      decide
  · split_ifs at hc with hascii
    · cases hc
    · rcases List.mem_append.mp hc with hc | hc
      · exact hsecond c hc
      · exact Disposition.printable_of_areValueChars
          (Disposition.areValueChars_percentEncode (fun _ h => h) filename.bytes) c hc

/-- A download's name survives the header: whatever name the sanitizer let through, the value is printable
    ASCII, an attachment with one plain name and at most one extended name, and reads as that name. -/
theorem fileName_recovered {nfc : Str → Str}
    (hfatal : ∀ s, (∀ c ∈ s, isFatalChar c = false) → ∀ c ∈ nfc s, isFatalChar c = false)
    {input : Str} {allowed : AllowedExtensions} {n : SafeFilename}
    (h : SafeFilename.parse nfc input allowed = .ok n) :
    (∀ c ∈ contentDisposition (some n.toStr), 0x20 ≤ c.toNat ∧ c.toNat ≤ 0x7e) ∧
      ∃ header, Disposition.read (contentDisposition (some n.toStr)) = some header ∧
        header.kind = "attachment".toList ∧
        (header.params.map Prod.fst).count "filename".toList = 1 ∧
        (header.params.map Prod.fst).count "filename*".toList ≤ 1 ∧
        (∀ param ∈ header.params, param.1 = "filename".toList ∨ param.1 = "filename*".toList) ∧
        header.fileName = some n.toStr := by
  have hsafe := sanitized_of_parse hfatal h
  have hplain : (∀ c ∈ n.toStr, c.toNat < 0x80) →
      ∀ c ∈ n.toStr, (0x20 ≤ c.toNat ∧ c.toNat ≤ 0x7e) ∧ c ≠ '"' ∧ c ≠ '\\' := by
    intro hascii c hc
    have hrange := hascii c hc
    have hclean := hsafe.isFatal_toStr c hc
    simp only [isFatalChar, Bool.or_eq_false_iff, Bool.and_eq_false_iff, decide_eq_false_iff_not] at hclean
    have hsafe := hsafe.isRepaired_toStr c hc
    refine ⟨by omega, ?_, ?_⟩ <;> rintro rfl <;> exact absurd hsafe (by decide)
  refine ⟨printable_contentDisposition _, _, read_contentDisposition _, rfl, ?_, ?_, ?_,
    fileName_read hplain (read_contentDisposition _)⟩
  · rcases names_sentParams n.toStr with h | h <;> rw [h] <;> decide
  · rcases names_sentParams n.toStr with h | h <;> rw [h] <;> decide
  · intro param hparam
    have hname := List.mem_map_of_mem (f := Prod.fst) hparam
    rcases names_sentParams n.toStr with h | h
    · rw [h] at hname
      exact Or.inl (List.mem_singleton.mp hname)
    · rw [h] at hname
      exact (List.mem_cons.mp hname).imp_right List.mem_singleton.mp

/-- A name in Vietnamese is sent in both forms. -/
theorem report_recovered :
    ∃ header, Disposition.read (contentDisposition (some "báo-cáo.jpg".toList)) = some header ∧
      header.fileName = some "báo-cáo.jpg".toList := by
  have hparse : SafeFilename.parse id "báo-cáo.jpg".toList {jpg} = .ok ⟨"báo-cáo".toList, jpg⟩ := by rfl
  obtain ⟨-, header, hread, -, -, -, -, hname⟩ := fileName_recovered (fun _ h => h) hparse
  exact ⟨header, hread, hname⟩

end Arcature.Http

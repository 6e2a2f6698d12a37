import Arcature.Lib.Json
import Arcature.Lib.Machine

/-! Log lines without secrets.

    `JsonLog` writes one JSON object for each event (`observe/json_log.rs`). It holds what the event
    recorded and what the spans around it had recorded up to then:

        span request   id = 7, password = hunter2       fields      id = 7, password = [redacted],
          span query   table = users                                table = posts, rows = 3
            record     table = posts                    spans       request, query
            event      rows = 3, message = done         message     done

    A field whose name is on the deny-list never gets past the visitor with its value
    (`observe/redact.rs`), so the values of such fields cannot be told from the lines
    (`untimed_lines`). Where several recorded one name, the event is before the spans and an inner
    span before an outer one (`fieldOf_line`). The event's `message` is not among its fields: it is
    lifted to the line, and leaves the name to the spans. -/

namespace Arcature.Observe
open Arcature.Lib

/-! ### The deny-list -/

/-- `REDACTED`. -/
def redacted : Str := "[redacted]".toList

/-- `DENY_LIST`. -/
def denyList : List Str :=
  ["access_token", "api_key", "apikey", "auth", "bearer", "bind", "body", "cache_value", "card",
    "cookie", "credential", "csrf", "cvv", "id_token", "otp", "passphrase", "passwd", "password",
    "payload", "pin_code", "private_key", "pwd", "refresh_token", "secret", "session_id",
    "signature", "sql_args", "token", "verifier"].map String.toList

/-- A character of a name, in the convention of the deny-list. -/
def foldChar (c : Char) : Char := if c = '-' ∨ c = '.' then '_' else c.toLower

/-- `is_sensitive`. -/
def isSensitive (field : Str) : Bool :=
  let lowered := field.map foldChar
  denyList.any fun needle => decide (needle <:+: lowered)

/-! ### Fields -/

/-- What a field is recorded with, one case for each method of the visitor. An error comes with its
    text, anything else without a method of its own with its `Debug` text. -/
inductive FieldValue where
  | str (value : Str)
  | bool (value : Bool)
  | i64 (value : Int64)
  | u64 (value : UInt64)
  | f64 (bits : UInt64)
  | error (text : Str)
  | debug (text : Str)
  deriving DecidableEq

/-- The value as JSON. A number that JSON has no text for is null. -/
def FieldValue.json : FieldValue → Json
  | str value => .string value
  | bool value => .bool value
  | i64 value => .number (if value < 0 then .negInt value else .posInt value.toUInt64)
  | u64 value => .number (.posInt value)
  | f64 bits => if bits.toNat / 2 ^ 52 % 2 ^ 11 = 2 ^ 11 - 1 then .null else .number (.float bits)
  | error text => .string text
  | debug text => .string text

/-- A recorded field. -/
structure Field where
  name : Str
  value : FieldValue
  deriving DecidableEq

/-- What is kept of a field. -/
def Field.shown (f : Field) : Json := if isSensitive f.name then .string redacted else f.value.json

/-- `JsonVisitor::insert`. -/
def insertField (fields : Map Str Json) (f : Field) : Map Str Json := fields.insert f.name f.shown

/-- The visitor's fields after all of these. -/
def visit (recorded : List Field) : Map Str Json := recorded.foldl insertField .empty

/-! ### Spans -/

/-- A span, with what is kept of its fields. -/
structure Span (φ : Type) where
  name : Str
  parent : Option ℕ
  fields : φ

/-- The spans of a run, the newest first; a span is known by the number of spans before it. -/
abbrev Spans (φ : Type) := List (Span φ)

section Spans

variable {φ : Type}

/-- Change what is kept of a span, if there is one of that number. -/
def Spans.modify (f : φ → φ) (id : ℕ) : Spans φ → Spans φ
  | [] => []
  | span :: spans =>
    if id = spans.length then { span with fields := f span.fields } :: spans
    else span :: Spans.modify f id spans

/-- A span and the spans around it, from the inside out. The parent of a span is an older one. -/
def Spans.scope : Spans φ → Option ℕ → List (Span φ)
  | [], _ => []
  | _ :: _, none => []
  | span :: spans, some id =>
    if id = spans.length then span :: Spans.scope spans span.parent else Spans.scope spans (some id)

end Spans

/-! ### Lines -/

/-- The level of an event. -/
inductive Level where
  | trace | debug | info | warn | error
  deriving DecidableEq

/-- `Level::as_str`. -/
def Level.asStr : Level → Str
  | trace => "TRACE".toList
  | debug => "DEBUG".toList
  | info => "INFO".toList
  | warn => "WARN".toList
  | error => "ERROR".toList

/-- An event; `parent` is the span it is in, and `now` the milliseconds since the epoch. -/
structure Event where
  level : Level
  target : Str
  parent : Option ℕ
  fields : List Field
  now : ℤ

/-- `civil_from_days`. -/
def civilFromDays (days : ℤ) : ℤ × ℕ × ℕ :=
  let shifted := days + 719468
  let era := (if 0 ≤ shifted then shifted else shifted - 146096).tdiv 146097
  let dayOfEra := (shifted - era * 146097).toNat
  let yearOfEra := (dayOfEra - dayOfEra / 1460 + dayOfEra / 36524 - dayOfEra / 146096) / 365
  let year := yearOfEra + era * 400
  let dayOfYear := dayOfEra - (365 * yearOfEra + yearOfEra / 4 - yearOfEra / 100)
  let monthPosition := (5 * dayOfYear + 2) / 153
  let day := dayOfYear - (153 * monthPosition + 2) / 5 + 1
  let month := if monthPosition < 10 then monthPosition + 3 else monthPosition - 9
  (if month ≤ 2 then year + 1 else year, month, day)

/-- A number in decimal, with zeros before it up to a width. -/
def padded (width n : ℕ) : Str :=
  let digits := Nat.toDigits 10 n
  List.replicate (width - digits.length) '0' ++ digits

/-- `rfc3339_utc`. A time before the epoch is taken for the epoch. -/
def rfc3339Utc (now : ℤ) : Str :=
  let sinceEpoch := now.toNat
  let seconds := sinceEpoch / 1000
  let (year, month, day) := civilFromDays (seconds / 86400 : ℕ)
  let timeOfDay := seconds % 86400
  padded 4 year.toNat ++ ['-'] ++ padded 2 month ++ ['-'] ++ padded 2 day ++ ['T'] ++
    padded 2 (timeOfDay / 3600) ++ [':'] ++ padded 2 (timeOfDay % 3600 / 60) ++ [':'] ++
    padded 2 (timeOfDay % 60) ++ ['.'] ++ padded 3 (sinceEpoch % 1000) ++ ['Z']

/-- Set a member, if there is a value for it. -/
def insertIf (line : Map Str Json) (key : Str) (value : Option Json) : Map Str Json :=
  match value with
  | some value => line.insert key value
  | none => line

/-- What the spans of a scope hand down: they are gone through from the outside in. -/
def inherited (scope : List (Span (Map Str Json))) : Map Str Json :=
  scope.reverse.foldl (fun fields span => fields.extend span.fields) .empty

/-- `JsonLog`, without its sink. -/
structure JsonLog where
  includeSpans : Bool

/-- The line that `on_event` writes. -/
def JsonLog.line (log : JsonLog) (spans : Spans (Map Str Json)) (event : Event) : Map Str Json :=
  let fields := visit event.fields
  let line := ((Map.empty.insert "timestamp".toList (.string (rfc3339Utc event.now))).insert
    "level".toList (.string event.level.asStr)).insert "target".toList (.string event.target)
  let line := insertIf line "message".toList (fields.get? "message".toList)
  let fields := fields.remove "message".toList
  let scope := if log.includeSpans then spans.scope event.parent else []
  let names := scope.reverse.map fun span => Json.string span.name
  let line := insertIf line "spans".toList (if names = [] then none else some (.array names))
  -- `or_insert`: what the event recorded stays
  let fields := (inherited scope).extend fields
  insertIf line "fields".toList (if fields.keys = ∅ then none else some (.object fields))

/-- What the subscriber calls the layer with. -/
inductive Call where
  | newSpan (name : Str) (parent : Option ℕ) (fields : List Field)
  | record (id : ℕ) (fields : List Field)
  | event (event : Event)

/-- `on_new_span`, `on_record` and `on_event`. Every span is made with its fields, so that a record
    always finds some to extend. -/
def JsonLog.step (log : JsonLog) (spans : Spans (Map Str Json)) :
    Call → Spans (Map Str Json) × Option (Map Str Json)
  | .newSpan name parent fields => (⟨name, parent, visit fields⟩ :: spans, none)
  | .record id fields => (spans.modify (fun existing => existing.extend (visit fields)) id, none)
  | .event event => (spans, some (log.line spans event))

/-- The layer, called with one thing after the other. -/
def JsonLog.machine (log : JsonLog) : Machine (Spans (Map Str Json)) Call (Option (Map Str Json)) where
  init := []
  step := log.step

/-- The lines of a run. -/
def JsonLog.lines (log : JsonLog) (calls : List Call) : List (Map Str Json) :=
  (log.machine.trace calls).filterMap Prod.snd

/-! ### Two runs -/

/-- The same fields, but for the values of those that are on the deny-list. -/
def Field.SameButSecret (f g : Field) : Prop := f.name = g.name ∧ (¬ isSensitive f.name → f.value = g.value)

/-- The same calls, but for the values of fields that are on the deny-list, and for the time. -/
inductive Call.SameButSecrets : Call → Call → Prop where
  | newSpan {name : Str} {parent : Option ℕ} {fields fields' : List Field} :
      List.Forall₂ Field.SameButSecret fields fields' →
      SameButSecrets (.newSpan name parent fields) (.newSpan name parent fields')
  | record {id : ℕ} {fields fields' : List Field} :
      List.Forall₂ Field.SameButSecret fields fields' →
      SameButSecrets (.record id fields) (.record id fields')
  | event {level : Level} {target : Str} {parent : Option ℕ} {fields fields' : List Field} {now now' : ℤ} :
      List.Forall₂ Field.SameButSecret fields fields' →
      SameButSecrets (.event ⟨level, target, parent, fields, now⟩)
        (.event ⟨level, target, parent, fields', now'⟩)

/-- A line without its timestamp. -/
def untimed (line : Map Str Json) : Map Str Json := line.remove "timestamp".toList

theorem shown_eq {f g : Field} (h : f.SameButSecret g) : f.shown = g.shown := by
  obtain ⟨hname, hvalue⟩ := h
  rw [Field.shown, Field.shown, ← hname]
  by_cases hsensitive : isSensitive f.name = true
  · rw [if_pos hsensitive, if_pos hsensitive]
  · rw [if_neg hsensitive, if_neg hsensitive, hvalue hsensitive]

/-- The visitor keeps the same of both. -/
theorem visit_eq {fields fields' : List Field} (h : List.Forall₂ Field.SameButSecret fields fields') :
    visit fields = visit fields' := by
  have hfold : ∀ kept : Map Str Json, fields.foldl insertField kept = fields'.foldl insertField kept := by
    induction h with
    | nil => exact fun _ => rfl
    | cons hfield _ ih =>
      intro kept
      rw [List.foldl_cons, List.foldl_cons, insertField, insertField, hfield.1, shown_eq hfield]
      exact ih _
  exact hfold .empty

theorem untimed_insertIf {line line' : Map Str Json} (h : untimed line = untimed line') (key : Str)
    (value : Option Json) : untimed (insertIf line key value) = untimed (insertIf line' key value) := by
  cases value with
  | none => exact h
  | some value =>
    refine Map.ext fun k => ?_
    have hk := congrArg (fun m => m.get? k) h
    simp only [untimed, insertIf, Map.get?_remove, Map.get?_insert] at hk ⊢
    by_cases htime : k = "timestamp".toList
    · rw [if_pos htime, if_pos htime]
    · rw [if_neg htime, if_neg htime] at hk ⊢
      rw [hk]

theorem untimed_line (log : JsonLog) (spans : Spans (Map Str Json)) {level : Level} {target : Str}
    {parent : Option ℕ} {fields fields' : List Field} (now now' : ℤ)
    (h : List.Forall₂ Field.SameButSecret fields fields') :
    untimed (log.line spans ⟨level, target, parent, fields, now⟩) =
      untimed (log.line spans ⟨level, target, parent, fields', now'⟩) := by
  have hstart : untimed (((Map.empty.insert "timestamp".toList (.string (rfc3339Utc now))).insert
      "level".toList (.string level.asStr)).insert "target".toList (.string target)) =
      untimed (((Map.empty.insert "timestamp".toList (.string (rfc3339Utc now'))).insert
      "level".toList (.string level.asStr)).insert "target".toList (.string target)) := by
    refine Map.ext fun k => ?_
    simp only [untimed, Map.get?_remove, Map.get?_insert]
    by_cases htime : k = "timestamp".toList
    · rw [if_pos htime, if_pos htime]
    · rw [if_neg htime, if_neg htime, if_neg htime, if_neg htime]
  unfold JsonLog.line
  rw [visit_eq h]
  exact untimed_insertIf (untimed_insertIf (untimed_insertIf hstart _ _) _ _) _ _

/-- A call does the same to the spans, and writes the same line but for its timestamp. -/
theorem step_eq (log : JsonLog) (spans : Spans (Map Str Json)) {call call' : Call}
    (h : call.SameButSecrets call') :
    (log.step spans call).1 = (log.step spans call').1 ∧
      (log.step spans call).2.map untimed = (log.step spans call').2.map untimed := by
  cases h with
  | newSpan hfields => exact ⟨by rw [JsonLog.step, JsonLog.step, visit_eq hfields], rfl⟩
  | record hfields => exact ⟨by rw [JsonLog.step, JsonLog.step, visit_eq hfields], rfl⟩
  | event hfields => exact ⟨rfl, congrArg some (untimed_line log spans _ _ hfields)⟩

/-- The lines of two runs that differ in secrets only are the same but for their timestamps. -/
theorem untimed_lines (log : JsonLog) {calls calls' : List Call}
    (h : List.Forall₂ Call.SameButSecrets calls calls') :
    (log.lines calls).map untimed = (log.lines calls').map untimed := by
  have hfrom : ∀ spans, ((log.machine.traceFrom spans calls).filterMap Prod.snd).map untimed =
      ((log.machine.traceFrom spans calls').filterMap Prod.snd).map untimed := by
    induction h with
    | nil => exact fun _ => rfl
    | @cons call call' _ _ hcall _ ih =>
      intro spans
      obtain ⟨hspans, hline⟩ := step_eq log spans hcall
      have hspans : log.machine.next spans call = log.machine.next spans call' := hspans
      have hline : (log.machine.out spans call).map untimed = (log.machine.out spans call').map untimed := hline
      have hrest := ih (log.machine.next spans call')
      rw [Machine.traceFrom, Machine.traceFrom, hspans, List.filterMap_cons, List.filterMap_cons]
      revert hline
      cases log.machine.out spans call <;> cases log.machine.out spans call' <;> simp_all
  exact hfrom []

/-! ### Which value is written -/

/-- The spans of a run with all that was recorded on them, in that order. -/
def recordedSpans (calls : List Call) : Spans (List Field) :=
  calls.foldl (fun spans call =>
    match call with
    | .newSpan name parent fields => ⟨name, parent, fields⟩ :: spans
    | .record id fields => spans.modify (fun recorded => recorded ++ fields) id
    | .event _ => spans) []

/-- The last that was recorded under a name, as it is shown. -/
def lastShown (name : Str) (recorded : List Field) : Option Json :=
  (recorded.filter (·.name = name)).getLast?.map Field.shown

/-- A member of the line's `fields`. -/
def fieldOf (line : Map Str Json) (name : Str) : Option Json :=
  (line.get? "fields".toList).bind fun fields => fields.members.get? name

/-- All that an event can show under a name: what itself recorded, and then what the spans around it
    did, from the inside out. -/
def JsonLog.sources (log : JsonLog) (calls : List Call) (event : Event) : List (List Field) :=
  event.fields :: if log.includeSpans then ((recordedSpans calls).scope event.parent).map Span.fields else []

theorem get?_visit (recorded : List Field) (name : Str) :
    (visit recorded).get? name = lastShown name recorded := by
  induction recorded using List.reverseRecOn with
  | nil => simp [visit, lastShown]
  | append_singleton recorded f ih =>
    rw [visit, List.foldl_append, List.foldl_cons, List.foldl_nil, ← visit, insertField, Map.get?_insert, ih]
    by_cases hname : f.name = name
    · simp [lastShown, hname]
    · simp [lastShown, hname, Ne.symm hname]

theorem visit_append (recorded fields : List Field) :
    visit (recorded ++ fields) = (visit recorded).extend (visit fields) := by
  refine Map.ext fun name => ?_
  rw [Map.get?_extend, get?_visit, get?_visit, get?_visit, lastShown, lastShown, lastShown,
    List.filter_append, List.getLast?_append]
  cases (fields.filter (·.name = name)).getLast? <;> rfl

/-- What is kept of a span, for what was recorded on it. -/
def Span.visited (span : Span (List Field)) : Span (Map Str Json) := { span with fields := visit span.fields }

theorem map_visited_modify (fields : List Field) (id : ℕ) (spans : Spans (List Field)) :
    (Spans.modify (fun recorded => recorded ++ fields) id spans).map Span.visited =
      Spans.modify (fun existing => existing.extend (visit fields)) id (spans.map Span.visited) := by
  induction spans with
  | nil => rfl
  | cons span spans ih =>
    rw [Spans.modify, List.map_cons, Spans.modify, List.length_map]
    by_cases hid : id = spans.length
    · simp [hid, Span.visited, visit_append]
    · rw [if_neg hid, if_neg hid, List.map_cons, ih]

theorem scope_map_visited (spans : Spans (List Field)) (parent : Option ℕ) :
    Spans.scope (spans.map Span.visited) parent = (spans.scope parent).map Span.visited := by
  induction spans generalizing parent with
  | nil => rfl
  | cons span spans ih =>
    cases parent with
    | none => rfl
    | some id =>
      rw [List.map_cons, Spans.scope, Spans.scope, List.length_map]
      by_cases hid : id = spans.length
      · rw [if_pos hid, if_pos hid, ih, List.map_cons]
        rfl
      · rw [if_neg hid, if_neg hid, ih]

/-- The layer keeps of every span the last that was recorded under each name. -/
theorem run_eq (log : JsonLog) (calls : List Call) :
    log.machine.run calls = (recordedSpans calls).map Span.visited := by
  induction calls using List.reverseRecOn with
  | nil => rfl
  | append_singleton calls call ih =>
    have hspans : recordedSpans (calls ++ [call]) =
        match call with
        | .newSpan name parent fields => ⟨name, parent, fields⟩ :: recordedSpans calls
        | .record id fields => (recordedSpans calls).modify (fun recorded => recorded ++ fields) id
        | .event _ => recordedSpans calls := by
      rw [recordedSpans, List.foldl_append]
      rfl
    rw [Machine.run_concat, ih, hspans]
    cases call with
    | newSpan name parent fields => rfl
    | record id fields => exact (map_visited_modify fields id _).symm
    | event event => rfl

theorem get?_inherited (scope : List (Span (Map Str Json))) (name : Str) :
    (inherited scope).get? name = scope.findSome? fun span => span.fields.get? name := by
  rw [inherited, List.foldl_reverse]
  induction scope with
  | nil => rfl
  | cons span scope ih =>
    rw [List.foldr_cons, Map.get?_extend, ih, List.findSome?_cons]
    cases span.fields.get? name <;> rfl

theorem get?_insertIf (line : Map Str Json) (key k : Str) (value : Option Json) :
    (insertIf line key value).get? k = if k = key then value.or (line.get? k) else line.get? k := by
  cases value with
  | none =>
    rw [Option.none_or, ite_self]
    rfl
  | some value => exact Map.get?_insert line key k value

/-- The fields of a line: those of the event but its message, and what the spans hand down. -/
theorem fieldOf_line (log : JsonLog) (spans : Spans (Map Str Json)) (event : Event) (name : Str) :
    fieldOf (log.line spans event) name =
      ((inherited (if log.includeSpans then spans.scope event.parent else [])).extend
        ((visit event.fields).remove "message".toList)).get? name := by
  have hspans : "fields".toList ≠ "spans".toList := by decide
  have hmessage : "fields".toList ≠ "message".toList := by decide
  have htarget : "fields".toList ≠ "target".toList := by decide
  have hlevel : "fields".toList ≠ "level".toList := by decide
  have htime : "fields".toList ≠ "timestamp".toList := by decide
  rw [fieldOf, JsonLog.line]
  simp only [get?_insertIf, Map.get?_insert, if_neg hspans, if_neg hmessage, if_neg htarget,
    if_neg hlevel, if_neg htime, Map.get?_empty, Option.or_none, if_true]
  generalize hfields : (inherited _).extend _ = fields
  by_cases hempty : fields.keys = ∅
  · rw [if_pos hempty, Map.get?_eq_none_of_keys_eq_empty hempty]
    rfl
  · rw [if_neg hempty]
    rfl

theorem message_line (log : JsonLog) (spans : Spans (Map Str Json)) (event : Event) :
    (log.line spans event).get? "message".toList = lastShown "message".toList event.fields := by
  have hfields : "message".toList ≠ "fields".toList := by decide
  have hspans : "message".toList ≠ "spans".toList := by decide
  have htarget : "message".toList ≠ "target".toList := by decide
  have hlevel : "message".toList ≠ "level".toList := by decide
  have htime : "message".toList ≠ "timestamp".toList := by decide
  rw [JsonLog.line]
  simp only [get?_insertIf, Map.get?_insert, if_neg hfields, if_neg hspans, if_neg htarget,
    if_neg hlevel, if_neg htime, Map.get?_empty, Option.or_none, if_true]
  exact get?_visit event.fields "message".toList

/-- What the spans around an event hand down under a name. -/
theorem get?_inherited_run (log : JsonLog) (calls : List Call) (event : Event) (name : Str) :
    (inherited (if log.includeSpans then (log.machine.run calls).scope event.parent else [])).get? name =
      (log.sources calls event).tail.findSome? (lastShown name) := by
  rw [get?_inherited, run_eq, JsonLog.sources, List.tail_cons]
  by_cases hinclude : log.includeSpans = true
  · rw [if_pos hinclude, if_pos hinclude, scope_map_visited, List.findSome?_map, List.findSome?_map]
    refine congrArg (fun f => List.findSome? f _) (funext fun span => ?_)
    exact get?_visit span.fields name
  · rw [if_neg hinclude, if_neg hinclude]
    rfl

/-- The order of the sources: the event before the spans and an inner span before an outer one. -/
def JsonLog.InOrder (log : JsonLog) (name : Str) : Prop :=
  ∀ (calls : List Call) (event : Event),
    fieldOf (log.line (log.machine.run calls) event) name =
      (log.sources calls event).findSome? (lastShown name)

/-- Any two runs that differ only in the values of fields on the deny-list write the same lines, but
    for their timestamps. Under every name but `message` a line shows what the event itself recorded
    last, and else what the innermost span that recorded any did last. The message of the event is
    that of the line, and among the fields there is only that of the innermost span. -/
theorem lines_redacted_and_inOrder (log : JsonLog) :
    (∀ calls calls', List.Forall₂ Call.SameButSecrets calls calls' →
      (log.lines calls).map untimed = (log.lines calls').map untimed) ∧
    (∀ name, name ≠ "message".toList → log.InOrder name) ∧
    ∀ (calls : List Call) (event : Event),
      (log.line (log.machine.run calls) event).get? "message".toList =
        lastShown "message".toList event.fields ∧
      fieldOf (log.line (log.machine.run calls) event) "message".toList =
        (log.sources calls event).tail.findSome? (lastShown "message".toList) := by
  refine ⟨fun calls calls' h => untimed_lines log h, fun name hname calls event => ?_,
    fun calls event => ⟨message_line log _ event, ?_⟩⟩
  · rw [fieldOf_line, Map.get?_extend, Map.get?_remove, if_neg hname, get?_inherited_run, get?_visit,
      JsonLog.sources, List.tail_cons, List.findSome?_cons]
    cases lastShown name event.fields <;> rfl
  · rw [fieldOf_line, Map.get?_extend, Map.get?_remove, if_pos rfl, Option.none_or, get?_inherited_run]

/-- A span that recorded a message, and an event in it with one of its own. -/
theorem message_not_inOrder :
    fieldOf (JsonLog.line ⟨true⟩
      (JsonLog.machine ⟨true⟩ |>.run [.newSpan "job".toList none [⟨"message".toList, .str "outer".toList⟩]])
      ⟨.info, "app".toList, some 0, [⟨"message".toList, .debug "inner".toList⟩], 0⟩) "message".toList =
        some (.string "outer".toList) ∧
    ¬ JsonLog.InOrder ⟨true⟩ "message".toList := by
  have houter : fieldOf (JsonLog.line ⟨true⟩
      (JsonLog.machine ⟨true⟩ |>.run [.newSpan "job".toList none [⟨"message".toList, .str "outer".toList⟩]])
      ⟨.info, "app".toList, some 0, [⟨"message".toList, .debug "inner".toList⟩], 0⟩) "message".toList =
        some (.string "outer".toList) := by
    rw [fieldOf_line, Map.get?_extend, Map.get?_remove, if_pos rfl, Option.none_or, get?_inherited_run]
    rfl
  refine ⟨houter, fun h => ?_⟩
  rw [h] at houter
  have hinner : (some (Json.string "inner".toList)) = some (.string "outer".toList) := houter
  rw [Option.some_inj, Json.string.injEq] at hinner
  exact absurd hinner (by decide)

end Arcature.Observe

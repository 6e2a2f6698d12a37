import Arcature.Lib.Traverse
import Arcature.Notifications.Store

/-! What holds of an inbox whatever order its calls come in, where keys are compared exactly.

    One equation says what a call makes of a row that is there (`get?_step_of_some`) and one what it
    makes of a free id (`get?_step_of_none`); everything about runs follows from the two. -/

namespace Arcature.Notifications
open Arcature.Lib

variable {D : Inbox}

/-- Recipient keys are compared exactly. -/
def Inbox.ComparesKeys (D : Inbox) : Prop := ∀ a b, D.keys.same a b = true ↔ a = b

/-- The recipient a call is made for. -/
def Call.key : Call → Option String
  | .store key _ _ _ | .markRead key _ _ | .markAllRead key _ | .delete key _ | .deleteAllFor key => some key
  | .pruneReadBefore _ => none

/-- The read time a call gives a row, if it marks it. -/
def Call.receipt (D : Inbox) (r : NotificationRow) : Call → Option ℤ
  | .markRead key id now =>
    if r.notifiableKey = key ∧ r.id = id ∧ r.readAt = none then some (D.times.stored now) else none
  | .markAllRead key now =>
    if r.notifiableKey = key ∧ r.readAt = none then some (D.times.stored now) else none
  | _ => none

/-- Whether a call takes a row away. -/
def Call.Removes (D : Inbox) (r : NotificationRow) : Call → Prop
  | .delete key id => r.notifiableKey = key ∧ r.id = id
  | .deleteAllFor key => r.notifiableKey = key
  | .pruneReadBefore cutoff => ∃ readAt, r.readAt = some readAt ∧ readAt < D.times.stored cutoff
  | _ => False

/-- A row with the read time it is given, if it is given one. -/
def NotificationRow.withReceipt (r : NotificationRow) (receipt : Option ℤ) : NotificationRow :=
  { r with readAt := receipt.or r.readAt }

theorem meets_key (hkeys : D.ComparesKeys) (key : String) (p : NotificationRow → Bool)
    (r : NotificationRow) :
    records.meets D.keys (some key) p r = true ↔ r.notifiableKey = key ∧ p r = true := by
  rw [Owned.meets, Option.all_some, Bool.and_eq_true, hkeys]
  rfl

/-! ### One call -/

theorem storeLoop_table (t : InboxTable) (key : String) (content : DatabaseContent) (now : Utc) :
    ∀ (n : ℕ) (draws : List (Option NotificationId)),
      (D.storeLoop t key content now n draws).1 = t ∨
        ∃ id, t.get? id = none ∧ (D.storeLoop t key content now n draws).1 =
          records.exec D.keys t (insertNew D.keys id key content (D.times.stored now))
  | 0, _ => .inl rfl
  | _ + 1, [] => .inl rfl
  | _ + 1, none :: _ => .inl rfl
  | n + 1, some id :: draws => by
    rw [Inbox.storeLoop]
    cases h : t.get? id with
    | some r => exact storeLoop_table t key content now n draws
    | none => exact .inr ⟨id, h, rfl⟩

/-- The row a `store` writes. -/
def Inbox.newRow (D : Inbox) (id : NotificationId) (key : String) (content : DatabaseContent)
    (now : Utc) : NotificationRow :=
  ⟨id, D.keys.keep key, D.keys.keep content.kind, content.data, none, D.times.stored now⟩

theorem get?_store {t : InboxTable} {key : String} {content : DatabaseContent} {now : Utc}
    {draws : List (Option NotificationId)} (id : NotificationId) :
    (D.store t key content now draws).1.get? id = t.get? id ∨
      t.get? id = none ∧
        (D.store t key content now draws).1.get? id = some (D.newRow id key content now) := by
  rcases storeLoop_table (D := D) t key content now storeAttempts draws with h | ⟨id', hfree, h⟩
  · exact .inl (by rw [Inbox.store, h])
  · rw [Inbox.store, h, insertNew, Owned.get?_exec_insert]
    split_ifs with hid
    · obtain ⟨rfl, -⟩ := hid
      exact .inr ⟨hfree, rfl⟩
    · exact .inl rfl

theorem get?_readSet {t : InboxTable} {id : NotificationId} {r : NotificationRow}
    (h : t.get? id = some r) (scope : Option String) (p : NotificationRow → Bool) (readAt : ℤ) :
    (records.exec D.keys t (.update scope p (readSet readAt))).get? id =
      some (if records.meets D.keys scope p r = true then { r with readAt := some readAt } else r) := by
  rw [Owned.exec, Table.get?_modify, h]
  rfl

theorem get?_deleted {t : InboxTable} {id : NotificationId} {r : NotificationRow}
    (h : t.get? id = some r) (scope : Option String) (p : NotificationRow → Bool) :
    (records.exec D.keys t (.delete scope p)).get? id =
      if records.meets D.keys scope p r = true then none else some r := by
  rw [Owned.exec, Table.get?_delete, h]
  cases hmeets : records.meets D.keys scope p r <;> simp [hmeets]

theorem withReceipt_none (r : NotificationRow) : r.withReceipt none = r := by
  rw [NotificationRow.withReceipt, Option.none_or]

/-- Marking under a condition is giving the receipt under it. -/
theorem marked_eq (r : NotificationRow) (readAt : ℤ) (P : Prop) [Decidable P] (hP : P → r.readAt = none) :
    (if P then { r with readAt := some readAt } else r) =
      r.withReceipt (if P then some readAt else none) := by
  split_ifs with h
  · rw [NotificationRow.withReceipt, hP h, Option.or_none]
  · exact (withReceipt_none r).symm

/-- What is pruned, as a test on the receipt. -/
theorem deleteReadBefore_eq (cutoff : ℤ) :
    deleteReadBefore cutoff = .delete none fun r => r.readAt.any fun readAt => readAt < cutoff := by
  unfold deleteReadBefore
  congr 1
  funext r
  cases r.readAt <;> rfl

/-- What a call makes of a row that is there. -/
theorem get?_step_of_some (hkeys : D.ComparesKeys) {t : InboxTable} {id : NotificationId}
    {r : NotificationRow} (h : t.get? id = some r) (c : Call) :
    (c.Removes D r ∧ (D.step t c).1.get? id = none) ∨
      (¬ c.Removes D r ∧ (D.step t c).1.get? id = some (r.withReceipt (c.receipt D r))) := by
  cases c with
  | store key content now draws =>
    refine .inr ⟨fun hremoves => hremoves, ?_⟩
    rcases @get?_store D _ key _ _ _ id with hsame | ⟨hnone, -⟩
    · exact hsame.trans (h.trans (congrArg some (withReceipt_none r).symm))
    · rw [h] at hnone
      cases hnone
  | markRead key id' now =>
    refine .inr ⟨fun hremoves => hremoves, (get?_readSet h _ _ _).trans ?_⟩
    simp only [meets_key hkeys, Bool.and_eq_true, decide_eq_true_eq, Option.isNone_iff_eq_none]
    rw [marked_eq _ _ _ fun hmark => hmark.2.2]
    rfl
  | markAllRead key now =>
    refine .inr ⟨fun hremoves => hremoves, (get?_readSet h _ _ _).trans ?_⟩
    simp only [meets_key hkeys, Option.isNone_iff_eq_none]
    rw [marked_eq _ _ _ fun hmark => hmark.2]
    rfl
  | delete key id' =>
    have hget := get?_deleted (D := D) h (some key) fun r => r.id = id'
    simp only [meets_key hkeys, decide_eq_true_eq] at hget
    by_cases hgone : r.notifiableKey = key ∧ r.id = id'
    · exact .inl ⟨hgone, hget.trans (if_pos hgone)⟩
    · refine .inr ⟨hgone, hget.trans ?_⟩
      exact (if_neg hgone).trans (congrArg some (withReceipt_none r).symm)
  | deleteAllFor key =>
    have hget := get?_deleted (D := D) h (some key) fun _ => true
    simp only [meets_key hkeys, and_true] at hget
    by_cases hgone : r.notifiableKey = key
    · exact .inl ⟨hgone, hget.trans (if_pos hgone)⟩
    · refine .inr ⟨hgone, hget.trans ?_⟩
      exact (if_neg hgone).trans (congrArg some (withReceipt_none r).symm)
  | pruneReadBefore cutoff =>
    have hget := get?_deleted (D := D) h none fun r => r.readAt.any fun readAt => readAt < D.times.stored cutoff
    have hmeets : records.meets D.keys none (fun r => r.readAt.any fun readAt => readAt < D.times.stored cutoff) r =
        true ↔ (Call.pruneReadBefore cutoff).Removes D r := by
      rw [Owned.meets, Option.all_none, Bool.true_and, Call.Removes]
      cases r.readAt <;> simp
    rw [← deleteReadBefore_eq] at hget
    by_cases hgone : (Call.pruneReadBefore cutoff).Removes D r
    · exact .inl ⟨hgone, hget.trans (if_pos (hmeets.mpr hgone))⟩
    · refine .inr ⟨hgone, hget.trans ?_⟩
      exact (if_neg (mt hmeets.mp hgone)).trans (congrArg some (withReceipt_none r).symm)

/-- What a call makes of an id that is free: it stays free, or a `store` takes it. -/
theorem get?_step_of_none {t : InboxTable} {id : NotificationId} (h : t.get? id = none) (c : Call) :
    (D.step t c).1.get? id = none ∨ ∃ key content now draws, c = .store key content now draws ∧
      (D.step t c).1.get? id = some (D.newRow id key content now) := by
  have hdelete : ∀ scope p, (records.exec D.keys t (.delete scope p)).get? id = none := by
    intro scope p
    rw [Owned.exec, Table.get?_delete, h]
    rfl
  have hupdate : ∀ scope p set, (records.exec D.keys t (.update scope p set)).get? id = none := by
    intro scope p set
    rw [Owned.exec, Table.get?_modify, h]
    rfl
  cases c with
  | store key content now draws =>
    rcases @get?_store D _ key _ _ _ id with hsame | ⟨-, hnew⟩
    · exact .inl (hsame.trans h)
    · exact .inr ⟨key, content, now, draws, rfl, hnew⟩
  | markRead | markAllRead => exact .inl (hupdate _ _ _)
  | delete | deleteAllFor | pruneReadBefore => exact .inl (hdelete _ _)

/-! ### What the store has written -/

theorem TimeColumn.lt_of_stored_lt (T : TimeColumn) {a b : Utc} (h : T.stored a < T.stored b) :
    a.val < b.val :=
  lt_of_not_ge fun hle => absurd h (not_lt.mpr (T.mono b a hle))

/-- The instants of a row are those of the dialect. -/
structure Written (D : Inbox) (r : NotificationRow) : Prop where
  created : ∃ t, r.createdAt = D.times.stored t
  read : ∀ readAt ∈ r.readAt, ∃ t, readAt = D.times.stored t

theorem Written.withReceipt {r : NotificationRow} (h : Written D r) (c : Call) :
    Written D (r.withReceipt (c.receipt D r)) := by
  refine ⟨h.created, fun readAt hread => ?_⟩
  rw [NotificationRow.withReceipt] at hread
  rcases Option.or_eq_some_iff.mp hread with hreceipt | ⟨-, hold⟩
  · cases c with
    | markRead key id now =>
      rw [Call.receipt] at hreceipt
      split_ifs at hreceipt
      exact ⟨now, (Option.some.inj hreceipt).symm⟩
    | markAllRead key now =>
      rw [Call.receipt] at hreceipt
      split_ifs at hreceipt
      exact ⟨now, (Option.some.inj hreceipt).symm⟩
    | store | delete | deleteAllFor | pruneReadBefore => cases hreceipt
  · exact h.read readAt hold

theorem written_run (hkeys : D.ComparesKeys) (es : List Call) :
    ∀ id r, (D.machine.run es).get? id = some r → Written D r := by
  refine Machine.inv (I := fun t => ∀ id r, Table.get? t id = some r → Written D r) ?_ ?_ es
  · intro id r h
    cases h
  · intro t c ih id r hnext
    cases h : t.get? id with
    | none =>
      rcases get?_step_of_none (D := D) h c with hfree | ⟨key, content, now, draws, -, hnew⟩
      · cases hfree.symm.trans hnext
      · obtain rfl := Option.some.inj (hnew.symm.trans hnext)
        exact ⟨⟨now, rfl⟩, by simp [Inbox.newRow]⟩
    | some r' =>
      rcases get?_step_of_some hkeys h c with ⟨-, hgone⟩ | ⟨-, hkept⟩
      · cases hgone.symm.trans hnext
      · obtain rfl := Option.some.inj (hkept.symm.trans hnext)
        exact (ih id r' h).withReceipt c

/-! ### One row through a run -/

/-- A later state of the same notification. -/
def NotificationRow.Becomes (r r' : NotificationRow) : Prop := r' = { r with readAt := r'.readAt }

/-- A call that marks a row read, at the time it ends up with. -/
def MarkedAs (D : Inbox) (r : NotificationRow) (readAt : Option ℤ) (c : Call) : Prop :=
  ∃ now, (c = .markRead r.notifiableKey r.id now ∨ c = .markAllRead r.notifiableKey now) ∧
    readAt = some (D.times.stored now)

/-- A call that takes a row away, in a state it has reached: a delete for its recipient, or a prune
    whose cutoff is after its read time. -/
def TakenBy (D : Inbox) (r : NotificationRow) (t : InboxTable) (c : Call) : Prop :=
  ∃ r', t.get? r.id = some r' ∧ r.Becomes r' ∧
    (c = .delete r.notifiableKey r.id ∨ c = .deleteAllFor r.notifiableKey ∨
      ∃ cutoff seen : Utc, c = .pruneReadBefore cutoff ∧ r'.readAt = some (D.times.stored seen) ∧
        seen.val < cutoff.val)

theorem takenBy_of_removes {t : InboxTable} {r r' : NotificationRow} {c : Call}
    (hget : t.get? r.id = some r') (hsame : r.Becomes r') (hwritten : Written D r')
    (h : c.Removes D r') : TakenBy D r t c := by
  refine ⟨r', hget, hsame, ?_⟩
  have hkey : r'.notifiableKey = r.notifiableKey := by rw [hsame]
  have hid : r'.id = r.id := by rw [hsame]
  cases c with
  | delete key id =>
    obtain ⟨hk, hi⟩ := h
    exact .inl (by rw [← hkey, ← hid, hk, hi])
  | deleteAllFor key => exact .inr (.inl (congrArg Call.deleteAllFor (h.symm.trans hkey)))
  | pruneReadBefore cutoff =>
    obtain ⟨readAt, hread, hlt⟩ := h
    obtain ⟨seen, rfl⟩ := hwritten.read readAt hread
    exact .inr (.inr ⟨cutoff, seen, rfl, hread, D.times.lt_of_stored_lt hlt⟩)
  | store | markRead | markAllRead => exact h.elim

theorem markedAs_of_receipt {r : NotificationRow} {c : Call} {readAt : ℤ}
    (h : c.receipt D r = some readAt) : r.readAt = none ∧ MarkedAs D r (some readAt) c := by
  cases c with
  | markRead key id now =>
    rw [Call.receipt] at h
    split_ifs at h with hmark
    obtain ⟨rfl, rfl, hunread⟩ := hmark
    exact ⟨hunread, now, .inl rfl, h.symm⟩
  | markAllRead key now =>
    rw [Call.receipt] at h
    split_ifs at h with hmark
    obtain ⟨rfl, hunread⟩ := hmark
    exact ⟨hunread, now, .inr rfl, h.symm⟩
  | store | delete | deleteAllFor | pruneReadBefore => cases h

/-- What becomes of a row that is there after `es`, by the end of `es ++ fs`: it was taken away on the
    way, or it is still there, the same but for the read time, which is its own or the one of a call
    that found it unread. -/
inductive Fate (D : Inbox) (es fs : List Call) (r : NotificationRow) : Prop where
  | taken (j : ℕ) (since : es.length ≤ j) (fires : D.machine.Fires (es ++ fs) j (TakenBy D r))
  | there (r' : NotificationRow) (get : (D.machine.run (es ++ fs)).get? r.id = some r')
      (same : r.Becomes r') (receipt : r'.readAt = r.readAt ∨ r.readAt = none ∧ ∃ j, es.length ≤ j ∧
        D.machine.Fires (es ++ fs) j fun _ => MarkedAs D r r'.readAt)

theorem fate (hkeys : D.ComparesKeys) (es fs : List Call) {id : NotificationId} {r : NotificationRow}
    (h : (D.machine.run es).get? id = some r) : Fate D es fs r := by
  obtain rfl : r.id = id := Table.key_of_get? h
  induction fs using List.reverseRecOn with
  | nil =>
    rw [← List.append_nil es] at h
    exact .there r h rfl (.inl rfl)
  | append_singleton fs c ih =>
    have hlast : es.length ≤ (es ++ fs).length := by simp
    cases ih with
    | taken j since fires =>
      refine .taken j since ?_
      rw [← List.append_assoc]
      exact Machine.fires_concat.mpr (.inl fires)
    | there r' get same receipt =>
      have hkey : r'.notifiableKey = r.notifiableKey := by rw [same]
      have hid : r'.id = r.id := by rw [same]
      rcases get?_step_of_some hkeys get c with ⟨hremoves, -⟩ | ⟨-, hkept⟩
      · have htaken := takenBy_of_removes get same (written_run hkeys _ _ _ get) hremoves
        refine .taken _ hlast ?_
        rw [← List.append_assoc]
        exact Machine.fires_last.mpr htaken
      · refine .there _ (by rw [← List.append_assoc, Machine.run_concat]; exact hkept)
          (by rw [NotificationRow.Becomes, same]; rfl) ?_
        cases hmark : c.receipt D r' with
        | none =>
          -- the call leaves the row's read time alone
          rw [withReceipt_none]
          refine receipt.imp_right fun ⟨hunread, j, since, fires⟩ => ⟨hunread, j, since, ?_⟩
          rw [← List.append_assoc]
          exact Machine.fires_concat.mpr (.inl fires)
        | some readAt =>
          obtain ⟨hunread, hmarked⟩ := markedAs_of_receipt hmark
          have hbefore : r.readAt = none := by
            rcases receipt with hsame | ⟨hnone, -⟩
            · rw [← hsame, hunread]
            · exact hnone
          refine .inr ⟨hbefore, _, hlast, ?_⟩
          rw [← List.append_assoc]
          refine Machine.fires_last.mpr ?_
          rw [MarkedAs, hkey, hid] at hmarked
          exact hmarked

/-! ### The listings -/

/-- A row as a listing shows it. -/
def Inbox.shown (D : Inbox) (key : String) (r : NotificationRow) : StoredNotification :=
  ⟨r.id, key, r.kind, r.data, r.readAt.bind D.times.restored,
    (D.times.restored r.createdAt).getD ⟨0, by decide, by decide⟩⟩

theorem Written.decode_eq {r : NotificationRow} (h : Written D r) (key : String) :
    D.decode key r = .ok (D.shown key r) ∧ (D.shown key r).readAt.isNone = r.readAt.isNone := by
  obtain ⟨created, hcreated⟩ := h.created
  obtain ⟨createdAt, hrestored⟩ := Option.isSome_iff_exists.mp (D.times.readable created)
  cases hread : r.readAt with
  | none =>
    simp [Inbox.decode, Inbox.shown, Inbox.restoredTime, hread, hcreated, hrestored, pure, Except.pure,
      bind, Except.bind]
  | some stored =>
    obtain ⟨seen, rfl⟩ := h.read stored hread
    obtain ⟨readAt, hseen⟩ := Option.isSome_iff_exists.mp (D.times.readable seen)
    simp [Inbox.decode, Inbox.shown, Inbox.restoredTime, hread, hcreated, hrestored, hseen, pure,
      Except.pure, bind, Except.bind, Functor.map, Except.map]

/-- The rows of a key. -/
def rowsOf (t : InboxTable) (key : String) : List NotificationRow :=
  t.rows.filter fun r => r.notifiableKey = key

theorem matched_list (hkeys : D.ComparesKeys) (t : InboxTable) (key : String) :
    records.matched D.keys t (list key) = rowsOf t key := by
  refine List.filter_congr fun r _ => ?_
  rw [Bool.eq_iff_iff, meets_key hkeys, decide_eq_true_eq]
  simp

theorem matched_listUnread (hkeys : D.ComparesKeys) (t : InboxTable) (key : String) :
    records.matched D.keys t (listUnread key) = (rowsOf t key).filter fun r => r.readAt.isNone := by
  rw [rowsOf, List.filter_filter]
  refine List.filter_congr fun r _ => ?_
  rw [Bool.eq_iff_iff, meets_key hkeys, Bool.and_eq_true, decide_eq_true_eq, and_comm]

/-- Under a limit that lets every row of the key through, the unread listing is the inbox without what
    was read, and the count is its length. -/
theorem listings_agree (hkeys : D.ComparesKeys) (es : List Call) (key : String) (limit : ℕ)
    (hlimit : (rowsOf (D.machine.run es) key).length ≤ limit) :
    ∃ rows, D.inbox (D.machine.run es) key limit = .ok rows ∧
      D.unread (D.machine.run es) key limit = .ok (rows.filter fun n => n.readAt.isNone) ∧
      D.unreadCount (D.machine.run es) key = (rows.filter fun n => n.readAt.isNone).length := by
  generalize ht : D.machine.run es = t at hlimit ⊢
  have hwritten : ∀ r ∈ sortByKey newestFirst (rowsOf t key), Written D r := by
    intro r hr
    have hmem : r ∈ t.rows := (List.mem_filter.mp ((perm_sortByKey _ _).mem_iff.mp hr)).1
    exact written_run hkeys es r.id r (ht ▸ Table.get?_of_mem hmem)
  have hall : D.listed t (list key) limit = sortByKey newestFirst (rowsOf t key) := by
    rw [Inbox.listed, matched_list hkeys, List.take_of_length_le]
    rwa [(perm_sortByKey _ _).length_eq]
  have hunread : D.listed t (listUnread key) limit =
      (sortByKey newestFirst (rowsOf t key)).filter fun r => r.readAt.isNone := by
    rw [Inbox.listed, matched_listUnread hkeys, sortByKey_filter, List.take_of_length_le]
    refine (List.length_filter_le _ _).trans ?_
    rwa [(perm_sortByKey _ _).length_eq]
  have hshown : ((sortByKey newestFirst (rowsOf t key)).map (D.shown key)).filter
      (fun n => n.readAt.isNone) =
      ((sortByKey newestFirst (rowsOf t key)).filter fun r => r.readAt.isNone).map (D.shown key) := by
    rw [List.filter_map]
    refine congrArg (List.map _) (List.filter_congr fun r hr => ?_)
    exact ((hwritten r hr).decode_eq key).2
  refine ⟨(sortByKey newestFirst (rowsOf t key)).map (D.shown key), ?_, ?_, ?_⟩
  · rw [Inbox.inbox, hall, mapM_eq_ok_map fun r hr => ((hwritten r hr).decode_eq key).1]
  · rw [Inbox.unread, hunread, hshown,
      mapM_eq_ok_map fun r hr => ((hwritten r (List.mem_filter.mp hr).1).decode_eq key).1]
  · rw [hshown, List.length_map, ← sortByKey_filter, (perm_sortByKey _ _).length_eq,
      Inbox.unreadCount, matched_listUnread hkeys]

/-! ### Whatever the order of the calls -/

/-- What an inbox promises in every run. -/
structure Promises (D : Inbox) : Prop where
  /-- A row stays what it is but for its first receipt, until a call for it takes it away. -/
  fate : ∀ es fs id r, (D.machine.run es).get? id = some r → Fate D es fs r
  /-- A call for one key leaves the rows of every other as they are. -/
  ownRows : ∀ es c key, c.key = some key → ∀ id r, (D.machine.run es).get? id = some r →
    r.notifiableKey ≠ key → (D.machine.run (es ++ [c])).get? id = some r
  /-- The badge, the unread listing and the inbox agree. -/
  listings : ∀ es key limit, (rowsOf (D.machine.run es) key).length ≤ limit →
    ∃ rows, D.inbox (D.machine.run es) key limit = .ok rows ∧
      D.unread (D.machine.run es) key limit = .ok (rows.filter fun n => n.readAt.isNone) ∧
      D.unreadCount (D.machine.run es) key = (rows.filter fun n => n.readAt.isNone).length

theorem step_other_key (hkeys : D.ComparesKeys) {t : InboxTable} {c : Call} {key : String}
    (hc : c.key = some key) {id : NotificationId} {r : NotificationRow} (h : t.get? id = some r)
    (hr : r.notifiableKey ≠ key) : (D.step t c).1.get? id = some r := by
  have hstays : ¬ c.Removes D r ∧ c.receipt D r = none := by
    cases c with
    | pruneReadBefore => cases hc
    | store | markRead | markAllRead | delete | deleteAllFor =>
      obtain rfl := Option.some.inj hc
      simp [Call.Removes, Call.receipt, hr]
  rcases get?_step_of_some hkeys h c with ⟨hremoves, -⟩ | ⟨-, hkept⟩
  · exact absurd hremoves hstays.1
  · rwa [hstays.2, withReceipt_none] at hkept

theorem promises (D : Inbox) (hkeys : D.ComparesKeys) : Promises D where
  fate es fs _ _ h := Notifications.fate hkeys es fs h
  ownRows es c key hc id r h hr := by
    rw [Machine.run_concat]
    exact step_other_key hkeys hc h hr
  listings es key limit hlimit := listings_agree hkeys es key limit hlimit

theorem promises_sqlite : Promises ⟨.exact, .epochMillis⟩ :=
  promises _ fun _ _ => decide_eq_true_iff

end Arcature.Notifications

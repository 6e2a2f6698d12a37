import Arcature.Cache.Store
import Arcature.Lib.Machine

/-! The namespaces of the cache (`cache/namespace.rs`).

    Applications that share a server keep their keys apart by what stands before the first of them that
    is theirs:

        resolve "shop" "cart:7"      shop:cart:7
        resolve "shop:cart" "7"      shop:cart:7

    A namespace may hold the separator itself, and then two of them may come to one key. They do if one
    goes on where the other has its separator, and only then (`keys_disjoint_iff`); where neither does,
    each application is answered as if the server were its own (`answers_alone`). -/

namespace Arcature.CacheStore
open Arcature.Lib

/-- `CacheConfigError`, as far as namespaces go. -/
inductive CacheConfigError where
  | emptyNamespace
  | namespaceEndsWithSeparator
  | namespaceContainsControlChar
  deriving DecidableEq

/-- `char::is_control`. -/
def isControl (c : Char) : Bool := c.toNat < 0x20 || 0x7f ≤ c.toNat && c.toNat < 0xa0

/-- `Namespace`. -/
structure Namespace where
  text : Str
  deriving DecidableEq

namespace Namespace

/-- `none`: the caller's key is used verbatim. -/
def none : Namespace := ⟨[]⟩

/-- `new`. -/
def new (text : Str) : Except CacheConfigError Namespace :=
  if text = [] then .error .emptyNamespace
  else if text.getLast? = some ':' then .error .namespaceEndsWithSeparator
  else if text.any isControl then .error .namespaceContainsControlChar
  else .ok ⟨text⟩

/-- `resolve`: the full key of a caller's. -/
def resolve (ns : Namespace) (key : Str) : Str := if ns.text = [] then key else ns.text ++ ':' :: key

/-- The cache resolves its keys by its namespace. -/
theorem resolveKey_eq (cache : Cache) (key : Str) : cache.resolveKey key = resolve ⟨cache.keyspace⟩ key := rfl

@[simp] theorem resolve_none (key : Str) : none.resolve key = key := rfl

/-- What is accepted is not empty and does not end with a separator. -/
theorem new_eq_ok {text : Str} {ns : Namespace} (h : new text = .ok ns) :
    ns = ⟨text⟩ ∧ text ≠ [] ∧ text.getLast? ≠ some ':' := by
  rw [new] at h
  split_ifs at h with hempty hlast hcontrol
  exact ⟨(Except.ok.inj h).symm, hempty, hlast⟩

theorem resolve_of_ne {ns : Namespace} (h : ns.text ≠ []) (key : Str) : ns.resolve key = ns.text ++ ':' :: key :=
  if_neg h

/-- A namespace tells its own keys apart. -/
theorem resolve_injective (ns : Namespace) : Function.Injective ns.resolve := by
  intro k l h
  by_cases hempty : ns.text = []
  · rwa [resolve, resolve, if_pos hempty, if_pos hempty] at h
  · rw [resolve_of_ne hempty, resolve_of_ne hempty] at h
    exact List.tail_eq_of_cons_eq (List.append_cancel_left h)

end Namespace

/-! ### One key of two namespaces -/

/-- One namespace goes on where the other has its separator. -/
def Extends (p q : Str) : Prop := p ++ [':'] <+: q

/-- Two keys are one if their namespaces are, or else the longer namespace goes on in the other's key. -/
theorem resolve_eq_iff {a b : Namespace} (ha : a.text ≠ []) (hb : b.text ≠ []) (hlen : a.text.length ≤ b.text.length)
    (k l : Str) : a.resolve k = b.resolve l ↔
      (a = b ∧ k = l) ∨ ∃ rest, b.text = a.text ++ ':' :: rest ∧ k = rest ++ ':' :: l := by
  rw [Namespace.resolve_of_ne ha, Namespace.resolve_of_ne hb]
  constructor
  · intro h
    obtain ⟨rest, hrest⟩ : a.text <+: b.text :=
      List.prefix_of_prefix_length_le ⟨_, h⟩ ⟨_, rfl⟩ hlen
    rw [← hrest, List.append_assoc] at h
    have htail := List.append_cancel_left h
    cases rest with
    | nil =>
      rw [List.append_nil] at hrest
      have hab : a = b := by cases a; cases b; exact congrArg Namespace.mk hrest
      exact .inl ⟨hab, List.tail_eq_of_cons_eq htail⟩
    | cons c rest =>
      obtain ⟨rfl, hk⟩ := List.cons.inj htail
      exact .inr ⟨rest, hrest.symm, hk⟩
  · rintro (⟨rfl, rfl⟩ | ⟨rest, hb, rfl⟩)
    · rfl
    · rw [hb, List.append_assoc]
      rfl

/-- Two namespaces that are accepted never come to one key exactly if neither goes on where the other has
    its separator. -/
theorem keys_disjoint_iff {p q : Str} {a b : Namespace} (hp : Namespace.new p = .ok a)
    (hq : Namespace.new q = .ok b) :
    (∀ k l, a.resolve k = b.resolve l → p = q ∧ k = l) ↔ ¬ Extends p q ∧ ¬ Extends q p := by
  obtain ⟨rfl, hp, -⟩ := Namespace.new_eq_ok hp
  obtain ⟨rfl, hq, -⟩ := Namespace.new_eq_ok hq
  have hne : ∀ {p q : Str} {rest : Str}, q = p ++ ':' :: rest → p ≠ q := by
    intro p q rest h hpq
    have hlen := congrArg List.length (hpq.trans h)
    simp at hlen
  constructor
  · intro h
    refine ⟨?_, ?_⟩
    · rintro ⟨rest, hrest⟩
      rw [List.append_assoc] at hrest
      have heq := (resolve_eq_iff (a := ⟨p⟩) (b := ⟨q⟩) hp hq (by rw [← hrest]; simp) (rest ++ ':' :: []) []).mpr
        (.inr ⟨rest, hrest.symm, rfl⟩)
      exact hne hrest.symm (h _ _ heq).1
    · rintro ⟨rest, hrest⟩
      rw [List.append_assoc] at hrest
      have heq := (resolve_eq_iff (a := ⟨q⟩) (b := ⟨p⟩) hq hp (by rw [← hrest]; simp) (rest ++ ':' :: []) []).mpr
        (.inr ⟨rest, hrest.symm, rfl⟩)
      exact hne hrest.symm (h _ _ heq.symm).1.symm
  · rintro ⟨hpq, hqp⟩ k l heq
    rcases le_total p.length q.length with hlen | hlen
    · rcases (resolve_eq_iff (a := ⟨p⟩) (b := ⟨q⟩) hp hq hlen k l).mp heq with ⟨hab, hkl⟩ | ⟨rest, hrest, -⟩
      · exact ⟨congrArg Namespace.text hab, hkl⟩
      · exact absurd ⟨rest, by simpa using hrest.symm⟩ hpq
    · rcases (resolve_eq_iff (a := ⟨q⟩) (b := ⟨p⟩) hq hp hlen l k).mp heq.symm with ⟨hab, hkl⟩ | ⟨rest, hrest, -⟩
      · exact ⟨(congrArg Namespace.text hab).symm, hkl.symm⟩
      · exact absurd ⟨rest, by simpa using hrest.symm⟩ hqp

/-- `shop` and `blog` are accepted and never come to one key. -/
theorem shop_blog_disjoint : Namespace.new "shop".toList = .ok ⟨"shop".toList⟩ ∧
    Namespace.new "blog".toList = .ok ⟨"blog".toList⟩ ∧
    ∀ k l, (⟨"shop".toList⟩ : Namespace).resolve k = (⟨"blog".toList⟩ : Namespace).resolve l →
      "shop".toList = "blog".toList ∧ k = l := by
  have hshop : Namespace.new "shop".toList = .ok ⟨"shop".toList⟩ := by decide
  have hblog : Namespace.new "blog".toList = .ok ⟨"blog".toList⟩ := by decide
  exact ⟨hshop, hblog, (keys_disjoint_iff hshop hblog).mpr (by simp [Extends])⟩

/-- `shop` and `shop:cart` come to one key, though both are accepted. -/
theorem shop_cart_collide : ¬ ∀ p q a b, Namespace.new p = .ok a → Namespace.new q = .ok b →
    ∀ k l, a.resolve k = b.resolve l → p = q ∧ k = l := by
  intro h
  have hshop : Namespace.new "shop".toList = .ok ⟨"shop".toList⟩ := by decide
  have hcart : Namespace.new "shop:cart".toList = .ok ⟨"shop:cart".toList⟩ := by decide
  have heq := (h _ _ _ _ hshop hcart "cart:7".toList "7".toList (by decide)).1
  exact absurd heq (by decide)

/-! ### One server for two applications -/

/-- What an application asks of its cache. -/
inductive Request where
  | getBytes (key : Str)
  | setBytes (key : Str) (value : Bytes)
  | forget (key : Str)

/-- What it is answered. -/
inductive Answer where
  | value (value : Option Bytes)
  | set
  | forgotten (count : ℕ)

/-- `get_bytes`, `set_bytes` and `forget` of a cache with a namespace. -/
def Namespace.serve (ns : Namespace) (store : Backend) : Request → Backend × Answer
  | .getBytes key => (store, .value ((store.get? (ns.resolve key)).map Entry.value))
  | .setBytes key value => (store.insert (ns.resolve key) ⟨value, .none⟩, .set)
  | .forget key =>
    (store.remove (ns.resolve key), .forgotten (if (store.get? (ns.resolve key)).isSome then 1 else 0))

/-- A server of one application, which needs no namespace. -/
def own : Machine Backend Request Answer := ⟨Map.empty, Namespace.none.serve⟩

/-- A server of two applications. -/
def shared (a b : Namespace) : Machine Backend (Request ⊕ Request) Answer :=
  ⟨Map.empty, fun store => Sum.elim (a.serve store) (b.serve store)⟩

/-- The requests of the first application with their answers. -/
def ofFirst (trace : List ((Request ⊕ Request) × Answer)) : List (Request × Answer) :=
  trace.filterMap fun e => e.1.getLeft?.map (·, e.2)

/-- A server holds under a namespace what another holds. -/
def View (ns : Namespace) (store mine : Backend) : Prop := ∀ key, store.get? (ns.resolve key) = mine.get? key

section Runs
variable {a b : Namespace}

/-- A request does the same in the view, and is answered alike. -/
theorem View.serve {store mine : Backend} (h : View a store mine) (request : Request) :
    (a.serve store request).2 = (Namespace.none.serve mine request).2 ∧
      View a (a.serve store request).1 (Namespace.none.serve mine request).1 := by
  cases request with
  | getBytes key =>
    refine ⟨?_, h⟩
    rw [Namespace.serve, h key]
    rfl
  | setBytes key value =>
    refine ⟨rfl, fun k => ?_⟩
    simp [Namespace.serve, (a.resolve_injective).eq_iff, h k]
  | forget key =>
    refine ⟨?_, fun k => ?_⟩
    · rw [Namespace.serve, h key]
      rfl
    · simp [Namespace.serve, (a.resolve_injective).eq_iff, h k]

/-- A request of another application leaves the view alone. -/
theorem View.serve_other (hab : ∀ k l, a.resolve k ≠ b.resolve l) {store mine : Backend} (h : View a store mine)
    (request : Request) : View a (b.serve store request).1 mine := by
  intro k
  cases request with
  | getBytes key => exact h k
  | setBytes key value => simp [Namespace.serve, hab k key, h k]
  | forget key => simp [Namespace.serve, hab k key, h k]

/-- Where two namespaces have no key in common, an application is answered in every run as if the server
    were its own. -/
theorem answers_alone (hab : ∀ k l, a.resolve k ≠ b.resolve l) (es : List (Request ⊕ Request)) :
    ofFirst ((shared a b).trace es) = own.trace (es.filterMap Sum.getLeft?) := by
  have hrun : ofFirst ((shared a b).trace es) = own.trace (es.filterMap Sum.getLeft?) ∧
      View a ((shared a b).run es) (own.run (es.filterMap Sum.getLeft?)) := by
    induction es using List.reverseRecOn with
    | nil => exact ⟨rfl, fun key => by rw [Machine.run_nil, List.filterMap_nil, Machine.run_nil]; simp [shared, own]⟩
    | append_singleton es e ih =>
      obtain ⟨htrace, hview⟩ := ih
      rw [Machine.trace_concat, ofFirst, List.filterMap_append, ← ofFirst, htrace, Machine.run_concat,
        List.filterMap_append]
      cases e with
      | inl request =>
        obtain ⟨hanswer, hnext⟩ := hview.serve request
        have hmine : [Sum.inl request].filterMap (Sum.getLeft? (β := Request)) = [request] := rfl
        rw [hmine, Machine.trace_concat, Machine.run_concat]
        exact ⟨congrArg (fun x => own.trace _ ++ [(request, x)]) hanswer, hnext⟩
      | inr request =>
        have hmine : [Sum.inr request].filterMap (Sum.getLeft? (α := Request)) = [] := rfl
        rw [hmine, List.append_nil]
        exact ⟨List.append_nil _, hview.serve_other hab request⟩
  exact hrun.1

end Runs

end Arcature.CacheStore

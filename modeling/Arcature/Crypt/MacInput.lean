import Arcature.Crypt.Signer

/-! What the MAC is computed over names what was signed.

    The path and the parameters go in behind their lengths, and the parameters in the order of the
    sort. Equal inputs therefore have equal paths, and parameters that are equal up to order. The
    lengths are written as 64-bit numbers, which is what every string and list in memory has. -/

namespace Arcature.Crypt
open Arcature.Lib

/-- The lengths are 64-bit numbers: those of a string and a list in memory, where no allocation is
    over `isize::MAX` bytes, always are. -/
structure Fits (path : Str) (params : Params) : Prop where
  path : path.len < 2 ^ 64
  count : params.length < 2 ^ 64
  fields : ∀ p ∈ params, p.1.len < 2 ^ 64 ∧ p.2.len < 2 ^ 64

/-! ### The sort -/

theorem sortKey_injective : Function.Injective sortKey := by
  have hbytes : ∀ {s t : Str}, s.bytes.map UInt8.toNat = t.bytes.map UInt8.toNat → s = t := by
    intro s t h
    exact Str.bytes_injective (List.map_injective_iff.mpr (fun _ _ => UInt8.toNat_inj.mp) h)
  intro p q h
  have hpair := Prod.mk.inj (toLex.injective h)
  exact Prod.ext (hbytes hpair.1) (hbytes hpair.2)

theorem perm_sortCanonically (params : Params) : (sortCanonically params).Perm params :=
  List.perm_insertionSort _ params

theorem pairwise_sortCanonically (params : Params) :
    (sortCanonically params).Pairwise fun left right => sortKey left ≤ sortKey right := by
  have : Std.Total fun left right : Str × Str => sortKey left ≤ sortKey right :=
    ⟨fun left right => le_total (sortKey left) (sortKey right)⟩
  have : IsTrans (Str × Str) fun left right => sortKey left ≤ sortKey right :=
    ⟨fun _ _ _ => le_trans⟩
  exact List.pairwise_insertionSort _ params

/-- Lists that are equal up to order are sorted into the same list. -/
theorem sortCanonically_eq_iff {l m : Params} : sortCanonically l = sortCanonically m ↔ l.Perm m := by
  constructor
  · intro h
    exact (perm_sortCanonically l).symm.trans (h ▸ perm_sortCanonically m)
  · intro h
    refine List.Perm.eq_of_pairwise (fun p q _ _ hpq hqp => sortKey_injective (le_antisymm hpq hqp))
      (pairwise_sortCanonically l) (pairwise_sortCanonically m) ?_
    exact (perm_sortCanonically l).trans (h.trans (perm_sortCanonically m).symm)

/-! ### The input -/

/-- The pairs of a list as they go into the MAC. -/
def framed (params : Params) : Bytes :=
  params.flatMap fun (name, value) => frame name.bytes ++ frame value.bytes

theorem framed_inj {l m : Params} (hlen : l.length = m.length)
    (hl : ∀ p ∈ l, p.1.len < 2 ^ 64 ∧ p.2.len < 2 ^ 64)
    (hm : ∀ p ∈ m, p.1.len < 2 ^ 64 ∧ p.2.len < 2 ^ 64) (h : framed l = framed m) : l = m := by
  induction l generalizing m with
  | nil => exact (List.length_eq_zero_iff.mp hlen.symm).symm
  | cons p l ih =>
    obtain ⟨q, m, rfl⟩ := List.exists_cons_of_length_eq_add_one hlen.symm
    obtain ⟨hp, hp'⟩ := hl p (by simp)
    obtain ⟨hq, hq'⟩ := hm q (by simp)
    simp only [framed, List.flatMap_cons, List.append_assoc] at h
    obtain ⟨hname, hrest⟩ := frame_append_inj (by rwa [Str.length_bytes]) (by rwa [Str.length_bytes]) h
    obtain ⟨hvalue, htail⟩ :=
      frame_append_inj (by rwa [Str.length_bytes]) (by rwa [Str.length_bytes]) hrest
    have hpq : p = q := Prod.ext (Str.bytes_injective hname) (Str.bytes_injective hvalue)
    rw [hpq, ih (by simpa using hlen) (fun x hx => hl x (by simp [hx])) (fun x hx => hm x (by simp [hx]))
      htail]

/-- Equal MAC inputs are of equal paths and of parameters equal up to order. -/
theorem macInput_inj {path path' : Str} {params params' : Params} (hfits : Fits path params)
    (hfits' : Fits path' params') (h : macInput path params = macInput path' params') :
    path = path' ∧ params.Perm params' := by
  have hfields : ∀ {path params}, Fits path params → ∀ p ∈ sortCanonically params,
      p.1.len < 2 ^ 64 ∧ p.2.len < 2 ^ 64 := fun hf p hp =>
    hf.fields p ((perm_sortCanonically _).mem_iff.mp hp)
  have hbody := List.append_cancel_left h
  obtain ⟨hpath, hrest⟩ := frame_append_inj (by rw [Str.length_bytes]; exact hfits.path)
    (by rw [Str.length_bytes]; exact hfits'.path) hbody
  obtain ⟨hcount, hpairs⟩ := List.append_inj hrest (by simp)
  have hlen : params.length = params'.length := eq_of_be64 hfits.count hfits'.count hcount
  refine ⟨Str.bytes_injective hpath, sortCanonically_eq_iff.mp ?_⟩
  refine framed_inj ?_ (hfields hfits) (hfields hfits') hpairs
  rw [(perm_sortCanonically params).length_eq, (perm_sortCanonically params').length_eq, hlen]

end Arcature.Crypt

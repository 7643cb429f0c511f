import Mathlib.Algebra.BigOperators.Group.List.Basic
import Mathlib.Data.List.Nodup
import Mathlib.Tactic.SplitIfs

/-!
# Maps that add up the values of a key

A map is a list of pairs with different keys. `add` adds a pair to it: a key that is there gets the
sum of the two values, a new key gets the value of the pair. Merging two maps adds the pairs of one
to the other, one after another.

Lists of pairs are compared by what they add up to. `Same` says that two lists have the same keys
and, for each key, the same sum. It does not look at the order of the pairs or at how a sum is split
into pairs. So adding and merging are appending, up to `Same`, and everything about maps that are
built in parts follows from that.

## Main results

* `same_add`, `same_merge` — adding and merging are appending
* `nodup_merge` — a map stays a map
* `Same.mem_iff` — the pairs of a map
-/

namespace CountMap

variable {κ ν : Type} [DecidableEq κ] [AddCommMonoid ν]

/-- The keys of a list of pairs. -/
def keys (ps : List (κ × ν)) : List κ := ps.map Prod.fst

/-- Add a pair. -/
def add : List (κ × ν) → κ × ν → List (κ × ν)
  | [], p => [p]
  | q :: m, p => if q.1 = p.1 then (q.1, q.2 + p.2) :: m else q :: add m p

/-- Add pairs one after another. -/
def merge (m ps : List (κ × ν)) : List (κ × ν) := ps.foldl add m

/-- What the pairs of a key add up to. -/
def sumOf (ps : List (κ × ν)) (k : κ) : ν :=
  (ps.map fun p => if p.1 = k then p.2 else 0).sum

/-- The lists add up to the same. -/
structure Same (ps qs : List (κ × ν)) : Prop where
  mem : ∀ k, k ∈ keys ps ↔ k ∈ keys qs
  sum : ∀ k, sumOf ps k = sumOf qs k

variable {m ps qs ps' qs' : List (κ × ν)} {p : κ × ν} {k : κ} {v : ν}

omit [DecidableEq κ] [AddCommMonoid ν] in
theorem mem_keys : k ∈ keys ps ↔ ∃ v, (k, v) ∈ ps := by simp [keys]

theorem sumOf_cons : sumOf (p :: ps) k = (if p.1 = k then p.2 else 0) + sumOf ps k := rfl

theorem sumOf_append : sumOf (ps ++ qs) k = sumOf ps k + sumOf qs k := by
  rw [sumOf, List.map_append, List.sum_append]
  rfl

theorem sumOf_eq_zero (h : k ∉ keys ps) : sumOf ps k = 0 := by
  refine List.sum_eq_zero fun v hv => ?_
  obtain ⟨p, hp, rfl⟩ := List.mem_map.mp hv
  exact if_neg fun heq => h (List.mem_map.mpr ⟨p, hp, heq⟩)

/-! ### Lists that add up to the same -/

namespace Same

theorem refl (ps : List (κ × ν)) : Same ps ps := ⟨fun _ => Iff.rfl, fun _ => rfl⟩

theorem symm (h : Same ps qs) : Same qs ps := ⟨fun k => (h.mem k).symm, fun k => (h.sum k).symm⟩

theorem trans (h : Same ps qs) (h' : Same qs qs') : Same ps qs' :=
  ⟨fun k => (h.mem k).trans (h'.mem k), fun k => (h.sum k).trans (h'.sum k)⟩

theorem append (h : Same ps qs) (h' : Same ps' qs') : Same (ps ++ ps') (qs ++ qs') := by
  refine ⟨fun k => ?_, fun k => ?_⟩
  · have hmem := or_congr (h.mem k) (h'.mem k)
    simpa only [keys, List.map_append, List.mem_append] using hmem
  · rw [sumOf_append, sumOf_append, h.sum, h'.sum]

theorem of_perm (h : ps.Perm qs) : Same ps qs :=
  ⟨fun _ => (h.map Prod.fst).mem_iff, fun _ => (h.map _).sum_eq⟩

end Same

/-! ### Adding and merging -/

omit [DecidableEq κ] [AddCommMonoid ν] in
theorem keys_append : keys (ps ++ qs) = keys ps ++ keys qs := List.map_append

theorem mem_keys_add : k ∈ keys (add m p) ↔ k ∈ keys m ∨ k = p.1 := by
  induction m with
  | nil => simp [add, keys]
  | cons q m ih =>
    rw [add]
    split_ifs with heq
    · simp only [keys, List.map_cons, List.mem_cons, heq]
      tauto
    · simp only [keys, List.map_cons, List.mem_cons] at ih ⊢
      rw [ih]
      tauto

theorem sumOf_add : sumOf (add m p) k = sumOf m k + sumOf [p] k := by
  induction m with
  | nil => rw [add, show sumOf ([] : List (κ × ν)) k = 0 from rfl, zero_add]
  | cons q m ih =>
    rw [add]
    split_ifs with heq
    · -- the two pairs of the key are one
      simp only [sumOf_cons, heq, show sumOf ([] : List (κ × ν)) k = 0 from rfl, add_zero]
      split_ifs
      · rw [add_right_comm]
      · rw [zero_add, add_zero]
    · rw [sumOf_cons, sumOf_cons, ih, add_assoc]

/-- **Adding is appending.** -/
theorem same_add (m : List (κ × ν)) (p : κ × ν) : Same (add m p) (m ++ [p]) := by
  refine ⟨fun k => ?_, fun k => sumOf_add.trans sumOf_append.symm⟩
  rw [mem_keys_add, keys_append, List.mem_append]
  exact or_congr Iff.rfl List.mem_singleton.symm

/-- **Merging is appending.** -/
theorem same_merge (m ps : List (κ × ν)) : Same (merge m ps) (m ++ ps) := by
  induction ps generalizing m with
  | nil =>
    rw [List.append_nil]
    exact Same.refl m
  | cons p ps ih =>
    have hadd := (same_add m p).append (Same.refl ps)
    rw [List.append_assoc] at hadd
    exact (ih (add m p)).trans hadd

theorem nodup_add (h : (keys m).Nodup) : (keys (add m p)).Nodup := by
  induction m with
  | nil => exact List.nodup_singleton _
  | cons q m ih =>
    obtain ⟨hnot, hm⟩ := List.nodup_cons.mp h
    rw [add]
    split_ifs with heq
    · exact h
    · refine List.nodup_cons.mpr ⟨fun hmem => ?_, ih hm⟩
      rcases mem_keys_add.mp hmem with hmem | hq
      · exact hnot hmem
      · exact heq hq

/-- A map stays a map. -/
theorem nodup_merge (h : (keys m).Nodup) : (keys (merge m ps)).Nodup := by
  induction ps generalizing m with
  | nil => exact h
  | cons p ps ih => exact ih (nodup_add h)

/-! ### The pairs of a map -/

theorem sumOf_of_mem (h : (keys m).Nodup) (hmem : (k, v) ∈ m) : sumOf m k = v := by
  induction m with
  | nil => cases hmem
  | cons q m ih =>
    obtain ⟨hnot, hm⟩ := List.nodup_cons.mp h
    rw [sumOf_cons]
    rcases List.mem_cons.mp hmem with rfl | hmem
    · rw [if_pos rfl, sumOf_eq_zero hnot, add_zero]
    · have hne : q.1 ≠ k := fun heq => hnot (heq ▸ mem_keys.mpr ⟨v, hmem⟩)
      rw [if_neg hne, zero_add, ih hm hmem]

/-- **The pairs of a map** are the keys with their sums. -/
theorem Same.mem_iff (h : Same m ps) (hm : (keys m).Nodup) :
    (k, v) ∈ m ↔ k ∈ keys ps ∧ v = sumOf ps k := by
  constructor
  · intro hmem
    refine ⟨(h.mem k).mp (mem_keys.mpr ⟨v, hmem⟩), ?_⟩
    rw [← h.sum, sumOf_of_mem hm hmem]
  · rintro ⟨hk, rfl⟩
    obtain ⟨v, hmem⟩ := mem_keys.mp ((h.mem k).mpr hk)
    rw [← h.sum, sumOf_of_mem hm hmem]
    exact hmem

end CountMap

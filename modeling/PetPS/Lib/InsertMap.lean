import Mathlib.Data.List.Induction
import Mathlib.Data.List.Nodup

/-!
# Maps that keep the first value of a key

A map is a list of pairs with different keys. `insert` leaves a key that is there as it is, and
`insertAll` inserts pairs one after another. When the keys of the pairs are different, the order in
which they are inserted does not matter.

## Main results

* `insertAll_of_nodup`, `lookup_insertAll_iff` — pairs with different keys
-/

namespace InsertMap

variable {κ ν : Type} [DecidableEq κ]

/-- Insert a pair, unless the key is there. -/
def insert (m : List (κ × ν)) (p : κ × ν) : List (κ × ν) :=
  if (m.lookup p.1).isSome then m else p :: m

/-- Insert pairs into the empty map. -/
def insertAll (ps : List (κ × ν)) : List (κ × ν) := ps.foldl insert []

theorem lookup_eq_some_iff {m : List (κ × ν)} (h : (m.map Prod.fst).Nodup) {k : κ} {v : ν} :
    m.lookup k = some v ↔ (k, v) ∈ m := by
  induction m with
  | nil => simp
  | cons p m ih =>
    rw [List.map_cons, List.nodup_cons] at h
    obtain ⟨k', v'⟩ := p
    by_cases hk : k = k'
    · subst hk
      have hnot : (k, v) ∉ m := fun hv => h.1 (List.mem_map.mpr ⟨_, hv, rfl⟩)
      simp [hnot, eq_comm]
    · rw [List.lookup_cons, beq_false_of_ne hk]
      simp [hk, ih h.2]

/-- **Pairs with different keys** are all inserted. -/
theorem insertAll_of_nodup {ps : List (κ × ν)} (h : (ps.map Prod.fst).Nodup) :
    insertAll ps = ps.reverse := by
  induction ps using List.reverseRecOn with
  | nil => rfl
  | append_singleton ps p ih =>
    rw [List.map_append, List.map_singleton, List.nodup_append] at h
    have hnone : ps.reverse.lookup p.1 = none := by
      rw [List.lookup_eq_none_iff]
      intro q hq
      have hkey := List.mem_map_of_mem (f := Prod.fst) (List.mem_reverse.mp hq)
      exact bne_iff_ne.mpr (h.2.2 _ hkey _ (List.mem_singleton_self _)).symm
    have hinsert : insertAll (ps ++ [p]) = insert (insertAll ps) p := by
      rw [insertAll, List.foldl_append]
      rfl
    rw [hinsert, ih h.1, insert, hnone, List.reverse_append]
    rfl

theorem length_insertAll {ps : List (κ × ν)} (h : (ps.map Prod.fst).Nodup) :
    (insertAll ps).length = ps.length := by
  rw [insertAll_of_nodup h, List.length_reverse]

/-- What is found is what was inserted, in any order. -/
theorem lookup_insertAll_iff {ps order : List (κ × ν)} (h : (ps.map Prod.fst).Nodup)
    (horder : order.Perm ps) {k : κ} {v : ν} :
    (insertAll order).lookup k = some v ↔ (k, v) ∈ ps := by
  have hnodup : (order.map Prod.fst).Nodup := (horder.map Prod.fst).nodup_iff.mpr h
  rw [insertAll_of_nodup hnodup, lookup_eq_some_iff, List.mem_reverse, horder.mem_iff]
  rw [List.map_reverse, List.nodup_reverse]
  exact hnodup

end InsertMap

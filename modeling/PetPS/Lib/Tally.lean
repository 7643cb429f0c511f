import Mathlib.Algebra.BigOperators.Group.Finset.Basic
import Mathlib.Algebra.BigOperators.Group.Finset.Piecewise
import Mathlib.Data.List.Count
import Mathlib.Tactic.Abel
import Mathlib.Tactic.Ring

/-!
# Tallies: sums that change at one place, and counters that saturate

A sum over slots changes by exactly one term when one slot does; `sum_exchange` says so without
subtraction, in any commutative monoid.

A *saturating counter* below a cap `C` moves by one with each `inc` and `dec` until it reaches `C`,
where it sticks. `Tracks C n plus minus v` says that `n` is stuck or that it accounts for the value
`v`, up to `plus` increments made ahead of time and `minus` still owed. Every increment, decrement
and change of the value is then one entry in the ledger, whatever order they are made in. Equal
entries on the two sides cancel (`Tracks.congr`), and an empty ledger says that the counter is
stuck or exact.

A decrement at `0` wraps to the cap, so it leaves the counter stuck rather than wrong.
-/

namespace Tally

/-- Two families that agree off `a` have sums that differ by their values at `a`. -/
theorem sum_exchange {ι M : Type} [DecidableEq ι] [AddCommMonoid M] {s : Finset ι} {f g : ι → M}
    {a : ι} (ha : a ∈ s) (h : ∀ x ∈ s, x ≠ a → f x = g x) :
    ∑ x ∈ s, f x + g a = ∑ x ∈ s, g x + f a := by
  have herase : ∑ x ∈ s.erase a, f x = ∑ x ∈ s.erase a, g x :=
    Finset.sum_congr rfl fun x hx =>
      h x (Finset.mem_of_mem_erase hx) (Finset.ne_of_mem_erase hx)
  rw [← Finset.add_sum_erase s f ha, ← Finset.add_sum_erase s g ha, herase]
  abel

/-- The classes of a list, taken together. -/
theorem sum_countP {ι α : Type} [DecidableEq ι] {s : Finset ι} {f : α → ι} {l : List α}
    (h : ∀ a ∈ l, f a ∈ s) : ∑ i ∈ s, l.countP (fun a => f a = i) = l.length := by
  induction l with
  | nil => simp
  | cons a l ih =>
    have hrest := ih fun b hb => h b (List.mem_cons_of_mem a hb)
    simp only [List.countP_cons, Finset.sum_add_distrib, hrest, List.length_cons, decide_eq_true_eq,
      Finset.sum_ite_eq, if_pos (h a List.mem_cons_self)]

/-! ### Saturating counters -/

variable {C n plus minus v : ℕ}

/-- Increment, sticking at the cap `C`. -/
def inc (C n : ℕ) : ℕ := if n ≠ C then n + 1 else n

/-- Decrement modulo `C + 1`, sticking at the cap `C`. -/
def dec (C n : ℕ) : ℕ := if n ≠ C then (n + C) % (C + 1) else n

theorem dec_of_pos (h0 : 0 < n) (hn : n < C) : dec C n = n - 1 := by
  rw [dec, if_pos (by omega), show n + C = n - 1 + (C + 1) by omega, Nat.add_mod_right,
    Nat.mod_eq_of_lt (by omega)]

theorem dec_zero : dec C 0 = C := by
  rw [dec]
  split_ifs with h
  · rw [Nat.zero_add, Nat.mod_eq_of_lt (by omega)]
  · omega

theorem le_inc : n ≤ inc C n := by
  rw [inc]; split_ifs <;> omega

theorem inc_pos (hC : 0 < C) : 0 < inc C n := by
  rw [inc]; split_ifs <;> omega

theorem inc_le (h : n ≤ C) : inc C n ≤ C := by
  rw [inc]; split_ifs <;> omega

/-- Increments one after another. -/
theorem inc_iterate (h : n ≤ C) (m : ℕ) : (inc C)^[m] n = min C (n + m) := by
  induction m with
  | zero => exact (Nat.min_eq_right h).symm
  | succ m ih =>
    rw [Function.iterate_succ_apply', ih, inc]
    split_ifs <;> omega

theorem dec_le (h : n ≤ C) : dec C n ≤ C := by
  rw [dec]
  split_ifs with hn
  · exact Nat.lt_succ_iff.mp (Nat.mod_lt _ (by omega))
  · exact h

theorem dec_le_self (h0 : 0 < n) : dec C n ≤ n := by
  rcases Nat.lt_trichotomy n C with hlt | rfl | hgt
  · rw [dec_of_pos h0 hlt]
    omega
  · rw [dec, if_neg (not_not.mpr rfl)]
  · rw [dec, if_pos (by omega), show n + C = n - 1 + (C + 1) by omega, Nat.add_mod_right]
    exact (Nat.mod_le _ _).trans (by omega)

/-- `n` is stuck at the cap, or it is `v` once the `plus` increments made ahead and the `minus`
still owed are accounted for. -/
def Tracks (C n plus minus v : ℕ) : Prop := n = C ∨ n + minus = v + plus

theorem Tracks.inc (h : Tracks C n plus minus v) : Tracks C (inc C n) (plus + 1) minus v := by
  unfold Tracks Tally.inc at *
  split_ifs <;> omega

theorem Tracks.dec (hn : n ≤ C) (h : Tracks C n plus minus v) :
    Tracks C (dec C n) plus (minus + 1) v := by
  rcases Nat.eq_zero_or_pos n with h0 | h0
  · exact Or.inl (by rw [h0, dec_zero])
  rcases Nat.lt_or_eq_of_le hn with hlt | heq
  · rw [dec_of_pos h0 hlt]
    unfold Tracks at *
    omega
  · exact Or.inl (by rw [Tally.dec, if_neg (by simp [heq]), heq])

/-- A change of the tracked value is an entry on the opposite side. -/
theorem Tracks.change {v' a b : ℕ} (h : Tracks C n plus minus v) (hv : v + a = v' + b) :
    Tracks C n (plus + b) (minus + a) v' := by
  unfold Tracks at *
  omega

/-- Only the difference between the two sides matters. -/
theorem Tracks.congr {plus' minus' : ℕ} (h : Tracks C n plus minus v)
    (he : plus + minus' = plus' + minus) : Tracks C n plus' minus' v := by
  unfold Tracks at *
  omega

end Tally

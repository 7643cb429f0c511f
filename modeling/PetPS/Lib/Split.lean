import Mathlib.Data.List.Range
import Mathlib.Order.Lattice

/-!
# Splitting a range among workers

`n` indices are split into parts of `⌈n / t⌉`, and worker `i` of `t` gets the `i`-th of them. The
last parts are shorter, or empty, and a part may start behind the end of the range. Taken together
the parts are the range, each index once and in order.

## Main results

* `flatMap_part` — the parts of all workers
* `mem_part` — an index of a part is an index
-/

namespace Split

/-- The number of indices of a part. -/
def perPart (n t : ℕ) : ℕ := (n + t - 1) / t

/-- The indices of part `i`. -/
def part (n t i : ℕ) : List ℕ :=
  List.range' (i * perPart n t) (min ((i + 1) * perPart n t) n - i * perPart n t)

variable {n t i j : ℕ}

/-- The first `k` parts. -/
theorem flatMap_part_range (n t k : ℕ) :
    (List.range k).flatMap (part n t) = List.range (min (k * perPart n t) n) := by
  induction k with
  | zero => simp
  | succ k ih =>
    rw [List.range_succ, List.flatMap_append, ih, List.flatMap_singleton, part]
    generalize perPart n t = q
    have hstep : k * q ≤ (k + 1) * q := Nat.mul_le_mul_right q (Nat.le_succ k)
    rcases le_total (k * q) n with hle | hle
    · have hsum : k * q + (min ((k + 1) * q) n - k * q) = min ((k + 1) * q) n :=
        Nat.add_sub_of_le (le_min hstep hle)
      have happ := List.range'_append_1 (s := 0) (m := k * q) (n := min ((k + 1) * q) n - k * q)
      rw [Nat.zero_add, hsum] at happ
      rw [min_eq_left hle, List.range_eq_range', List.range_eq_range', happ]
    · -- the part starts behind the end
      rw [min_eq_right hle, min_eq_right (hle.trans hstep), Nat.sub_eq_zero_of_le hle,
        List.range'_zero, List.append_nil]

theorem le_mul_perPart (ht : 0 < t) : n ≤ t * perPart n t := by
  have hlt := Nat.lt_mul_div_succ (n + t - 1) ht
  rw [Nat.mul_succ] at hlt
  rw [perPart]
  omega

/-- **The parts are the range.** -/
theorem flatMap_part (n : ℕ) (ht : 0 < t) : (List.range t).flatMap (part n t) = List.range n := by
  rw [flatMap_part_range, min_eq_right (le_mul_perPart ht)]

/-- An index of a part is an index. -/
theorem mem_part (h : j ∈ part n t i) : j < n := by
  obtain ⟨hle, hlt⟩ := List.mem_range'_1.mp h
  omega

end Split

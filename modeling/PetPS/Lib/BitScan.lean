import Mathlib.Data.Nat.Bitwise
import Mathlib.Data.List.Range
import Mathlib.Tactic.Ring

/-!
# Scanning the set bits of a word

Trailing-zero counts, and the loop that visits the set bits of a mask from the lowest one up by
clearing `mask & (mask - 1)` at each turn. Words are natural numbers below `2 ^ w`.

## Main results

* `ctz_lt`, `testBit_ctz`, `testBit_of_lt_ctz` — `ctz` is the index of the lowest set bit
* `testBit_and_sub_one` — `x &&& (x - 1)` drops exactly the lowest set bit
* `findBit_eq_find?` — the scanning loop is `List.find?` over the bit positions in order
-/

namespace BitScan

/-- The trailing-zero count of a `w`-bit word: the index of its lowest set bit. -/
def ctz (w x : ℕ) : ℕ := ((List.range w).find? x.testBit).getD w

theorem exists_testBit {x : ℕ} (h : x ≠ 0) : ∃ i, x.testBit i = true := by
  by_contra hcon
  exact h (Nat.eq_of_testBit_eq fun i => by simpa using fun hi => hcon ⟨i, hi⟩)

theorem find?_testBit_isSome {w x : ℕ} (hx : x < 2 ^ w) (h : x ≠ 0) :
    ∃ i, (List.range w).find? x.testBit = some i := by
  obtain ⟨i, hi⟩ := exists_testBit h
  have hiw : i < w := by
    by_contra hge
    have hlt : x < 2 ^ i := lt_of_lt_of_le hx (Nat.pow_le_pow_right (by norm_num) (by omega))
    rw [Nat.testBit_lt_two_pow hlt] at hi
    exact absurd hi (by simp)
  exact Option.isSome_iff_exists.mp (List.find?_isSome.mpr ⟨i, List.mem_range.mpr hiw, hi⟩)

/-- The three facts about a trailing-zero count, read off `List.find?`. -/
theorem ctz_spec {w x : ℕ} (hx : x < 2 ^ w) (h : x ≠ 0) :
    x.testBit (ctz w x) = true ∧ ctz w x < w ∧ ∀ j < ctz w x, x.testBit j = false := by
  obtain ⟨i, hi⟩ := find?_testBit_isSome hx h
  have hctz : ctz w x = i := by rw [ctz, hi, Option.getD_some]
  obtain ⟨hbit, hmem, hmin⟩ := List.find?_range_eq_some.mp hi
  rw [hctz]
  exact ⟨hbit, List.mem_range.mp hmem, fun j hj => by simpa using hmin j hj⟩

theorem testBit_ctz {w x : ℕ} (hx : x < 2 ^ w) (h : x ≠ 0) : x.testBit (ctz w x) = true :=
  (ctz_spec hx h).1

theorem ctz_lt {w x : ℕ} (hx : x < 2 ^ w) (h : x ≠ 0) : ctz w x < w := (ctz_spec hx h).2.1

theorem testBit_of_lt_ctz {w x j : ℕ} (hx : x < 2 ^ w) (h : x ≠ 0) (hj : j < ctz w x) :
    x.testBit j = false :=
  (ctz_spec hx h).2.2 j hj

/-- **Clearing the lowest set bit.** The induction is on the position of that bit: an odd number
loses its last digit, and an even one passes the question on to its half. -/
theorem testBit_and_sub_one {i : ℕ} : ∀ {x : ℕ}, x.testBit i = true →
    (∀ j < i, x.testBit j = false) → ∀ j,
      (x &&& (x - 1)).testBit j = (x.testBit j && decide (j ≠ i)) := by
  induction i with
  | zero =>
    intro x hbit _ j
    have hodd : x % 2 = 1 := by simpa [Nat.testBit_zero] using hbit
    rw [Nat.testBit_and]
    cases j with
    | zero => simp [Nat.testBit_zero]; omega
    | succ j =>
      rw [Nat.testBit_succ, Nat.testBit_succ, show (x - 1) / 2 = x / 2 by omega]
      simp
  | succ i ih =>
    intro x hbit hmin j
    have heven : x % 2 = 0 := by
      have h0 := hmin 0 (by omega)
      rw [Nat.testBit_zero] at h0
      have : ¬ x % 2 = 1 := by simpa using h0
      omega
    have hhalf : (x / 2).testBit i = true := by rwa [← Nat.testBit_succ]
    have hpos : x / 2 ≠ 0 := by
      intro h0
      rw [h0, Nat.zero_testBit] at hhalf
      exact absurd hhalf (by simp)
    have hlow : ∀ k < i, (x / 2).testBit k = false := fun k hk => by
      rw [← Nat.testBit_succ]; exact hmin (k + 1) (by omega)
    rw [Nat.testBit_and]
    cases j with
    | zero => simp [Nat.testBit_zero, heven]
    | succ j =>
      have := ih hhalf hlow j
      rw [Nat.testBit_and] at this
      rw [Nat.testBit_succ, Nat.testBit_succ, show (x - 1) / 2 = x / 2 - 1 by omega, this]
      simp

/-- Scan the set bits of `mask` upwards for one that satisfies `p`, clearing each visited bit with
`mask & (mask - 1)`. The fuel bounds the number of visited bits. -/
def findBit (w : ℕ) (p : ℕ → Bool) : ℕ → ℕ → Option ℕ
  | 0, _ => none
  | fuel + 1, mask =>
    if mask = 0 then none
    else if p (ctz w mask) then some (ctz w mask)
    else findBit w p fuel (mask &&& (mask - 1))

/-- **The scan is a search over the positions in order.** The invariant of the induction is that
the bits still set lie at or above `w - fuel`, so each turn pays for the position it clears. -/
theorem findBit_eq_find? {w : ℕ} {p : ℕ → Bool} : ∀ {fuel mask : ℕ}, mask < 2 ^ w →
    (∀ i, mask.testBit i = true → w ≤ i + fuel) →
    findBit w p fuel mask = (List.range w).find? (fun i => mask.testBit i && p i) := by
  intro fuel
  induction fuel with
  | zero =>
    intro mask hlt hlow
    symm
    rw [findBit, List.find?_range_eq_none]
    intro i hi
    cases hb : mask.testBit i with
    | false => simp
    | true => have := hlow i hb; omega
  | succ fuel ih =>
    intro mask hlt hlow
    rw [findBit]
    split_ifs with h0 hp
    · subst h0
      symm
      simp
    · symm
      rw [List.find?_range_eq_some]
      refine ⟨by simp [testBit_ctz hlt h0, hp], List.mem_range.mpr (ctz_lt hlt h0), fun j hj => ?_⟩
      simp [testBit_of_lt_ctz hlt h0 hj]
    · have hclear := testBit_and_sub_one (testBit_ctz hlt h0) fun j => testBit_of_lt_ctz hlt h0
      rw [ih (lt_of_le_of_lt Nat.and_le_left hlt) ?_]
      · refine congrArg (fun q => (List.range w).find? q) (funext fun j => ?_)
        rw [hclear j]
        by_cases hj : j = ctz w mask
        · subst hj; simp [hp]
        · simp [hj]
      · intro j hj
        rw [hclear j] at hj
        simp only [Bool.and_eq_true, decide_eq_true_eq] at hj
        have h1 := hlow (ctz w mask) (testBit_ctz hlt h0)
        have h2 : ¬ j < ctz w mask := fun hc => by
          rw [testBit_of_lt_ctz hlt h0 hc] at hj
          exact absurd hj.1 (by simp)
        have h3 := hj.2
        omega

end BitScan

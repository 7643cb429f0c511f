import Mathlib.Algebra.BigOperators.Group.List.Basic
import Mathlib.Algebra.Order.BigOperators.Group.List
import Mathlib.Algebra.Ring.Nat
import PetPS.Lib.Run

/-!
# Threads over a shared state

A thread is its local state, and `move s l` is its next step from the shared state `s`; it is `none`
when the thread has finished. A schedule is the list of the numbers of the threads that move,
so that the runs of `step move` are the interleavings of the threads.

Invariants are stated over the shared state and sums over the local states: what all threads
together have still to do. `sum_set` says how such a sum changes with one thread.

## Main results

* `step_cases` — what a step of the system is
* `stuck_iff` — the system stops when all threads have
* `sum_set`, `countP_set` — sums over the threads
* `filterMap_set_perm`, `filterMap_perm_set` — a thread gets a value, and loses it
* `eq_of_countP_le_one` — a property that at most one thread has
* `flatten_set_perm` — the work that the threads have left
-/

namespace Threads

variable {σ L : Type} {move : σ → L → Option (σ × L)}

/-- Thread `i` moves. -/
def step (move : σ → L → Option (σ × L)) (s : σ × List L) (i : ℕ) : Option (σ × List L) :=
  match s.2[i]? with
  | none => none
  | some l => (move s.1 l).map fun r => (r.1, s.2.set i r.2)

theorem step_cases {s s' : σ × List L} {i : ℕ} (h : step move s i = some s') :
    ∃ l l', s.2[i]? = some l ∧ move s.1 l = some (s'.1, l') ∧ s'.2 = s.2.set i l' := by
  rw [step] at h
  cases hl : s.2[i]? with
  | none => rw [hl] at h; cases h
  | some l =>
    rw [hl] at h
    obtain ⟨⟨s₁, l'⟩, hmove, rfl⟩ := Option.map_eq_some_iff.mp h
    exact ⟨l, l', rfl, hmove, rfl⟩

/-- **The system stops when all threads have.** -/
theorem stuck_iff {s : σ × List L} :
    (∀ i, step move s i = none) ↔ ∀ l ∈ s.2, move s.1 l = none := by
  constructor
  · intro h l hl
    obtain ⟨i, hi⟩ := List.mem_iff_getElem?.mp hl
    have hstep := h i
    simpa only [step, hi, Option.map_eq_none_iff] using hstep
  · intro h i
    rw [step]
    cases hl : s.2[i]? with
    | none => rfl
    | some l => simp only [h l (List.mem_of_getElem? hl), Option.map_none]

/-- A property of all threads, after one has moved. -/
theorem forall_set {P : L → Prop} {ls : List L} {i : ℕ} {l' : L} (h : ∀ l ∈ ls, P l) (hl' : P l') :
    ∀ l ∈ ls.set i l', P l := by
  intro l hl
  rcases List.mem_or_eq_of_mem_set hl with hin | rfl
  · exact h l hin
  · exact hl'

/-- **A sum over the threads** is the term of the thread that moves and a rest that does not
change. -/
theorem sum_set {M : Type} [AddCommMonoid M] (f : L → M) {ls : List L} {i : ℕ} {l : L}
    (h : ls[i]? = some l) :
    ∃ rest, (ls.map f).sum = f l + rest ∧ ∀ l', ((ls.set i l').map f).sum = f l' + rest := by
  induction ls generalizing i with
  | nil => cases h
  | cons a ls ih =>
    cases i with
    | zero =>
      obtain rfl := Option.some.inj h
      exact ⟨(ls.map f).sum, by simp, fun l' => by simp⟩
    | succ i =>
      obtain ⟨rest, hsum, hset⟩ := ih (i := i) h
      refine ⟨f a + rest, ?_, fun l' => ?_⟩
      · rw [List.map_cons, List.sum_cons, hsum, add_left_comm]
      · rw [List.set_cons_succ, List.map_cons, List.sum_cons, hset, add_left_comm]

/-- **The number of threads** with a property, after one has moved. -/
theorem countP_set (p : L → Bool) {ls : List L} {i : ℕ} {l : L} (h : ls[i]? = some l) (l' : L) :
    (ls.set i l').countP p + (if p l then 1 else 0) = ls.countP p + if p l' then 1 else 0 := by
  obtain ⟨hi, rfl⟩ := List.getElem?_eq_some_iff.mp h
  have hpos : p ls[i] = true → 0 < ls.countP p := fun hp =>
    List.countP_pos_iff.mpr ⟨_, List.getElem_mem hi, hp⟩
  rw [List.countP_set hi]
  split_ifs with hp <;> first
    | omega
    | have := hpos hp
      omega

/-- The thread that has moved is one of the threads. -/
theorem mem_set {ls : List L} {i : ℕ} {l : L} (h : ls[i]? = some l) (l' : L) :
    l' ∈ ls.set i l' := by
  obtain ⟨hi, -⟩ := List.getElem?_eq_some_iff.mp h
  exact List.mem_iff_getElem.mpr ⟨i, by rwa [List.length_set], List.getElem_set_self _⟩

/-- The other threads stay. -/
theorem mem_set_or_eq {ls : List L} {i : ℕ} {l a : L} (h : ls[i]? = some l) (ha : a ∈ ls) (l' : L) :
    a ∈ ls.set i l' ∨ a = l := by
  obtain ⟨j, hj⟩ := List.mem_iff_getElem?.mp ha
  by_cases hij : i = j
  · subst hij
    exact Or.inr (Option.some.inj (hj.symm.trans h))
  · refine Or.inl (List.mem_iff_getElem?.mpr ⟨j, ?_⟩)
    rw [List.getElem?_set_ne hij]
    exact hj

/-- The threads after one of them has been changed by `f`. -/
theorem mem_modify {f : L → L} {ls : List L} {i : ℕ} {l : L} (h : l ∈ ls.modify i f) :
    l ∈ ls ∨ ∃ l₀, ls[i]? = some l₀ ∧ l = f l₀ := by
  obtain ⟨j, hj⟩ := List.mem_iff_getElem?.mp h
  rw [List.getElem?_modify, Option.map_eq_map, Option.map_eq_some_iff] at hj
  obtain ⟨l₀, hl₀, hl⟩ := hj
  split_ifs at hl with hij
  · exact Or.inr ⟨l₀, hij ▸ hl₀, hl.symm⟩
  · exact Or.inl (hl ▸ List.mem_of_getElem? hl₀)

theorem filterMap_set_of_eq {A : Type} {f : L → Option A} {ls : List L} {i : ℕ} {l l' : L}
    (h : ls[i]? = some l) (heq : f l' = f l) : (ls.set i l').filterMap f = ls.filterMap f := by
  induction ls generalizing i with
  | nil => cases h
  | cons a ls ih =>
    cases i with
    | zero =>
      obtain rfl := Option.some.inj h
      simp only [List.set_cons_zero, List.filterMap_cons, heq]
    | succ i => simp only [List.set_cons_succ, List.filterMap_cons, ih (i := i) h]

/-- **A thread gets a value** that it did not have. -/
theorem filterMap_set_perm {A : Type} {f : L → Option A} {ls : List L} {i : ℕ} {l l' : L} {x : A}
    (h : ls[i]? = some l) (hl : f l = none) (hl' : f l' = some x) :
    ((ls.set i l').filterMap f).Perm (x :: ls.filterMap f) := by
  induction ls generalizing i with
  | nil => cases h
  | cons a ls ih =>
    cases i with
    | zero =>
      obtain rfl := Option.some.inj h
      rw [List.set_cons_zero, List.filterMap_cons_some hl', List.filterMap_cons_none hl]
    | succ i =>
      rw [List.set_cons_succ]
      cases ha : f a with
      | none =>
        rw [List.filterMap_cons_none ha, List.filterMap_cons_none ha]
        exact ih (i := i) h
      | some y =>
        rw [List.filterMap_cons_some ha, List.filterMap_cons_some ha]
        exact ((ih (i := i) h).cons y).trans (List.Perm.swap x y _)

/-- **A thread loses a value** that it had. -/
theorem filterMap_perm_set {A : Type} {f : L → Option A} {ls : List L} {i : ℕ} {l l' : L} {x : A}
    (h : ls[i]? = some l) (hl : f l = some x) (hl' : f l' = none) :
    (ls.filterMap f).Perm (x :: (ls.set i l').filterMap f) := by
  obtain ⟨hi, rfl⟩ := List.getElem?_eq_some_iff.mp h
  have hset : (ls.set i l')[i]? = some l' := List.getElem?_set_self hi
  have hperm := filterMap_set_perm hset hl' hl
  rwa [List.set_set, List.set_getElem_self] at hperm

/-- **At most one thread** has the property. -/
theorem eq_of_countP_le_one {p : L → Bool} {ls : List L} (h : ls.countP p ≤ 1) {i j : ℕ} {a b : L}
    (hi : ls[i]? = some a) (hj : ls[j]? = some b) (ha : p a = true) (hb : p b = true) : i = j := by
  induction ls generalizing i j with
  | nil => cases hi
  | cons x ls ih =>
    rw [List.countP_cons] at h
    cases i with
    | zero =>
      obtain rfl := Option.some.inj hi
      cases j with
      | zero => rfl
      | succ j =>
        have hpos := List.countP_pos_iff.mpr ⟨b, List.mem_of_getElem? (i := j) hj, hb⟩
        rw [if_pos ha] at h
        omega
    | succ i =>
      cases j with
      | zero =>
        obtain rfl := Option.some.inj hj
        have hpos := List.countP_pos_iff.mpr ⟨a, List.mem_of_getElem? (i := i) hi, ha⟩
        rw [if_pos hb] at h
        omega
      | succ j => exact congrArg _ (ih (by omega) (i := i) (j := j) hi hj)

/-- **The work that is left** when a thread has taken the first piece of its own. -/
theorem flatten_set_perm {ls : List (List L)} {i : ℕ} {x : L} {l : List L}
    (h : ls[i]? = some (x :: l)) : ls.flatten.Perm (x :: (ls.set i l).flatten) := by
  induction ls generalizing i with
  | nil => cases h
  | cons a ls ih =>
    cases i with
    | zero =>
      obtain rfl := Option.some.inj h
      exact List.Perm.refl _
    | succ i => exact ((ih (i := i) h).append_left a).trans List.perm_middle

end Threads

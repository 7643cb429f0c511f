import Mathlib.Data.Nat.ModEq
import Mathlib.Data.List.Iterate
import Mathlib.Data.List.Range
import Mathlib.Data.Finset.Card
import Mathlib.Order.Interval.Finset.Nat
import Mathlib.Tactic.Ring

/-!
# Walking a cyclic array with a fixed stride

Two things a probing scheme rests on. The first is the loop

```
while (a != target) { body(a); a = next(a); }
```

whose effect is a fold of `body` over the places it leaves behind. The second is the walk
`home, home + step, home + 2 * step, …` modulo `N`, which meets every place exactly once in its
first `N` turns as soon as `step` is coprime to `N`. Together they say that the loop ends, and
which places it touches.

## Main results

* `whileNe_eq_foldl` — the loop, once the number of turns is known
* `strideAt_injOn`, `exists_strideAt_eq` — the walk is a full cycle
* `steps_lt`, `strideAt_steps`, `steps_strideAt` — `steps` is the inverse of the walk
* `whileNe_stride` — the loop along a walk folds over `trail`, the places met before the target
-/

namespace Walk

/-! ### The loop -/

section Loop

variable {α σ : Type} [DecidableEq α]

/-- `while (a != target) { s = body a s; a = next a; }`, for at most `fuel` tests of the
condition. -/
def whileNe (next : α → α) (body : α → σ → σ) (target : α) : ℕ → α → σ → Option σ
  | 0, _, _ => none
  | fuel + 1, a, s =>
    if a = target then some s else whileNe next body target fuel (next a) (body a s)

theorem whileNe_eq_foldl {next : α → α} {body : α → σ → σ} {target : α} :
    ∀ {d fuel : ℕ} {a : α} {s : σ}, next^[d] a = target → (∀ i < d, next^[i] a ≠ target) →
      d < fuel →
      whileNe next body target fuel a s
        = some ((List.iterate next a d).foldl (fun s x => body x s) s) := by
  intro d
  induction d with
  | zero =>
    intro fuel a s hd _ hf
    obtain ⟨fuel, rfl⟩ := Nat.exists_eq_add_of_lt hf
    rw [show 0 + fuel + 1 = fuel + 1 by omega, whileNe, if_pos (by simpa using hd)]
    simp [List.iterate]
  | succ d ih =>
    intro fuel a s hd hne hf
    obtain ⟨fuel, rfl⟩ : ∃ m, fuel = m + 1 := ⟨fuel - 1, by omega⟩
    have h0 : a ≠ target := by simpa using hne 0 (by omega)
    rw [whileNe, if_neg h0, ih (by simpa using hd) (fun i hi => ?_) (by omega)]
    · simp [List.iterate]
    · simpa using hne (i + 1) (by omega)

/-- The places a loop comes to, collected by the loop itself. -/
theorem whileNe_places {next : α → α} {body : α → σ → σ} {target : α} :
    ∀ {fuel : ℕ} {a : α} {s s' : σ} (seen : List α), whileNe next body target fuel a s = some s' →
      ∃ places, whileNe next (fun x xs => xs ++ [x]) target fuel a seen = some (seen ++ places) ∧
        s' = places.foldl (fun s x => body x s) s := by
  intro fuel
  induction fuel with
  | zero => intro a s s' seen h; cases h
  | succ fuel ih =>
    intro a s s' seen h
    rw [whileNe] at h ⊢
    split_ifs at h ⊢ with hend
    · exact ⟨[], by rw [List.append_nil], (Option.some.inj h).symm⟩
    · obtain ⟨places, hplaces, hs'⟩ := ih (seen ++ [a]) h
      exact ⟨a :: places, by rw [hplaces, List.append_assoc, List.singleton_append], hs'⟩

end Loop

/-! ### The stride -/

variable {N step home p c i j : ℕ}

/-- One turn of the walk. -/
def stride (N step p : ℕ) : ℕ := (p + step) % N

/-- The place met after `i` turns. -/
def strideAt (N step home i : ℕ) : ℕ := (home + i * step) % N

theorem strideAt_lt (hN : 0 < N) : strideAt N step home i < N := Nat.mod_lt _ hN

theorem strideAt_zero (h : home < N) : strideAt N step home 0 = home := by
  simp [strideAt, Nat.mod_eq_of_lt h]

theorem stride_strideAt :
    stride N step (strideAt N step home i) = strideAt N step home (i + 1) := by
  rw [stride, strideAt, strideAt, Nat.mod_add_mod, show home + (i + 1) * step
    = home + i * step + step by ring]

theorem iterate_stride (h : home < N) : ∀ i, (stride N step)^[i] home = strideAt N step home i := by
  intro i
  induction i with
  | zero => rw [strideAt_zero h]; rfl
  | succ i ih => rw [Function.iterate_succ_apply', ih, stride_strideAt]

/-- Starting from a place already met only shifts the count of turns. -/
theorem strideAt_strideAt :
    strideAt N step (strideAt N step home i) j = strideAt N step home (i + j) := by
  rw [strideAt, strideAt, strideAt, Nat.mod_add_mod, show home + i * step + j * step
    = home + (i + j) * step by ring]

/-- After `N` turns the walk is back home. -/
theorem strideAt_add_self : strideAt N step home (i + N) = strideAt N step home i := by
  rw [strideAt, strideAt, show home + (i + N) * step = home + i * step + N * step by ring,
    Nat.add_mul_mod_self_left]

/-- **No place is met twice in `N` turns.** -/
theorem strideAt_injOn (hc : N.Coprime step) (hi : i < N) (hj : j < N)
    (h : strideAt N step home i = strideAt N step home j) : i = j := by
  have hmod : home + i * step ≡ home + j * step [MOD N] := h
  have hcancel : i ≡ j [MOD N] :=
    Nat.ModEq.cancel_right_of_coprime hc (Nat.ModEq.add_left_cancel' home hmod)
  rwa [Nat.ModEq, Nat.mod_eq_of_lt hi, Nat.mod_eq_of_lt hj] at hcancel

/-- **Every place is met within `N` turns.** -/
theorem exists_strideAt_eq (home : ℕ) (hc : N.Coprime step) (hp : p < N) :
    ∃ i < N, strideAt N step home i = p := by
  have hmaps : Set.MapsTo (strideAt N step home) (Finset.range N) (Finset.range N) :=
    fun i _ => Finset.mem_coe.mpr (Finset.mem_range.mpr (strideAt_lt (by omega)))
  have hinj : Set.InjOn (strideAt N step home) (Finset.range N) := fun i hi j hj h =>
    strideAt_injOn hc (Finset.mem_range.mp (Finset.mem_coe.mp hi))
      (Finset.mem_range.mp (Finset.mem_coe.mp hj)) h
  obtain ⟨i, hi, h⟩ := Finset.surjOn_of_injOn_of_card_le _ hmaps hinj le_rfl
    (Finset.mem_coe.mpr (Finset.mem_range.mpr hp))
  exact ⟨i, Finset.mem_range.mp (Finset.mem_coe.mp hi), h⟩

/-! ### Counting the turns -/

/-- The number of turns after which the walk from `home` first meets `p`. -/
def steps (N step home p : ℕ) : ℕ :=
  ((List.range N).find? fun i => strideAt N step home i == p).getD N

theorem steps_spec (hc : N.Coprime step) (hp : p < N) :
    steps N step home p < N ∧ strideAt N step home (steps N step home p) = p := by
  obtain ⟨i, hi, h⟩ := exists_strideAt_eq home hc hp
  obtain ⟨k, hk⟩ : ∃ k, (List.range N).find? (fun i => strideAt N step home i == p) = some k :=
    Option.isSome_iff_exists.mp
      (List.find?_isSome.mpr ⟨i, List.mem_range.mpr hi, by simpa using h⟩)
  obtain ⟨hkp, hkN, -⟩ := List.find?_range_eq_some.mp hk
  rw [steps, hk, Option.getD_some]
  exact ⟨List.mem_range.mp hkN, by simpa using hkp⟩

theorem steps_lt (home : ℕ) (hc : N.Coprime step) (hp : p < N) : steps N step home p < N :=
  (steps_spec hc hp).1

theorem strideAt_steps (home : ℕ) (hc : N.Coprime step) (hp : p < N) :
    strideAt N step home (steps N step home p) = p :=
  (steps_spec hc hp).2

theorem steps_strideAt (hc : N.Coprime step) (hi : i < N) :
    steps N step home (strideAt N step home i) = i := by
  have hN : 0 < N := by omega
  exact strideAt_injOn hc (steps_lt home hc (strideAt_lt hN)) hi
    (strideAt_steps home hc (strideAt_lt hN))

theorem steps_home (hc : N.Coprime step) (h : home < N) : steps N step home home = 0 := by
  have hzero : steps N step home (strideAt N step home 0) = 0 := steps_strideAt hc (by omega)
  rwa [strideAt_zero h] at hzero

theorem steps_injOn (hc : N.Coprime step) (hp : p < N) (hcN : c < N)
    (h : steps N step home p = steps N step home c) : p = c := by
  rw [← strideAt_steps home hc hp, h, strideAt_steps home hc hcN]

/-! ### The trail -/

/-- The places met strictly before `p`, in order. -/
def trail (N step home p : ℕ) : List ℕ := List.iterate (stride N step) home (steps N step home p)

theorem mem_trail (hc : N.Coprime step) (h : home < N) (hp : p < N) (hcN : c < N) :
    c ∈ trail N step home p ↔ steps N step home c < steps N step home p := by
  rw [trail, List.mem_iterate]
  constructor
  · rintro ⟨m, hm, rfl⟩
    rwa [iterate_stride h, steps_strideAt hc (lt_trans hm (steps_lt home hc hp))]
  · intro hlt
    exact ⟨_, hlt, by rw [iterate_stride h, strideAt_steps home hc hcN]⟩

theorem lt_of_mem_trail (h : home < N) (hm : c ∈ trail N step home p) : c < N := by
  obtain ⟨m, -, rfl⟩ := List.mem_iterate.mp hm
  rw [iterate_stride h]
  exact strideAt_lt (by omega)

theorem iterate_eq_map_range {α : Type} (f : α → α) :
    ∀ (n : ℕ) (a : α), List.iterate f a n = (List.range n).map fun i => f^[i] a := by
  intro n
  induction n with
  | zero => intro a; rfl
  | succ n ih =>
    intro a
    rw [List.iterate, ih, List.range_succ_eq_map, List.map_cons, List.map_map]
    rfl

theorem trail_eq_map (h : home < N) :
    trail N step home p = (List.range (steps N step home p)).map (strideAt N step home) := by
  rw [trail, iterate_eq_map_range]
  exact List.map_congr_left fun i _ => iterate_stride h i

theorem nodup_trail (hc : N.Coprime step) (h : home < N) (hp : p < N) :
    (trail N step home p).Nodup := by
  rw [trail_eq_map h]
  refine List.Nodup.map_on (fun i hi j hj hij => ?_) List.nodup_range
  have hlt := steps_lt home hc hp
  exact strideAt_injOn hc (lt_trans (List.mem_range.mp hi) hlt)
    (lt_trans (List.mem_range.mp hj) hlt) hij

theorem count_trail (hc : N.Coprime step) (h : home < N) (hp : p < N) (hcN : c < N) :
    (trail N step home p).count c = if steps N step home c < steps N step home p then 1 else 0 := by
  rw [(nodup_trail hc h hp).count]
  exact if_congr (mem_trail hc h hp hcN) rfl rfl

theorem trail_self (hc : N.Coprime step) (h : p < N) : trail N step p p = [] := by
  rw [trail_eq_map h, steps_home hc h]
  rfl

/-- The trail from a place is that place and the trail from the next one. -/
theorem trail_of_ne (hc : N.Coprime step) (h : home < N) (hp : p < N) (hne : home ≠ p) :
    trail N step home p = home :: trail N step (stride N step home) p := by
  have hat := strideAt_steps home hc hp
  have hlt := steps_lt home hc hp
  obtain ⟨d, hd⟩ : ∃ d, steps N step home p = d + 1 := by
    refine Nat.exists_eq_succ_of_ne_zero fun h0 => hne ?_
    rw [← hat, h0, strideAt_zero h]
  have hnext : strideAt N step (stride N step home) d = p := by
    have hzero : strideAt N step home 0 = home := strideAt_zero h
    rw [← hzero, stride_strideAt, strideAt_strideAt, ← hat, hd, Nat.add_comm]
  have hsteps : steps N step (stride N step home) p = d := by
    rw [← hnext]
    exact steps_strideAt hc (by omega)
  rw [trail, trail, hd, hsteps, List.iterate]

/-- **The loop along a walk** ends within `N` tests and folds over the trail of its target. -/
theorem whileNe_stride {σ : Type} {body : ℕ → σ → σ} {s : σ} (hc : N.Coprime step) (h : home < N)
    (hp : p < N) :
    whileNe (stride N step) body p N home s
      = some ((trail N step home p).foldl (fun s x => body x s) s) := by
  refine whileNe_eq_foldl ?_ (fun i hi => ?_) (steps_lt home hc hp)
  · rw [iterate_stride h, strideAt_steps home hc hp]
  · rw [iterate_stride h]
    intro heq
    have hlt := steps_lt home hc hp
    rw [← heq, steps_strideAt hc (lt_trans hi (heq ▸ hlt))] at hi
    exact lt_irrefl _ hi

/-! ### Walking back -/

variable {prev : ℕ → ℕ}

/-- The places from `p` back to `home`, both included. -/
def chain (N step home p : ℕ) : List ℕ :=
  (List.range (steps N step home p + 1)).map fun i => strideAt N step home (steps N step home p - i)

theorem iterate_back (home : ℕ) (hN : 0 < N) (hprev : ∀ q < N, prev (stride N step q) = q) :
    ∀ {d i : ℕ}, i ≤ d → prev^[i] (strideAt N step home d) = strideAt N step home (d - i) := by
  intro d i
  induction i with
  | zero => exact fun _ => rfl
  | succ i ih =>
    intro hi
    rw [Function.iterate_succ_apply', ih (by omega), show d - i = d - (i + 1) + 1 by omega,
      ← stride_strideAt, hprev _ (strideAt_lt hN)]

/-- **The loop back along a walk**, followed by one more turn of the body at `home`. -/
theorem whileNe_back {σ : Type} (body : ℕ → σ → σ) (s : σ) (hc : N.Coprime step) (h : home < N)
    (hp : p < N) (hprev : ∀ q < N, prev (stride N step q) = q) :
    (whileNe prev body home N p s).map (body home)
      = some ((chain N step home p).foldl (fun s x => body x s) s) := by
  have hd := steps_lt home hc hp
  have hat := strideAt_steps home hc hp
  have hiter : ∀ i ≤ steps N step home p,
      prev^[i] p = strideAt N step home (steps N step home p - i) := fun i hi => by
    have hback := iterate_back home (by omega) hprev hi
    rwa [hat] at hback
  have hend : prev^[steps N step home p] p = home := by
    rw [hiter _ le_rfl, Nat.sub_self, strideAt_zero h]
  rw [whileNe_eq_foldl hend (fun i hi heq => ?_) hd, chain, List.range_succ, List.map_append,
    List.foldl_append, iterate_eq_map_range, List.map_congr_left fun i hi =>
      hiter i (List.mem_range.mp hi).le]
  · simp [strideAt_zero h]
  · have hback : steps N step home (strideAt N step home (steps N step home p - i))
        = steps N step home p - i := steps_strideAt hc (by omega)
    rw [← hiter i hi.le, heq, steps_home hc h] at hback
    omega

theorem mem_chain (hc : N.Coprime step) (hp : p < N) (hcN : c < N) :
    c ∈ chain N step home p ↔ steps N step home c ≤ steps N step home p := by
  have hd := steps_lt home hc hp
  rw [chain, List.mem_map]
  constructor
  · rintro ⟨i, -, rfl⟩
    rw [steps_strideAt hc (by omega)]
    exact Nat.sub_le _ _
  · intro hle
    refine ⟨steps N step home p - steps N step home c, List.mem_range.mpr (by omega), ?_⟩
    rw [Nat.sub_sub_self hle, strideAt_steps home hc hcN]

theorem nodup_chain (hc : N.Coprime step) (hp : p < N) : (chain N step home p).Nodup := by
  have hd := steps_lt home hc hp
  refine List.Nodup.map_on (fun i hi j hj hij => ?_) List.nodup_range
  have := strideAt_injOn hc (by omega) (by omega) hij
  have hi := List.mem_range.mp hi
  have hj := List.mem_range.mp hj
  omega

end Walk

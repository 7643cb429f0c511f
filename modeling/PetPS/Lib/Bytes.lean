import Mathlib.Algebra.Group.Nat.Defs
import Mathlib.Data.List.Basic
import Mathlib.Data.List.GetD
import Mathlib.Tactic.SplitIfs

/-!
# Byte-addressed memory

A memory is a function from addresses to bytes. `store` writes a list of bytes, `load` reads
one, and the only two facts about them are that a load sees the last store at its place and nothing
of a store elsewhere. `encode32` and `encode64` are the little-endian forms of a number, and
`decode` reads a little-endian word of any length.

## Main results

* `load_store_self`, `load_store_of_disjoint`
* `decode_encode32`, `decode_encode64`
-/

namespace Bytes

/-- A memory. -/
abbrev Mem : Type := ℕ → UInt8

/-- Write `bs` at address `a`. -/
def store (m : Mem) (a : ℕ) (bs : List UInt8) : Mem :=
  fun x => if a ≤ x ∧ x < a + bs.length then bs.getD (x - a) 0 else m x

/-- Read `n` bytes at address `a`. -/
def load (m : Mem) (a n : ℕ) : List UInt8 := (List.range n).map fun i => m (a + i)

variable {m : Mem} {a b n : ℕ} {bs : List UInt8}

theorem length_load : (load m a n).length = n := by simp [load]

theorem store_apply_of_notMem {x : ℕ} (h : x < a ∨ a + bs.length ≤ x) : store m a bs x = m x := by
  rw [store, if_neg (by omega)]

theorem store_apply_of_mem {x : ℕ} (hlo : a ≤ x) (hhi : x < a + bs.length) :
    store m a bs x = bs.getD (x - a) 0 := by
  rw [store, if_pos ⟨hlo, hhi⟩]

theorem store_nil : store m a [] = m := by
  funext x
  exact store_apply_of_notMem (by simp only [List.length_nil]; omega)

/-- A store, byte by byte. -/
theorem store_cons (b : UInt8) : store (store m a [b]) (a + 1) bs = store m a (b :: bs) := by
  funext x
  simp only [store, List.length_cons, List.length_nil]
  rcases Nat.lt_trichotomy x a with hlt | rfl | hgt
  · rw [if_neg (by omega), if_neg (by omega), if_neg (by omega)]
  · rw [if_neg (by omega), if_pos (by omega), if_pos (by omega), Nat.sub_self]
    rfl
  · obtain ⟨k, rfl⟩ : ∃ k, x = a + 1 + k := ⟨x - (a + 1), by omega⟩
    have hk : a + 1 + k - a = k + 1 := by omega
    rw [hk, Nat.add_sub_cancel_left, List.getD_cons_succ]
    refine if_congr (by omega) rfl (if_neg (by omega))

/-- **A load sees the store at its place.** -/
theorem load_store_self : load (store m a bs) a bs.length = bs := by
  refine List.ext_getElem length_load fun i hi hi' => ?_
  simp only [load, List.getElem_map, List.getElem_range, store]
  rw [if_pos (by omega), Nat.add_sub_cancel_left, List.getD_eq_getElem _ _ hi']

/-- Memories that agree on a range give the same load. -/
theorem load_congr {m' : Mem} (h : ∀ x, a ≤ x → x < a + n → m' x = m x) :
    load m' a n = load m a n :=
  List.map_congr_left fun i hi => h (a + i) (by omega) (by have := List.mem_range.mp hi; omega)

/-- **A load sees nothing of a store elsewhere.** -/
theorem load_store_of_disjoint (h : a + n ≤ b ∨ b + bs.length ≤ a) :
    load (store m b bs) a n = load m a n :=
  load_congr fun x _ _ => store_apply_of_notMem (by omega)

theorem store_append {cs : List UInt8} :
    store (store m a bs) (a + bs.length) cs = store m a (bs ++ cs) := by
  funext x
  simp only [store, List.length_append]
  by_cases hlo : x < a + bs.length
  · rw [if_neg (by omega)]
    by_cases hin : a ≤ x
    · rw [if_pos ⟨hin, hlo⟩, if_pos (by omega), List.getD_append _ _ _ _ (by omega)]
    · rw [if_neg (by omega), if_neg (by omega)]
  · by_cases hin : x < a + bs.length + cs.length
    · rw [if_pos (by omega), if_pos (by omega), List.getD_append_right _ _ _ _ (by omega),
        Nat.sub_add_eq]
    · rw [if_neg (by omega), if_neg (by omega), if_neg (by omega)]

theorem load_add (k : ℕ) : load m a (n + k) = load m a n ++ load m (a + n) k := by
  rw [load, List.range_add, List.map_append, List.map_map]
  refine congrArg _ (List.map_congr_left fun i _ => ?_)
  rw [Function.comp_apply, Nat.add_assoc]

/-- A part of a load. -/
theorem load_slice {i k : ℕ} (h : i + k ≤ n) : ((load m a n).drop i).take k = load m (a + i) k := by
  obtain ⟨r, rfl⟩ : ∃ r, n = i + k + r := ⟨n - (i + k), by omega⟩
  rw [Nat.add_assoc, load_add, load_add, List.drop_left' length_load, List.take_left' length_load]

/-- A load of the end of a store. -/
theorem load_store_drop {k : ℕ} (hk : k ≤ bs.length) :
    load (store m a bs) (a + k) (bs.length - k) = bs.drop k := by
  rw [← load_slice (n := bs.length) (by omega), load_store_self,
    List.take_of_length_le (Nat.le_of_eq List.length_drop)]

theorem getD_load {i : ℕ} (hi : i < n) : (load m a n).getD i 0 = m (a + i) := by
  rw [List.getD_eq_getElem _ _ (by rw [length_load]; exact hi)]
  simp [load]

/-- A load, byte by byte. -/
theorem load_eq_iff : load m a bs.length = bs ↔ ∀ i < bs.length, m (a + i) = bs.getD i 0 := by
  constructor
  · intro h i hi
    have hget := getD_load (m := m) (a := a) hi
    rw [← hget, h]
  · intro h
    refine List.ext_getElem length_load fun i hi hi' => ?_
    rw [← List.getD_eq_getElem _ 0 hi, ← List.getD_eq_getElem _ 0 hi', getD_load hi', h i hi']

/-! ### Numbers -/

/-- Little-endian bytes of `n mod 2 ^ 32`. -/
def encode32 (n : ℕ) : List UInt8 :=
  [.ofNat n, .ofNat (n / 256), .ofNat (n / 256 ^ 2), .ofNat (n / 256 ^ 3)]

/-- The number little-endian bytes stand for. -/
def decode : List UInt8 → ℕ
  | [] => 0
  | b :: bs => b.toNat + 256 * decode bs

theorem length_encode32 : (encode32 n).length = 4 := rfl

theorem decode_encode32 (h : n < 2 ^ 32) : decode (encode32 n) = n := by
  simp only [encode32, decode, UInt8.toNat_ofNat']
  omega

/-- Little-endian bytes of `n mod 2 ^ 64`. -/
def encode64 (n : ℕ) : List UInt8 := encode32 n ++ encode32 (n / 256 ^ 4)

theorem decode_encode64 (h : n < 2 ^ 64) : decode (encode64 n) = n := by
  simp only [encode64, encode32, List.cons_append, List.nil_append, decode, UInt8.toNat_ofNat']
  omega

/-! ### Fields of one size -/

theorem decode_load_encode32 (h : n < 2 ^ 32) :
    decode (load (store m a (encode32 n)) a 4) = n :=
  (congrArg decode load_store_self).trans (decode_encode32 h)

theorem length_flatMap_le {α β : Type} {f : α → List β} {n : ℕ} {l : List α}
    (h : ∀ x ∈ l, (f x).length ≤ n) : (l.flatMap f).length ≤ l.length * n := by
  induction l with
  | nil => simp
  | cons x l ih =>
    have hx := h x List.mem_cons_self
    have hl := ih fun y hy => h y (List.mem_cons_of_mem x hy)
    rw [List.flatMap_cons, List.length_append, List.length_cons, Nat.succ_mul]
    omega

theorem length_flatMap_eq_iff {α β : Type} {f : α → List β} {n : ℕ} {l : List α}
    (h : ∀ x ∈ l, (f x).length ≤ n) :
    (l.flatMap f).length = l.length * n ↔ ∀ x ∈ l, (f x).length = n := by
  induction l with
  | nil => simp
  | cons x l ih =>
    have hx := h x List.mem_cons_self
    have hl : ∀ y ∈ l, (f y).length ≤ n := fun y hy => h y (List.mem_cons_of_mem x hy)
    have hle := length_flatMap_le hl
    rw [List.flatMap_cons, List.length_append, List.length_cons, Nat.succ_mul, List.forall_mem_cons,
      ← ih hl]
    omega

/-- Slices of equal length are where one expects them. -/
theorem slice_flatMap {α β : Type} {f : α → List β} {n : ℕ} {l : List α}
    (h : ∀ x ∈ l, (f x).length = n) (i : ℕ) (hi : i < l.length) :
    ((l.flatMap f).drop (i * n)).take n = f l[i] := by
  induction l generalizing i with
  | nil => cases hi
  | cons x l ih =>
    have hx := h x List.mem_cons_self
    rw [List.flatMap_cons]
    cases i with
    | zero => rw [Nat.zero_mul, List.drop_zero, List.take_left' hx, List.getElem_cons_zero]
    | succ i =>
      rw [Nat.succ_mul, Nat.add_comm, ← List.drop_drop, List.drop_left' hx, List.getElem_cons_succ]
      exact ih (fun y hy => h y (List.mem_cons_of_mem x hy)) i (by simpa using hi)

end Bytes

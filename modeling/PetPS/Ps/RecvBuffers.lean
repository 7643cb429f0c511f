import Mathlib.Data.List.Induction
import PetPS.Ps.Client

/-!
# The receive buffers

`GetReceiveBuffer` of `petps_client.cc` and of the wrapper in `allshards_ps_client.h`. The clients
of a process take their buffers from one counter, and the wrapper takes one for each shard in turn,
while other threads may take theirs in between. So the buffers of one call are in the order of the
shards, and when nobody comes in between, the buffer of a shard begins where that of the shard
before it ends.

Every client of a process asks for the same size. The counter is a natural number: its values are
offsets in a region of 1000 MB.

## Main results

* `Laid.push` — what a turn of the loop keeps
* `laid_afterCalls` — where the buffers are
* `Made.buffer`, `Made.order` — the buffers of one call
-/

namespace PetPS

namespace AllShards

/-- `FLAGS_max_kv_num_per_request * FLAGS_value_size`, an `int`, as a `size_t`. -/
def recvSize (maxKvNumPerRequest valueSize : ℕ) : ℕ :=
  toUInt64 (toInt32 (maxKvNumPerRequest * valueSize))

/-- The `dsm_size` of `WqRPCParameterClient::Init`. -/
def dsmSize : ℕ := 1000 * 2 ^ 20

/-- The receive buffers of a wrapper. -/
structure RecvBuffers where
  /-- `client_memory_offset_acc`. -/
  offsetAcc : ℕ
  /-- `partitioned_recv_buffer_`, by shard. -/
  partitioned : ℕ → List ℕ

namespace RecvBuffers

variable (baseAddr size numShards : ℕ)

/-- A turn of the loop of `GetReceiveBuffer`. Before it other threads have taken `others`
buffers. -/
def push (b : RecvBuffers) (i others : ℕ) : RecvBuffers :=
  let (addr, offsetAcc) :=
    WqRPCParameterClient.getReceiveBuffer baseAddr (b.offsetAcc + others * size) size
  ⟨offsetAcc, Function.update b.partitioned i (b.partitioned i ++ [addr])⟩

/-- `GetReceiveBuffer` of the wrapper; `others i` buffers go to other threads before shard `i`. -/
def getReceiveBuffer (b : RecvBuffers) (others : ℕ → ℕ) : RecvBuffers :=
  (List.range numShards).foldl (fun b i => push baseAddr size b i (others i)) b

/-- The buffers after a number of calls. -/
def afterCalls (calls : List (ℕ → ℕ)) : RecvBuffers :=
  calls.foldl (getReceiveBuffer baseAddr size numShards) ⟨0, fun _ => []⟩

/-- **Where the buffers are** after `calls` calls and `turns` turns of the next. -/
structure Laid (calls turns : ℕ) (b : RecvBuffers) : Prop where
  length : ∀ i < numShards, (b.partitioned i).length = if i < turns then calls + 1 else calls
  acc : size ∣ b.offsetAcc
  inside : ∀ i < numShards, ∀ addr ∈ b.partitioned i,
    baseAddr ≤ addr ∧ addr + size ≤ baseAddr + b.offsetAcc ∧ size ∣ addr - baseAddr
  order : ∀ i j, i < j → j < numShards → ∀ (a x y : ℕ), (b.partitioned i)[a]? = some x →
    (b.partitioned j)[a]? = some y → x + size ≤ y

variable {baseAddr size numShards} {calls turns : ℕ} {b : RecvBuffers}

theorem partitioned_push_self (b : RecvBuffers) (i others : ℕ) :
    (b.push baseAddr size i others).partitioned i =
      b.partitioned i ++ [b.offsetAcc + others * size + baseAddr] :=
  Function.update_self ..

theorem partitioned_push_of_ne (b : RecvBuffers) {i j : ℕ} (hne : j ≠ i) (others : ℕ) :
    (b.push baseAddr size i others).partitioned j = b.partitioned j :=
  Function.update_of_ne hne _ _

theorem offsetAcc_push (b : RecvBuffers) (i others : ℕ) :
    (b.push baseAddr size i others).offsetAcc = b.offsetAcc + others * size + size := rfl

/-- A buffer after a turn is an old one or the new one. -/
theorem mem_partitioned_push {i j others x : ℕ}
    (hx : x ∈ (b.push baseAddr size i others).partitioned j) :
    x ∈ b.partitioned j ∨ x = b.offsetAcc + others * size + baseAddr := by
  by_cases hj : j = i
  · subst hj
    rwa [partitioned_push_self, List.mem_append, List.mem_singleton] at hx
  · rw [partitioned_push_of_ne b hj] at hx
    exact Or.inl hx

/-- The buffers lie in the region, at multiples of their size. -/
theorem Laid.inside_push (h : Laid baseAddr size numShards calls turns b) {i j others x : ℕ}
    (hj : j < numShards) (hx : x ∈ (b.push baseAddr size i others).partitioned j) :
    baseAddr ≤ x ∧ x + size ≤ baseAddr + (b.push baseAddr size i others).offsetAcc ∧
      size ∣ x - baseAddr := by
  rw [offsetAcc_push]
  rcases mem_partitioned_push hx with hold | rfl
  · obtain ⟨hlo, hhi, hdvd⟩ := h.inside j hj x hold
    exact ⟨hlo, by omega, hdvd⟩
  · refine ⟨by omega, by omega, ?_⟩
    rw [Nat.add_sub_cancel]
    exact Nat.dvd_add h.acc (Nat.dvd_mul_left size others)

/-- Those of one call lie in the order of the shards. -/
theorem Laid.order_push (h : Laid baseAddr size numShards calls turns b) {others i j a x y : ℕ}
    (hij : i < j) (hj : j < numShards)
    (hx : ((b.push baseAddr size turns others).partitioned i)[a]? = some x)
    (hy : ((b.push baseAddr size turns others).partitioned j)[a]? = some y) : x + size ≤ y := by
  by_cases hjt : j = turns
  · -- the new buffer is behind all others
    subst hjt
    rw [partitioned_push_of_ne b hij.ne] at hx
    rw [partitioned_push_self] at hy
    rcases Nat.lt_or_ge a (b.partitioned j).length with hin | hout
    · rw [List.getElem?_append_left hin] at hy
      exact h.order i j hij hj a x y hx hy
    · rw [List.getElem?_append_right hout] at hy
      have hnew := List.mem_singleton.mp (List.mem_of_getElem? hy)
      have hend := (h.inside i (hij.trans hj) x (List.mem_of_getElem? hx)).2.1
      omega
  · rw [partitioned_push_of_ne b hjt] at hy
    by_cases hit : i = turns
    · -- the shards behind have no such buffer yet
      subst hit
      have hlen := h.length i (hij.trans hj)
      have hbehind := h.length j hj
      rw [if_neg (by omega)] at hlen hbehind
      obtain ⟨ha, -⟩ := List.getElem?_eq_some_iff.mp hy
      rw [partitioned_push_self, List.getElem?_append_left (by omega)] at hx
      exact h.order i j hij hj a x y hx hy
    · rw [partitioned_push_of_ne b hit] at hx
      exact h.order i j hij hj a x y hx hy

/-- **A turn of the loop.** -/
theorem Laid.push (h : Laid baseAddr size numShards calls turns b) (others : ℕ) :
    Laid baseAddr size numShards calls (turns + 1) (b.push baseAddr size turns others) := by
  refine ⟨fun i hi => ?_, ?_, fun i hi x hx => h.inside_push hi hx,
    fun i j hij hj a x y hx hy => h.order_push hij hj hx hy⟩
  · have hlen := h.length i hi
    by_cases hit : i = turns
    · subst hit
      rw [if_neg (Nat.lt_irrefl i)] at hlen
      rw [partitioned_push_self, List.length_append, hlen, if_pos (Nat.lt_succ_self i)]
      rfl
    · rw [partitioned_push_of_ne b hit, hlen]
      exact if_congr (by omega) rfl rfl
  · rw [offsetAcc_push]
    exact Nat.dvd_add (Nat.dvd_add h.acc (Nat.dvd_mul_left size others)) (Nat.dvd_refl size)

/-- The loop. -/
theorem Laid.loop (h : Laid baseAddr size numShards calls 0 b) (others : ℕ → ℕ) (turns : ℕ) :
    Laid baseAddr size numShards calls turns
      ((List.range turns).foldl (fun b i => b.push baseAddr size i (others i)) b) := by
  induction turns with
  | zero => exact h
  | succ turns ih =>
    rw [List.range_succ, List.foldl_append]
    exact ih.push (others turns)

/-- A call. -/
theorem Laid.getReceiveBuffer (h : Laid baseAddr size numShards calls 0 b) (others : ℕ → ℕ) :
    Laid baseAddr size numShards (calls + 1) 0
      (b.getReceiveBuffer baseAddr size numShards others) := by
  have hend := h.loop others numShards
  refine ⟨fun i hi => ?_, hend.acc, hend.inside, hend.order⟩
  rw [if_neg (Nat.not_lt_zero i)]
  exact (hend.length i hi).trans (if_pos hi)

/-- **Where the buffers are** after any number of calls. -/
theorem laid_afterCalls (calls : List (ℕ → ℕ)) : Laid baseAddr size numShards calls.length 0
    (afterCalls baseAddr size numShards calls) := by
  induction calls using List.reverseRecOn with
  | nil =>
    refine ⟨fun i _ => rfl, Nat.dvd_zero size, fun i _ addr h => absurd h List.not_mem_nil,
      fun i j _ _ a x y hx => ?_⟩
    cases hx
  | append_singleton calls others ih =>
    rw [afterCalls, List.foldl_append, List.length_append]
    exact ih.getReceiveBuffer others

/-- Two shards, and nobody in between: the second buffer begins where the first ends. -/
example : let b := afterCalls 4096 600 2 [fun _ => 0]
    (b.partitioned 0, b.partitioned 1) = ([4096], [4696]) := by
  decide

/-! ### The buffers of one call -/

/-- **The receive buffers of a wrapper**, made with `calls` calls in a region that starts at
`baseAddr` and is large enough. -/
structure Made (baseAddr maxKvNumPerRequest valueSize numShards : ℕ) (calls : List (ℕ → ℕ))
    (b : RecvBuffers) : Prop where
  eq : b = afterCalls baseAddr (recvSize maxKvNumPerRequest valueSize) numShards calls
  int : maxKvNumPerRequest * valueSize < 2 ^ 31
  pos : 0 < maxKvNumPerRequest * valueSize
  aligned : 4 ∣ baseAddr
  base : 4 ≤ baseAddr ∧ baseAddr + dsmSize ≤ 2 ^ 64
  region : b.offsetAcc ≤ dsmSize

/-- The buffer of a shard, for an `async_req_id`. -/
def buffer (b : RecvBuffers) (i asyncReqId : ℕ) : ℕ := (b.partitioned i).getD asyncReqId 0

section Made

variable {maxKv valueSize : ℕ} {calls : List (ℕ → ℕ)} {i j a : ℕ}

theorem Made.laid (h : Made baseAddr maxKv valueSize numShards calls b) :
    Laid baseAddr (maxKv * valueSize) numShards calls.length 0 b := by
  have hsize : recvSize maxKv valueSize = maxKv * valueSize := toUInt64_toInt32 h.int
  rw [← hsize, h.eq]
  exact laid_afterCalls calls

theorem Made.getElem? (h : Made baseAddr maxKv valueSize numShards calls b) (hi : i < numShards)
    (ha : a < calls.length) : (b.partitioned i)[a]? = some (b.buffer i a) := by
  have hlen := h.laid.length i hi
  rw [if_neg (Nat.not_lt_zero i)] at hlen
  rw [buffer, List.getD_eq_getElem _ _ (hlen ▸ ha)]
  exact List.getElem?_eq_getElem _

/-- A buffer is in the region, and at whole words when values are of whole words. -/
theorem Made.buffer (h : Made baseAddr maxKv valueSize numShards calls b) (hi : i < numShards)
    (ha : a < calls.length) (hfour : 4 ∣ valueSize) : 4 ∣ b.buffer i a ∧ baseAddr ≤ b.buffer i a ∧
      b.buffer i a + maxKv * valueSize ≤ baseAddr + dsmSize := by
  obtain ⟨hlo, hhi, hdvd⟩ := h.laid.inside i hi _ (List.mem_of_getElem? (h.getElem? hi ha))
  have hregion := h.region
  refine ⟨?_, hlo, by omega⟩
  have hword : 4 ∣ b.buffer i a - baseAddr := (Nat.dvd_mul_left_of_dvd hfour maxKv).trans hdvd
  rw [← Nat.sub_add_cancel hlo]
  exact Nat.dvd_add hword h.aligned

/-- The buffers of one call are in the order of the shards. -/
theorem Made.order (h : Made baseAddr maxKv valueSize numShards calls b) (hij : i < j)
    (hj : j < numShards) (ha : a < calls.length) :
    b.buffer i a + maxKv * valueSize ≤ b.buffer j a :=
  h.laid.order i j hij hj a _ _ (h.getElem? (hij.trans hj) ha) (h.getElem? hj ha)

end Made

end RecvBuffers

end AllShards

end PetPS

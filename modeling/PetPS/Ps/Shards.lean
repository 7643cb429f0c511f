import PetPS.Lib.Run
import PetPS.Ps.Client

/-!
# A fetch over all shards

`AllShardsParameterClientWrapper` of `allshards_ps_client.h`, as it is built with `RPC_DEBUG`, the
build that copies the values together. `GetParameter` splits the keys over the shards and asks every
shard for its part. `QueryRPCFinished` asks the shards in turn, and runs the callback of the
batch at every shard that has finished; the callback takes the value of each key from the buffer of
its shard, by a running offset per shard. So it runs several times on buffers that are not complete,
and each time puts something into the place of every key.

The values are right in the end because the callback runs once more at every shard that
finishes: when shard `i` has been seen to be finished, the keys of the shards up to `i` are in their
places.

The wrapper is used by one thread, whose steps are those of the two loops; in between the shards
write into the receive buffers. Several batches may be under way. The receive buffers are made
beforehand. Their addresses and the sizes of batches are natural numbers.

## Main results

* `partitionKeys_eq` — the keys of a shard, in order
* `Tracks.step` — what every event keeps for a batch under way
* `sharded_fetch_reassembles` — the values of a batch that has finished
-/

namespace PetPS

namespace AllShards

/-! ### The wrapper -/

/-- What a wrapper is made with. -/
structure Config where
  numShards : ℕ
  /-- `ShardManager::KeyPartition`. -/
  keyPartition : UInt64 → ℕ
  /-- `FLAGS_value_size`. -/
  valueSize : ℕ
  /-- `partitioned_recv_buffer_`, by shard and `async_req_id`. -/
  partitionedRecvBuffer : ℕ → ℕ → ℕ

/-- What the callback of a batch captures. -/
structure Callback where
  keys : List UInt64
  values : ℕ
  asyncReqId : ℕ

/-- Where the thread is. -/
inductive Pc
  /-- Outside of the wrapper. -/
  | idle
  /-- In `QueryRPCFinished`, before shard `i`. -/
  | querying (rpcId : ℤ) (i : ℕ)
  /-- In the callback, run for shard `i`, with the keys `left`. -/
  | copying (rpcId : ℤ) (i : ℕ) (callback : Callback) (left : List UInt64) (offsetAccs : ℕ → ℕ)
    (acc : ℕ)
  /-- At the end of `QueryRPCFinished`. -/
  | returned (rpcId : ℤ) (finished : Bool)

/-- `AllShardsParameterClientWrapper`, and the memory. -/
structure State where
  memory : Bytes.Mem
  partitionedKeyBuffer : ℕ → List UInt64
  batchRpcIDAcc : ℕ
  batchRpcId2RpcListMap : ℕ → List ℤ
  batchRpcId2CbMap : ℕ → Option Callback
  pc : Pc

/-- `MAGIC_RPC_ID_FOR_EMPTY_REQUEST`, a `uint64_t`. -/
def magicRpcIdForEmptyRequest : ℕ := 2 ^ 64 - 1

variable (cfg : Config)

/-- The first loop of `GetParameter`. -/
def partitionKeys : List UInt64 → (ℕ → List UInt64) → ℕ → List UInt64
  | [], buffers => buffers
  | k :: keys, buffers =>
    let shard := cfg.keyPartition k
    partitionKeys keys (Function.update buffers shard (buffers shard ++ [k]))

/-- `GetParameter`. The shard clients return `shardRpcIds` for the keys in the partitioned
buffers. -/
def getParameter (s : State) (keys : List UInt64) (values asyncReqId : ℕ) (shardRpcIds : List ℤ) :
    State × ℤ :=
  ({ s with
      partitionedKeyBuffer := fun i => (partitionKeys cfg keys (fun _ => []) i).take 500
      batchRpcIDAcc := s.batchRpcIDAcc + 1
      batchRpcId2RpcListMap := Function.update s.batchRpcId2RpcListMap s.batchRpcIDAcc shardRpcIds
      batchRpcId2CbMap :=
        Function.update s.batchRpcId2CbMap s.batchRpcIDAcc (some ⟨keys, values, asyncReqId⟩) },
    toInt32 s.batchRpcIDAcc)

/-- `RevokeRPCResource`. -/
def revokeRPCResource (s : State) (rpcId : ℤ) : State :=
  { s with
    batchRpcId2RpcListMap := Function.update s.batchRpcId2RpcListMap (toUInt64 rpcId) []
    batchRpcId2CbMap := Function.update s.batchRpcId2CbMap (toUInt64 rpcId) none }

/-- What happens next. -/
inductive Event
  /-- The memory is written from outside. -/
  | arrive (memory : Bytes.Mem)
  /-- A call of `GetParameter`; each shard client returns an id. -/
  | get (keys : List UInt64) (values asyncReqId : ℕ) (shardRpcIds : List ℤ)
  /-- A call of `QueryRPCFinished`. -/
  | query (rpcId : ℤ)
  /-- A turn of its loop; `finished` is the answer of the shard client, if it is asked. -/
  | poll (finished : Bool)
  /-- A turn of the loop of the callback. -/
  | copy
  /-- `QueryRPCFinished` has returned, and the thread goes on. -/
  | resume
  /-- A call of `RevokeRPCResource`. -/
  | revoke (rpcId : ℤ)

/-- A turn of the loop of `QueryRPCFinished`. -/
def poll (s : State) (finished : Bool) : Option State :=
  match s.pc with
  | .querying rpcId i =>
    if i < cfg.numShards then
      match (s.batchRpcId2RpcListMap (toUInt64 rpcId))[i]? with
      | none => none
      | some shardRpcId =>
        if toUInt64 shardRpcId = magicRpcIdForEmptyRequest then
          some { s with pc := .querying rpcId (i + 1) }
        else if finished then
          match s.batchRpcId2CbMap (toUInt64 rpcId) with
          | none => none
          | some callback => some
            { s with pc := .copying rpcId i callback callback.keys (fun _ => 0) 0 }
        else some { s with pc := .returned rpcId false }
    else some { s with pc := .returned rpcId true }
  | _ => none

/-- A turn of the loop of the callback, or its end. `values` is a `float *`. -/
def copy (s : State) : Option State :=
  match s.pc with
  | .copying rpcId i callback (k :: left) offsetAccs acc =>
    let shard := cfg.keyPartition k
    some { s with
      memory := Bytes.store s.memory (callback.values + acc / 4 * 4) (Bytes.load s.memory
        (cfg.partitionedRecvBuffer shard callback.asyncReqId + offsetAccs shard) cfg.valueSize)
      pc := .copying rpcId i callback left
        (Function.update offsetAccs shard (offsetAccs shard + cfg.valueSize))
          (acc + cfg.valueSize) }
  | .copying rpcId i callback [] _ acc =>
    if acc = callback.keys.length * cfg.valueSize then some { s with pc := .querying rpcId (i + 1) }
    else none
  | _ => none

/-- One event, if it is possible. -/
def step (s : State) : Event → Option State
  | .arrive memory => some { s with memory }
  | .get keys values asyncReqId shardRpcIds =>
    match s.pc with
    | .idle => some (getParameter cfg s keys values asyncReqId shardRpcIds).1
    | _ => none
  | .query rpcId =>
    match s.pc with
    | .idle => some { s with pc := .querying rpcId 0 }
    | _ => none
  | .poll finished => poll cfg s finished
  | .copy => copy cfg s
  | .resume =>
    match s.pc with
    | .returned .. => some { s with pc := .idle }
    | _ => none
  | .revoke rpcId =>
    match s.pc with
    | .idle => some (revokeRPCResource s rpcId)
    | _ => none

/-! ### The keys of a shard -/

theorem partitionKeys_eq (keys : List UInt64) (buffers : ℕ → List UInt64) (i : ℕ) :
    partitionKeys cfg keys buffers i
      = buffers i ++ keys.filter fun k => cfg.keyPartition k = i := by
  induction keys generalizing buffers with
  | nil => simp [partitionKeys]
  | cons k keys ih =>
    rw [partitionKeys, ih]
    by_cases hk : cfg.keyPartition k = i
    · simp [hk]
    · simp [hk, Function.update_of_ne (Ne.symm hk)]

/-- A shard that does not exist has no keys. -/
theorem filter_keyPartition_eq_nil {cfg : Config} {keys : List UInt64}
    (h : ∀ k ∈ keys, cfg.keyPartition k < cfg.numShards) {i : ℕ} (hi : cfg.numShards ≤ i) :
    (keys.filter fun k => cfg.keyPartition k = i) = [] := by
  rw [List.filter_eq_nil_iff]
  intro k hk heq
  have hlt := h k hk
  rw [of_decide_eq_true heq] at hlt
  omega

/-! ### A batch under way -/

/-- A batch: its callback, the keys requested from each shard, its key in the maps and the ids that
the shards have given it. -/
structure Batch where
  callback : Callback
  requested : ℕ → List UInt64
  key : ℕ
  shardRpcIds : List ℤ

variable (value : UInt64 → List UInt8) (batch : Batch)

/-- The buffer of shard `i` holds the values of the keys requested from it, in the order of the
request. -/
def Holds (m : Bytes.Mem) (i : ℕ) : Prop :=
  Bytes.load m (cfg.partitionedRecvBuffer i batch.callback.asyncReqId)
    ((batch.requested i).flatMap value).length = (batch.requested i).flatMap value

/-- A change of the memory that leaves the values of the batch alone, and the buffers that are
complete. -/
structure Keeps (m m' : Bytes.Mem) : Prop where
  values : ∀ x, batch.callback.values ≤ x →
    x < batch.callback.values + batch.callback.keys.length * cfg.valueSize → m' x = m x
  buffers : ∀ i < cfg.numShards, Holds cfg value batch m i → Holds cfg value batch m' i

/-- **The environment of a batch.** Nobody else writes to its values, or to a receive buffer of
it that is complete; a shard client reports that it has finished only if its buffer is complete; and
the batch is not revoked. -/
def Fair (s : State) : Event → Prop
  | .arrive memory => Keeps cfg value batch s.memory memory
  | .poll finished => ∀ rpcId i, s.pc = .querying rpcId i → toUInt64 rpcId = batch.key →
      finished = true → Holds cfg value batch s.memory i
  | .revoke rpcId => toUInt64 rpcId ≠ batch.key
  | _ => True

instance (m : Bytes.Mem) (i : ℕ) : Decidable (Holds cfg value batch m i) :=
  inferInstanceAs (Decidable (_ = _))

instance (m m' : Bytes.Mem) : Decidable (Keeps cfg value batch m m') :=
  decidable_of_iff
    ((∀ x, batch.callback.values ≤ x →
        x < batch.callback.values + batch.callback.keys.length * cfg.valueSize → m' x = m x) ∧
      ∀ i < cfg.numShards, Holds cfg value batch m i → Holds cfg value batch m' i)
    ⟨fun h => ⟨h.1, h.2⟩, fun h => ⟨h.values, h.buffers⟩⟩

instance (s : State) (e : Event) : Decidable (Fair cfg value batch s e) :=
  match e with
  | .arrive memory => inferInstanceAs (Decidable (Keeps cfg value batch s.memory memory))
  | .poll finished =>
    match hpc : s.pc with
    | .querying rpcId i =>
      decidable_of_iff (toUInt64 rpcId = batch.key → finished = true →
        Holds cfg value batch s.memory i)
        ⟨fun h rpcId' i' hpc' => by
          obtain ⟨rfl, rfl⟩ := Pc.querying.inj (hpc.symm.trans hpc')
          exact h, fun h => h rpcId i hpc⟩
    | .idle | .copying .. | .returned .. =>
      isTrue fun rpcId i hpc' => by rw [hpc] at hpc'; cases hpc'
  | .revoke rpcId => inferInstanceAs (Decidable (toUInt64 rpcId ≠ batch.key))
  | .get .. | .query _ | .copy | .resume => isTrue trivial

/-- A batch as `GetParameter` makes it, with at most 500 keys for each shard. -/
structure Batch.Ok : Prop where
  partition : ∀ k ∈ batch.callback.keys, cfg.keyPartition k < cfg.numShards
  requested : ∀ i, batch.requested i
    = batch.callback.keys.filter fun k => cfg.keyPartition k = i
  size : ∀ k, (value k).length = cfg.valueSize
  four : 4 ∣ cfg.valueSize
  /-- The receive buffers are apart from the values. -/
  apart : ∀ i < cfg.numShards,
    batch.callback.values + batch.callback.keys.length * cfg.valueSize
      ≤ cfg.partitionedRecvBuffer i batch.callback.asyncReqId ∨
    cfg.partitionedRecvBuffer i batch.callback.asyncReqId +
      ((batch.requested i).flatMap value).length
      ≤ batch.callback.values
  /-- Only an empty request has the magic id. -/
  empty : ∀ i id, batch.shardRpcIds[i]? = some id → toUInt64 id = magicRpcIdForEmptyRequest →
    batch.requested i = []

/-- The value of the `k`-th key is in its place. -/
def Placed (m : Bytes.Mem) (k : ℕ) (key : UInt64) : Prop :=
  Bytes.load m (batch.callback.values + k * cfg.valueSize) cfg.valueSize = value key

/-- Before shard `i`: the shards before it are complete, and their keys are in place. -/
structure Filled (m : Bytes.Mem) (i : ℕ) : Prop where
  holds : ∀ j < i, Holds cfg value batch m j
  placed : ∀ k key, batch.callback.keys[k]? = some key → cfg.keyPartition key < i →
    Placed cfg value batch m k key

/-- In the callback, run for shard `i`, when the keys `done` have been copied. -/
structure Copying (m : Bytes.Mem) (i : ℕ) (done left : List UInt64) (offsetAccs : ℕ → ℕ) (acc : ℕ) :
    Prop where
  keys : batch.callback.keys = done ++ left
  acc : acc = done.length * cfg.valueSize
  offsets : ∀ j, offsetAccs j = (done.filter fun k => cfg.keyPartition k = j).length * cfg.valueSize
  holds : ∀ j < i + 1, Holds cfg value batch m j
  /-- The keys of earlier shards are in place, and those of shard `i` that have been copied. -/
  placed : ∀ k key, batch.callback.keys[k]? = some key →
    cfg.keyPartition key < i ∨ (cfg.keyPartition key < i + 1 ∧ k < done.length) →
      Placed cfg value batch m k key

/-- What is known of the batch where the thread is. -/
def Progress (m : Bytes.Mem) : Pc → Prop
  | .idle => True
  | .querying rpcId i => toUInt64 rpcId = batch.key → Filled cfg value batch m i
  | .copying rpcId i callback left offsetAccs acc => toUInt64 rpcId = batch.key →
      callback = batch.callback ∧ ∃ done, Copying cfg value batch m i done left offsetAccs acc
  | .returned rpcId finished => toUInt64 rpcId = batch.key → finished = true →
      ∀ k key, batch.callback.keys[k]? = some key → Placed cfg value batch m k key

/-- The wrapper has the batch under way. -/
structure Tracks (s : State) : Prop where
  rpcList : s.batchRpcId2RpcListMap batch.key = batch.shardRpcIds
  callback : s.batchRpcId2CbMap batch.key = some batch.callback
  old : batch.key < s.batchRpcIDAcc
  progress : Progress cfg value batch s.memory s.pc

/-! ### Memory changes -/

section Memory

variable {cfg value batch} {m m' : Bytes.Mem}

/-- There is nothing to hold for a shard that does not exist. -/
theorem Batch.Ok.holds_of_le (hok : batch.Ok cfg value) {i : ℕ} (hi : cfg.numShards ≤ i) :
    Holds cfg value batch m i := by
  rw [Holds, hok.requested, filter_keyPartition_eq_nil hok.partition hi]
  rfl

theorem Keeps.holds (hok : batch.Ok cfg value) (h : Keeps cfg value batch m m') {i : ℕ}
    (hi : Holds cfg value batch m i) : Holds cfg value batch m' i := by
  rcases Nat.lt_or_ge i cfg.numShards with hlt | hge
  · exact h.buffers i hlt hi
  · exact hok.holds_of_le hge

theorem Keeps.placed (h : Keeps cfg value batch m m') {k : ℕ} {key : UInt64}
    (hk : batch.callback.keys[k]? = some key) (hp : Placed cfg value batch m k key) :
    Placed cfg value batch m' k key := by
  have hlt := (List.getElem?_eq_some_iff.mp hk).1
  have hle : (k + 1) * cfg.valueSize ≤ batch.callback.keys.length * cfg.valueSize :=
    Nat.mul_le_mul_right _ hlt
  rw [Nat.succ_mul] at hle
  rw [Placed, ← hp]
  exact Bytes.load_congr fun x hlo hhi => h.values x (by omega) (by omega)

theorem Keeps.filled (hok : batch.Ok cfg value) (h : Keeps cfg value batch m m') {i : ℕ}
    (hf : Filled cfg value batch m i) : Filled cfg value batch m' i :=
  ⟨fun j hj => h.holds hok (hf.holds j hj),
    fun k key hk hlt => h.placed hk (hf.placed k key hk hlt)⟩

theorem Keeps.progress (hok : batch.Ok cfg value) (h : Keeps cfg value batch m m') {pc : Pc}
    (hp : Progress cfg value batch m pc) : Progress cfg value batch m' pc := by
  cases pc with
  | idle => trivial
  | querying rpcId i => exact fun hid => h.filled hok (hp hid)
  | copying rpcId i callback left offsetAccs acc =>
    intro hid
    obtain ⟨hcb, done, hc⟩ := hp hid
    exact ⟨hcb, done, hc.keys, hc.acc, hc.offsets, fun j hj => h.holds hok (hc.holds j hj),
      fun k key hk hlt => h.placed hk (hc.placed k key hk hlt)⟩
  | returned rpcId finished => exact fun hid hfin k key hk => h.placed hk (hp hid hfin k key hk)

/-- The memory after one value has been copied to the place of key number `k`. -/
theorem Batch.Ok.holds_store (hok : batch.Ok cfg value) {k : ℕ} {bytes : List UInt8}
    (hk : k < batch.callback.keys.length) (hlen : bytes.length = cfg.valueSize) {i : ℕ}
    (h : Holds cfg value batch m i) :
    Holds cfg value batch (Bytes.store m (batch.callback.values + k * cfg.valueSize) bytes) i := by
  have hle : (k + 1) * cfg.valueSize ≤ batch.callback.keys.length * cfg.valueSize :=
    Nat.mul_le_mul_right _ hk
  rw [Nat.succ_mul] at hle
  rcases Nat.lt_or_ge i cfg.numShards with hlt | hge
  · have hapart := hok.apart i hlt
    rw [Holds, Bytes.load_store_of_disjoint (by omega)]
    exact h
  · exact hok.holds_of_le hge

/-- A store into the place of one key leaves the places of the others alone. -/
theorem placed_store_of_ne {k k' : ℕ} {key : UInt64} {bytes : List UInt8}
    (hlen : bytes.length = cfg.valueSize) (hne : k' ≠ k) (h : Placed cfg value batch m k' key) :
    Placed cfg value batch (Bytes.store m (batch.callback.values + k * cfg.valueSize) bytes) k'
      key := by
  rw [Placed, Bytes.load_store_of_disjoint]
  · exact h
  · rcases Nat.lt_or_gt_of_ne hne with hlt | hgt
    · have := Nat.mul_le_mul_right cfg.valueSize hlt
      rw [Nat.succ_mul] at this
      omega
    · have := Nat.mul_le_mul_right cfg.valueSize hgt
      rw [Nat.succ_mul] at this
      omega

/-- **The running offset of a shard** is where the value of its next key is. -/
theorem Batch.Ok.load_source (hok : batch.Ok cfg value) {done left : List UInt64} {key : UInt64}
    (hkeys : batch.callback.keys = done ++ key :: left)
    (h : Holds cfg value batch m (cfg.keyPartition key)) :
    Bytes.load m (cfg.partitionedRecvBuffer (cfg.keyPartition key) batch.callback.asyncReqId
        + (done.filter fun k => cfg.keyPartition k = cfg.keyPartition key).length * cfg.valueSize)
      cfg.valueSize = value key := by
  set before := done.filter fun k => cfg.keyPartition k = cfg.keyPartition key with hbefore
  have hreq : batch.requested (cfg.keyPartition key) = before ++ key ::
      left.filter fun k => cfg.keyPartition k = cfg.keyPartition key := by
    rw [hok.requested, hkeys, List.filter_append, List.filter_cons_of_pos (by simp)]
  have hlt : before.length < (batch.requested (cfg.keyPartition key)).length := by
    rw [hreq, List.length_append, List.length_cons]
    omega
  have htotal : ((batch.requested (cfg.keyPartition key)).flatMap value).length
      = (batch.requested (cfg.keyPartition key)).length * cfg.valueSize :=
    (Bytes.length_flatMap_eq_iff fun k _ => (hok.size k).le).mpr fun k _ => hok.size k
  have hslice := Bytes.slice_flatMap (fun k _ => hok.size k) before.length hlt
  rw [Holds] at h
  have hle : (before.length + 1) * cfg.valueSize
      ≤ (batch.requested (cfg.keyPartition key)).length * cfg.valueSize :=
        Nat.mul_le_mul_right _ hlt
  rw [Nat.succ_mul] at hle
  rw [← h, Bytes.load_slice (by omega)] at hslice
  rw [hslice]
  congr 1
  simp only [hreq, List.getElem_append_right (le_refl before.length), Nat.sub_self,
    List.getElem_cons_zero]

/-- **One key is copied.** -/
theorem Copying.copy (hok : batch.Ok cfg value) {i acc : ℕ} {done left : List UInt64} {key : UInt64}
    {offsetAccs : ℕ → ℕ} (h : Copying cfg value batch m i done (key :: left) offsetAccs acc) :
    Copying cfg value batch (Bytes.store m (batch.callback.values + acc / 4 * 4) (Bytes.load m
        (cfg.partitionedRecvBuffer (cfg.keyPartition key) batch.callback.asyncReqId
          + offsetAccs (cfg.keyPartition key)) cfg.valueSize)) i (done ++ [key]) left
      (Function.update offsetAccs (cfg.keyPartition key)
        (offsetAccs (cfg.keyPartition key) + cfg.valueSize)) (acc + cfg.valueSize) := by
  have hdst : acc / 4 * 4 = done.length * cfg.valueSize := by
    rw [h.acc]
    exact Nat.div_mul_cancel (Dvd.dvd.mul_left hok.four _)
  have hlt : done.length < batch.callback.keys.length := by
    rw [h.keys, List.length_append, List.length_cons]
    omega
  rw [hdst]
  refine ⟨?_, ?_, fun j => ?_, fun j hj => ?_, fun k key' hk' hplace => ?_⟩
  · rw [h.keys, List.append_assoc]
    rfl
  · rw [List.length_append, List.length_singleton, h.acc, Nat.succ_mul]
  · by_cases hj : j = cfg.keyPartition key
    · subst hj
      rw [Function.update_self, h.offsets, List.filter_append, List.length_append,
        List.filter_cons_of_pos (by simp), List.filter_nil, List.length_singleton, Nat.succ_mul]
    · rw [Function.update_of_ne hj, h.offsets, List.filter_append,
        List.filter_cons_of_neg (by simpa using Ne.symm hj), List.filter_nil, List.append_nil]
  · exact hok.holds_store hlt Bytes.length_load (h.holds j hj)
  · by_cases hk : k = done.length
    · subst hk
      obtain rfl : key = key' := by
        rw [h.keys, List.getElem?_append_right le_rfl, Nat.sub_self] at hk'
        exact Option.some.inj hk'
      have hshard : cfg.keyPartition key < i + 1 := by omega
      have hsrc := hok.load_source h.keys (h.holds _ hshard)
      rw [h.offsets, hsrc, Placed, ← hok.size key, Bytes.load_store_self]
    · refine placed_store_of_ne Bytes.length_load hk (h.placed k key' hk' ?_)
      rw [List.length_append, List.length_singleton] at hplace
      omega

end Memory

/-! ### The events -/

section Events

variable {cfg value batch} {s s' : State}

/-- **The callback.** Nothing is known of the batch while the callback of another one runs. -/
theorem Tracks.copy (hok : batch.Ok cfg value) (h : Tracks cfg value batch s)
    (hstep : copy cfg s = some s') : Tracks cfg value batch s' := by
  have hprog := h.progress
  rw [AllShards.copy] at hstep
  cases hpc : s.pc with
  | idle | querying | returned => rw [hpc] at hstep; cases hstep
  | copying rpcId i callback left offsetAccs acc =>
    rw [hpc] at hprog hstep
    cases left with
    | cons key left =>
      cases hstep
      refine ⟨h.rpcList, h.callback, h.old, fun hid => ?_⟩
      obtain ⟨rfl, done, hc⟩ := hprog hid
      exact ⟨rfl, _, hc.copy hok⟩
    | nil =>
      simp only at hstep
      split_ifs at hstep with hacc
      cases hstep
      refine ⟨h.rpcList, h.callback, h.old, fun hid => ?_⟩
      obtain ⟨rfl, done, hc⟩ := hprog hid
      refine ⟨hc.holds, fun k key hk hlt => hc.placed k key hk (Or.inr ⟨hlt, ?_⟩)⟩
      have hall := (List.getElem?_eq_some_iff.mp hk).1
      rwa [hc.keys, List.append_nil] at hall

/-- Before the first shard nothing has to be in place. -/
theorem filled_zero (m : Bytes.Mem) : Filled cfg value batch m 0 :=
  ⟨fun j hj => absurd hj (Nat.not_lt_zero j), fun _ _ _ hlt => absurd hlt (Nat.not_lt_zero _)⟩

/-- A shard with no keys is complete, and has nothing to be put into place. -/
theorem Filled.skip (hok : batch.Ok cfg value) {m : Bytes.Mem} {i : ℕ}
    (h : Filled cfg value batch m i)
    (hnil : batch.requested i = []) : Filled cfg value batch m (i + 1) := by
  refine ⟨fun j hj => ?_, fun k key hk hlt => h.placed k key hk ?_⟩
  · rcases Nat.lt_succ_iff_lt_or_eq.mp hj with hlt | rfl
    · exact h.holds j hlt
    · rw [Holds, hnil]
      rfl
  · have hne : cfg.keyPartition key ≠ i := by
      intro heq
      have hmem : key ∈ batch.requested i := by
        rw [hok.requested, List.mem_filter]
        exact ⟨List.mem_of_getElem? hk, decide_eq_true heq⟩
      rw [hnil] at hmem
      cases hmem
    omega

/-- The callback starts for a shard that has finished. -/
theorem Filled.start {m : Bytes.Mem} {i : ℕ} (h : Filled cfg value batch m i)
    (hi : Holds cfg value batch m i) :
    Copying cfg value batch m i [] batch.callback.keys (fun _ => 0) 0 := by
  refine ⟨rfl, (Nat.zero_mul _).symm, fun _ => (Nat.zero_mul _).symm, fun j hj => ?_,
    fun k key hk hplace => h.placed k key hk ?_⟩
  · rcases Nat.lt_succ_iff_lt_or_eq.mp hj with hlt | rfl
    · exact h.holds j hlt
    · exact hi
  · exact hplace.resolve_right fun hcopied => Nat.not_lt_zero k hcopied.2

/-- How a turn of the loop of `QueryRPCFinished` ends. -/
theorem poll_cases {finished : Bool} (h : poll cfg s finished = some s') :
    ∃ rpcId i pc, s.pc = .querying rpcId i ∧ s' = { s with pc } ∧
      ((cfg.numShards ≤ i ∧ pc = .returned rpcId true) ∨
        (∃ id, (s.batchRpcId2RpcListMap (toUInt64 rpcId))[i]? = some id ∧
          toUInt64 id = magicRpcIdForEmptyRequest ∧ pc = .querying rpcId (i + 1)) ∨
        (finished = true ∧ ∃ callback, s.batchRpcId2CbMap (toUInt64 rpcId) = some callback ∧
          pc = .copying rpcId i callback callback.keys (fun _ => 0) 0) ∨
        pc = .returned rpcId false) := by
  rw [AllShards.poll] at h
  cases hpc : s.pc with
  | idle | copying | returned => rw [hpc] at h; cases h
  | querying rpcId i =>
    rw [hpc] at h
    simp only at h
    by_cases hlt : i < cfg.numShards
    · rw [if_pos hlt] at h
      cases hid : (s.batchRpcId2RpcListMap (toUInt64 rpcId))[i]? with
      | none => rw [hid] at h; cases h
      | some id =>
        rw [hid] at h
        simp only at h
        by_cases hmagic : toUInt64 id = magicRpcIdForEmptyRequest
        · rw [if_pos hmagic] at h
          cases h
          exact ⟨rpcId, i, _, rfl, rfl, Or.inr (Or.inl ⟨id, hid, hmagic, rfl⟩)⟩
        · rw [if_neg hmagic] at h
          cases finished with
          | false =>
            cases h
            exact ⟨rpcId, i, _, rfl, rfl, Or.inr (Or.inr (Or.inr rfl))⟩
          | true =>
            cases hcb : s.batchRpcId2CbMap (toUInt64 rpcId) with
            | none => rw [if_pos rfl, hcb] at h; cases h
            | some callback =>
              rw [if_pos rfl, hcb] at h
              cases h
              exact ⟨rpcId, i, _, rfl, rfl, Or.inr (Or.inr (Or.inl ⟨rfl, callback, hcb, rfl⟩))⟩
    · rw [if_neg hlt] at h
      cases h
      exact ⟨rpcId, i, _, rfl, rfl, Or.inl ⟨not_lt.mp hlt, rfl⟩⟩

/-- **One shard is asked.** -/
theorem Tracks.poll (hok : batch.Ok cfg value) (h : Tracks cfg value batch s) {finished : Bool}
    (hfair : Fair cfg value batch s (.poll finished)) (hstep : poll cfg s finished = some s') :
    Tracks cfg value batch s' := by
  obtain ⟨rpcId, i, pc, hpc, rfl, hcase⟩ := poll_cases hstep
  have hprog := h.progress
  rw [hpc] at hprog
  refine ⟨h.rpcList, h.callback, h.old, ?_⟩
  rcases hcase with ⟨hend, rfl⟩ | ⟨id, hid, hmagic, rfl⟩ | ⟨hfin, callback, hcb, rfl⟩ | rfl
  · intro hown _ k key hk
    have hpart := hok.partition key (List.mem_of_getElem? hk)
    exact (hprog hown).placed k key hk (by omega)
  · intro hown
    rw [hown, h.rpcList] at hid
    exact (hprog hown).skip hok (hok.empty i id hid hmagic)
  · intro hown
    rw [hown, h.callback] at hcb
    obtain rfl := Option.some.inj hcb
    exact ⟨rfl, [], (hprog hown).start (hfair rpcId i hpc hown hfin)⟩
  · exact fun _ hfalse => absurd hfalse Bool.false_ne_true

/-- **Every event** keeps what is known of a batch under way. -/
theorem Tracks.step (hok : batch.Ok cfg value) {e : Event} (h : Tracks cfg value batch s)
    (hfair : Fair cfg value batch s e) (hstep : step cfg s e = some s') :
    Tracks cfg value batch s' := by
  cases e with
  | arrive memory =>
    cases hstep
    exact ⟨h.rpcList, h.callback, h.old, Keeps.progress hok hfair h.progress⟩
  | poll finished => exact h.poll hok hfair hstep
  | copy => exact h.copy hok hstep
  | get keys values asyncReqId shardRpcIds =>
    rw [AllShards.step] at hstep
    split at hstep
    case h_2 => cases hstep
    case h_1 hpc =>
      cases hstep
      refine ⟨?_, ?_, h.old.trans (Nat.lt_succ_self _), ?_⟩
      · exact (Function.update_of_ne h.old.ne _ _).trans h.rpcList
      · exact (Function.update_of_ne h.old.ne _ _).trans h.callback
      · exact h.progress
  | query rpcId =>
    rw [AllShards.step] at hstep
    split at hstep
    case h_2 => cases hstep
    case h_1 hpc =>
      cases hstep
      exact ⟨h.rpcList, h.callback, h.old, fun _ => filled_zero s.memory⟩
  | resume =>
    rw [AllShards.step] at hstep
    split at hstep
    case h_2 => cases hstep
    case h_1 hpc =>
      cases hstep
      exact ⟨h.rpcList, h.callback, h.old, trivial⟩
  | revoke rpcId =>
    rw [AllShards.step] at hstep
    split at hstep
    case h_2 => cases hstep
    case h_1 hpc =>
      cases hstep
      refine ⟨?_, ?_, h.old, h.progress⟩
      · exact (Function.update_of_ne (Ne.symm hfair) _ _).trans h.rpcList
      · exact (Function.update_of_ne (Ne.symm hfair) _ _).trans h.callback

end Events

/-! ### Whole runs -/

variable {cfg value}

/-- The batch that a call of `GetParameter` starts. -/
def batchOf (s₀ s₁ : State) (keys : List UInt64) (values asyncReqId : ℕ) (shardRpcIds : List ℤ) :
    Batch :=
  ⟨⟨keys, values, asyncReqId⟩, s₁.partitionedKeyBuffer, s₀.batchRpcIDAcc, shardRpcIds⟩

/-- **A sharded fetch puts the batch together again.** Let `GetParameter` split a batch over the
shards, at most 500 keys for each, and let anything follow: answers of the shards in any order,
queries that return `false`, other batches. When `QueryRPCFinished` returns `true` for the batch,
the value of its `k`-th key is at byte `k * value_size` of `values`. -/
theorem sharded_fetch_reassembles {s₀ s₁ s : State} {keys : List UInt64} {values asyncReqId : ℕ}
    {shardRpcIds : List ℤ} (hget : step cfg s₀ (.get keys values asyncReqId shardRpcIds) = some s₁)
    (hacc : s₀.batchRpcIDAcc < 2 ^ 31) (hpart : ∀ k ∈ keys, cfg.keyPartition k < cfg.numShards)
    (hmax : ∀ i < cfg.numShards, (keys.filter fun k => cfg.keyPartition k = i).length ≤ 500)
    (hsize : ∀ k, (value k).length = cfg.valueSize) (hfour : 4 ∣ cfg.valueSize)
    (hapart : ∀ i < cfg.numShards,
      values + keys.length * cfg.valueSize ≤ cfg.partitionedRecvBuffer i asyncReqId ∨
        cfg.partitionedRecvBuffer i asyncReqId + ((s₁.partitionedKeyBuffer i).flatMap value).length
          ≤ values)
    (hempty : ∀ i id, shardRpcIds[i]? = some id → toUInt64 id = magicRpcIdForEmptyRequest →
      s₁.partitionedKeyBuffer i = [])
    {events : List Event}
    (hfair : Run.Guarded (step cfg)
      (Fair cfg value (batchOf s₀ s₁ keys values asyncReqId shardRpcIds)) s₁ events)
    (hrun : Run.run (step cfg) s₁ events = some s)
    (hret : s.pc = .returned (getParameter cfg s₀ keys values asyncReqId shardRpcIds).2 true) :
    ∀ k (hk : k < keys.length),
      Bytes.load s.memory (values + k * cfg.valueSize) cfg.valueSize = value keys[k] := by
  rw [step] at hget
  split at hget
  case h_2 => cases hget
  case h_1 hidle =>
    obtain rfl := Option.some.inj hget
    have hreq : ∀ i, (keys.filter fun k => cfg.keyPartition k = i).length ≤ 500 := by
      intro i
      rcases Nat.lt_or_ge i cfg.numShards with hlt | hge
      · exact hmax i hlt
      · rw [filter_keyPartition_eq_nil hpart hge]
        exact Nat.zero_le 500
    have hok : (batchOf s₀ (getParameter cfg s₀ keys values asyncReqId shardRpcIds).1 keys values
        asyncReqId shardRpcIds).Ok cfg value := by
      refine ⟨hpart, fun i => ?_, hsize, hfour, hapart, hempty⟩
      change (partitionKeys cfg keys (fun _ => []) i).take 500 = _
      rw [partitionKeys_eq, List.nil_append, List.take_of_length_le (hreq i)]
      rfl
    have htracks : Tracks cfg value (batchOf s₀ (getParameter cfg s₀ keys values asyncReqId
        shardRpcIds).1 keys values asyncReqId shardRpcIds)
        (getParameter cfg s₀ keys values asyncReqId shardRpcIds).1 := by
      refine ⟨Function.update_self .., Function.update_self .., Nat.lt_succ_self _, ?_⟩
      change Progress cfg value _ _ s₀.pc
      rw [hidle]
      trivial
    have hend := Run.run_history (P := fun _ => Tracks cfg value _)
      (fun _ _ _ _ h hg hstep => h.step hok hg hstep) [] htracks hfair hrun
    have hprog := hend.progress
    rw [hret] at hprog
    intro k hk
    exact hprog (toUInt64_toInt32 hacc) rfl k keys[k] (List.getElem?_eq_getElem hk)

/-- Two shards, for the even and the odd keys. -/
def twoShards : Config := ⟨2, fun k => (k % 2).toNat, 4, fun i _ => 1000 * (i + 1)⟩

/-- A wrapper without batches. -/
def start : State := ⟨fun _ => 0, fun _ => [], 0, fun _ => [], fun _ => none, .idle⟩

/-- A fetch of the keys `1, 2, 1`. The first query finds only the even shard finished. -/
def fetch : List Event :=
  [.arrive fun x => if x = 1000 then 2 else 0, .query 0, .poll true, .copy, .copy, .copy, .copy,
    .poll false, .resume,
    .arrive fun x => if x = 1000 ∨ x = 5004 then 2 else if x = 2000 ∨ x = 2004 then 1 else 0,
    .query 0, .poll true, .copy, .copy, .copy, .copy, .poll true, .copy, .copy, .copy, .copy,
    .poll true]

theorem sharded_fetch_three_keys : ∃ s₁ s,
    step twoShards start (.get [1, 2, 1] 5000 0 [8, 9]) = some s₁ ∧
      Run.run (step twoShards) s₁ fetch = some s ∧
      Bytes.load s.memory 5004 4 = Bytes.encode32 2 ∧
        Bytes.load s.memory 5008 4 = Bytes.encode32 1 := by
  set s₁ := (getParameter twoShards start [1, 2, 1] 5000 0 [8, 9]).1 with hs₁
  have hget : step twoShards start (.get [1, 2, 1] 5000 0 [8, 9]) = some s₁ := rfl
  have heval : ((Run.run (step twoShards) s₁ fetch).any fun s =>
      match s.pc with
      | .returned rpcId finished => decide (rpcId = 0) && finished
      | _ => false) = true := by
    decide +kernel
  rw [Option.any_eq_true] at heval
  obtain ⟨s, hrun, hpc⟩ := heval
  have hret : s.pc = .returned 0 true := by
    cases hs : s.pc with
    | idle | querying | copying => rw [hs] at hpc; cases hpc
    | returned rpcId finished =>
      rw [hs, Bool.and_eq_true, decide_eq_true_eq] at hpc
      rw [hpc.1, hpc.2]
  have hempty : ∀ i id, [8, 9][i]? = some id → toUInt64 id = magicRpcIdForEmptyRequest →
      s₁.partitionedKeyBuffer i = [] := by
    intro i id hid hmagic
    rcases List.mem_pair.mp (List.mem_of_getElem? hid) with rfl | rfl
    · exact absurd hmagic (by decide)
    · exact absurd hmagic (by decide)
  have hpart : ∀ k ∈ [1, 2, 1], twoShards.keyPartition k < twoShards.numShards := by
    intro k _
    show (k % 2).toNat < 2
    rw [UInt64.toNat_mod]
    exact Nat.mod_lt _ (by decide)
  have h := sharded_fetch_reassembles hget (by decide) hpart (by decide)
    (fun k => Bytes.length_encode32 (n := k.toNat)) (by decide +kernel) (by decide +kernel) hempty
    (by decide +kernel) hrun hret
  exact ⟨s₁, s, hget, hrun, h 1 (by decide), h 2 (by decide)⟩

end AllShards

end PetPS

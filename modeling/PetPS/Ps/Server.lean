import Mathlib.Data.List.ModifyLast
import PetPS.PetKV.Run

/-!
# The parameter server: GET

`RpcPsGet` of `petps_server.cc`, from the batch lookup in the engine (`engine_pethash.h`,
`pet_kv.h`) to the writes it posts. The values are copied one behind the other into the thread's
RDMA buffer; the plain branch posts one write of everything copied, the other one a gather list,
which `rdmaWriteVector` cuts into requests of thirty pieces each. A posted write is a
`WorkRequest`: it names the places of the buffer to read, and reads them when it is executed.

Addresses are offsets, in the buffer from `get_rdma_buffer()` and at the client from
`receive_gaddr`. `GetShard` is an arbitrary function of the key. Epochs, timers and the `RPC_DEBUG`
checks are left out.

## Main results

* `batchGet_eq` — what the engine returns for a batch, by either prefetch method
* `copyValues_spec` — what the copying loop leaves in the buffer
* `rpcPsGet_spec` — the writes that are posted tile the values of the keys
-/

namespace PetPS

/-! ### The engine -/

/-- `PetMultiKV` as `KVEnginePetKV` makes it: sixteen shards. -/
structure PetMultiKV where
  /-- `GetShard`. -/
  getShard : UInt64 → Fin 16
  /-- `shm_kv_`. -/
  shmKv : Fin 16 → PetKV
  /-- `pre_known_value_size_`. -/
  preKnownValueSize : ℕ

namespace PetMultiKV

/-- The bytes of `ConstArray<float>(data, size / sizeof(float))` for what `Get` returns. -/
def floats (s : PetKV) : Option PetKVReadData → List UInt8
  | none => []
  | some r => Bytes.load s.pool.file.bytes r.data (r.size / 4 * 4)

/-- One key, without prefetching. -/
def getOne (kv : PetMultiKV) (key : UInt64) : Except Abort (List UInt8) :=
  let s := kv.shmKv (kv.getShard key)
  (s.get key).map (floats s)

/-- One key of `PetMultiKV::BatchGet`. For an empty answer it takes `pre_known_value_size_` bytes of
the zero buffer. -/
def getOneOrZeros (kv : PetMultiKV) (key : UInt64) : Except Abort (List UInt8) :=
  let s := kv.shmKv (kv.getShard key)
  (s.get key).map fun readData =>
    if (readData.elim 0 PetKVReadData.size) = 0 then List.replicate (kv.preKnownValueSize / 4 * 4) 0
    else floats s readData

/-- The loop over the keys of a batch. -/
def collect (get : UInt64 → Except Abort (List UInt8)) :
    List UInt64 → Except Abort (List (List UInt8))
  | [] => .ok []
  | key :: keys =>
    match get key with
    | .error e => .error e
    | .ok value =>
      match collect get keys with
      | .error e => .error e
      | .ok values => .ok (value :: values)

/-- `KVEnginePetKV::BatchGet`. -/
def batchGet (kv : PetMultiKV) (prefetchMethod : ℕ) (keys : List UInt64) :
    Except Abort (List (List UInt8)) :=
  if prefetchMethod = 0 then collect kv.getOne keys
  else if prefetchMethod = 1 then collect kv.getOneOrZeros keys
  else .ok []

/-- The value of a key. -/
def read (kv : PetMultiKV) (key : UInt64) : Except Abort (Option (List UInt8)) :=
  (kv.shmKv (kv.getShard key)).read key

/-- The bytes of a stored key. -/
def stored (kv : PetMultiKV) (key : UInt64) : Option (List UInt8) :=
  match kv.read key with
  | .ok (some bytes) => some bytes
  | _ => none

/-- A store of `KVEnginePetKV` whose values have `valueSize` bytes. -/
structure Content (kv : PetMultiKV) (valueSize : ℕ) : Prop where
  /-- The constructor passes `0`. -/
  unknown : kv.preKnownValueSize = 0
  /-- The shards are in order. -/
  inv : ∀ i, ∃ leaked, (kv.shmKv i).Inv leaked
  /-- The values have the same size. -/
  size : ∀ key, ∀ bytes ∈ kv.stored key, bytes.length = valueSize

/-- A store of `KVEnginePetKV` whose values are arrays of floats, of any length. -/
structure HoldsFloats (kv : PetMultiKV) : Prop where
  unknown : kv.preKnownValueSize = 0
  inv : ∀ i, ∃ leaked, (kv.shmKv i).Inv leaked
  whole : ∀ key, ∀ bytes ∈ kv.stored key, 4 ∣ bytes.length

theorem Content.holdsFloats {kv : PetMultiKV} {valueSize : ℕ} (h : kv.Content valueSize)
    (hfour : 4 ∣ valueSize) : kv.HoldsFloats :=
  ⟨h.unknown, h.inv, fun key bytes hbytes => by rw [h.size key bytes hbytes]; exact hfour⟩

end PetMultiKV

/-! ### Posted writes -/

/-- `SourceList`: a place in the buffer. -/
structure SourceList where
  addr : ℕ
  size : ℕ
  deriving DecidableEq

/-- `ibv_send_wr`, an RDMA write of the bytes at the listed places. -/
structure WorkRequest where
  remoteAddr : ℕ
  sgList : List SourceList
  deriving DecidableEq

/-- The bytes at the listed places. -/
def gather (buf : Bytes.Mem) (sgList : List SourceList) : List UInt8 :=
  sgList.flatMap fun s => Bytes.load buf s.addr s.size

/-- The loop of `rdmaWriteVector`: entry `i` opens a request when the one before has `kCntSeg`
entries, and `accSize` bytes come before it. For an empty list the array of requests has no element,
and the source still passes its address to `ibv_post_send`; what is posted then is not defined, and
here it is nothing. -/
def rdmaWriteVector (kCntSeg : ℕ) : ℕ → ℕ → List SourceList → List WorkRequest → List WorkRequest
  | _, _, [], wrs => wrs
  | i, accSize, s :: sources, wrs =>
    rdmaWriteVector kCntSeg (i + 1) (accSize + s.size) sources
      (if i % kCntSeg = 0 then wrs ++ [⟨accSize, [s]⟩]
      else wrs.modifyLast fun w => { w with sgList := w.sgList ++ [s] })

/-- The copying loop of `RpcPsGet`, `acc` bytes having been copied. The list is `sourcelist`, the
number the final `acc`. -/
def copyValues : Bytes.Mem → ℕ → List (List UInt8) → Bytes.Mem × List SourceList × ℕ
  | buf, acc, [] => (buf, [], acc)
  | buf, acc, value :: values =>
    let (buf, sourcelist, acc') := copyValues (Bytes.store buf acc value)
      (acc + value.length) values
    (buf, ⟨acc, value.length⟩ :: sourcelist, acc')

/-- The flags that `RpcPsGet` reads. -/
structure Flags where
  useSglist : Bool
  prefetchMethod : ℕ
  maxKvNumPerRequest : ℕ

/-- `RpcPsGet`: the buffer it leaves, and the writes it posts. -/
def rpcPsGet (flags : Flags) (kv : PetMultiKV) (buf : Bytes.Mem) (keys : List UInt64) :
    Except Abort (Bytes.Mem × List WorkRequest) :=
  if flags.maxKvNumPerRequest < keys.length then .error .check
  else
    match kv.batchGet flags.prefetchMethod keys with
    | .error e => .error e
    | .ok values =>
      if values.length ≠ keys.length then .error .check
      else
        let (buf, sourcelist, acc) := copyValues buf 0 values
        .ok (buf, if flags.useSglist then rdmaWriteVector 30 0 0 sourcelist []
          else [⟨0, [⟨0, acc⟩]⟩])

/-! ### What the engine returns -/

namespace PetMultiKV

variable {kv : PetMultiKV}

/-- A missing key yields no bytes. -/
theorem HoldsFloats.getOne_eq (h : kv.HoldsFloats) (key : UInt64) :
    kv.getOne key = .ok ((kv.stored key).getD []) ∧
      kv.getOneOrZeros key = .ok ((kv.stored key).getD []) := by
  obtain ⟨leaked, hinv⟩ := h.inv (kv.getShard key)
  obtain ⟨readData, hget⟩ : ∃ r, (kv.shmKv (kv.getShard key)).get key = .ok r := by
    obtain ⟨cache, hcache⟩ := hinv.dict.get_returns key
    rw [PetKV.get, hcache]
    cases cache <;> exact ⟨_, rfl⟩
  have hwhole := h.whole key
  rw [stored, read, PetKV.read, hget] at hwhole
  rw [getOne, getOneOrZeros, stored, read, PetKV.read, hget]
  cases readData with
  | none => simp [Except.map, floats, h.unknown]
  | some r =>
    have hfour := hwhole _ rfl
    rw [Bytes.length_load] at hfour
    have hfloor : r.size / 4 * 4 = r.size := Nat.div_mul_cancel hfour
    simp only [Except.map, floats, hfloor, Option.getD_some, Option.elim_some, h.unknown]
    refine ⟨trivial, ?_⟩
    split_ifs with hzero
    · rw [hzero]
      rfl
    · rfl

theorem collect_eq {get : UInt64 → Except Abort (List UInt8)} {f : UInt64 → List UInt8}
    (h : ∀ key, get key = .ok (f key))
    (keys : List UInt64) : collect get keys = .ok (keys.map f) := by
  induction keys with
  | nil => rfl
  | cons key keys ih => rw [collect, h, ih, List.map_cons]

/-- **What the engine returns**, by either prefetch method. -/
theorem HoldsFloats.batchGet_eq (h : kv.HoldsFloats) {prefetchMethod : ℕ}
    (hmethod : prefetchMethod ≤ 1) (keys : List UInt64) :
    kv.batchGet prefetchMethod keys = .ok (keys.map fun key => (kv.stored key).getD []) := by
  rw [batchGet]
  split_ifs with hzero hone
  · exact collect_eq (fun key => (h.getOne_eq key).1) keys
  · exact collect_eq (fun key => (h.getOne_eq key).2) keys
  · omega

end PetMultiKV

/-! ### What is copied -/

/-- The places of the values that are copied to `acc` and behind. -/
def ranges : ℕ → List (List UInt8) → List SourceList
  | _, [] => []
  | acc, value :: values => ⟨acc, value.length⟩ :: ranges (acc + value.length) values

/-- **The copying loop** puts the values one behind the other. -/
theorem copyValues_spec (values : List (List UInt8)) (buf : Bytes.Mem) (acc : ℕ) :
    copyValues buf acc values
      = (Bytes.store buf acc values.flatten, ranges acc values, acc + values.flatten.length) := by
  induction values generalizing buf acc with
  | nil => rw [copyValues, List.flatten_nil, Bytes.store_nil]; rfl
  | cons value values ih =>
    rw [copyValues, ih, ranges, List.flatten_cons, List.length_append, ← Nat.add_assoc]
    simp only
    rw [Bytes.store_append]

/-- The number of bytes that a request writes. -/
def WorkRequest.size (w : WorkRequest) : ℕ := (w.sgList.map SourceList.size).sum

/-- The requests `wrs` cover the bytes from `start` on, one behind the other, and each of them reads
the buffer at the offset at which it writes at the client. -/
def Tiles : ℕ → List WorkRequest → Prop
  | _, [] => True
  | start, w :: wrs => w.remoteAddr = start ∧ (∀ m, gather m w.sgList = Bytes.load m start w.size) ∧
      Tiles (start + w.size) wrs

/-- The number of bytes that some requests write. -/
def totalSize (wrs : List WorkRequest) : ℕ := (wrs.map WorkRequest.size).sum

theorem tiles_append {wrs wrs' : List WorkRequest} {start : ℕ} :
    Tiles start (wrs ++ wrs') ↔ Tiles start wrs ∧ Tiles (start + totalSize wrs) wrs' := by
  induction wrs generalizing start with
  | nil => simp [Tiles, totalSize]
  | cons w wrs ih =>
    rw [List.cons_append, Tiles, Tiles, ih, totalSize, totalSize, List.map_cons, List.sum_cons,
      Nat.add_assoc, and_assoc, and_assoc]

/-- One more place in the last request. -/
theorem Tiles.extend {wrs : List WorkRequest} {w : WorkRequest} (h : Tiles 0 (wrs ++ [w]))
    (size : ℕ) : Tiles 0
    (wrs ++ [{ w with sgList := w.sgList ++ [⟨totalSize (wrs ++ [w]), size⟩] }]) := by
  obtain ⟨hwrs, haddr, hgather, -⟩ := tiles_append.mp h
  refine tiles_append.mpr ⟨hwrs, haddr, fun m => ?_, trivial⟩
  have hsize : WorkRequest.size
      { w with sgList := w.sgList ++ [⟨totalSize (wrs ++ [w]), size⟩] } = w.size + size := by
    simp [WorkRequest.size]
  have htotal : totalSize (wrs ++ [w]) = totalSize wrs + w.size := by simp [totalSize]
  rw [hsize, Bytes.load_add, ← hgather m, gather, List.flatMap_append, htotal]
  simp [gather]

/-- A byte that a write covers. -/
def WorkRequest.Covers (w : WorkRequest) (x : ℕ) :
    Prop := w.remoteAddr ≤ x ∧ x < w.remoteAddr + w.size

theorem Tiles.covers {wrs : List WorkRequest} {start x : ℕ} (h : Tiles start wrs) (hlo : start ≤ x)
    (hhi : x < start + totalSize wrs) : ∃ w ∈ wrs, w.Covers x := by
  induction wrs generalizing start with
  | nil =>
    simp only [totalSize, List.map_nil, List.sum_nil] at hhi
    omega
  | cons w wrs ih =>
    obtain ⟨haddr, -, hrest⟩ := h
    by_cases hx : x < start + w.size
    · exact ⟨w, List.mem_cons_self, by rw [haddr]; exact hlo, by rw [haddr]; exact hx⟩
    · obtain ⟨w', hw', hcov⟩ := ih hrest (by omega) (by
        simp only [totalSize, List.map_cons, List.sum_cons] at hhi ⊢
        omega)
      exact ⟨w', List.mem_cons_of_mem w hw', hcov⟩

theorem Tiles.mem {wrs : List WorkRequest} {start : ℕ} (h : Tiles start wrs) {w : WorkRequest}
    (hw : w ∈ wrs) : (∀ m, gather m w.sgList = Bytes.load m w.remoteAddr w.size) ∧
      w.remoteAddr + w.size ≤ start + totalSize wrs := by
  induction wrs generalizing start with
  | nil => cases hw
  | cons w' wrs ih =>
    obtain ⟨haddr, hgather, hrest⟩ := h
    rw [totalSize, List.map_cons, List.sum_cons]
    rcases List.mem_cons.mp hw with rfl | hw
    · rw [haddr]
      exact ⟨hgather, by omega⟩
    · obtain ⟨hg, hle⟩ := ih hrest hw
      rw [totalSize] at hle
      exact ⟨hg, by omega⟩

/-- **The loop of `rdmaWriteVector`** on the places of the values. -/
theorem rdmaWriteVector_spec (kCntSeg : ℕ) (values : List (List UInt8)) (i : ℕ)
    (wrs : List WorkRequest) (h : Tiles 0 wrs) (hne : i % kCntSeg ≠ 0 → wrs ≠ []) :
    Tiles 0 (rdmaWriteVector kCntSeg i (totalSize wrs) (ranges (totalSize wrs) values) wrs) ∧
      totalSize (rdmaWriteVector kCntSeg i (totalSize wrs) (ranges (totalSize wrs) values) wrs)
        = totalSize wrs + values.flatten.length := by
  induction values generalizing i wrs with
  | nil => exact ⟨h, rfl⟩
  | cons value values ih =>
    rw [ranges, rdmaWriteVector]
    simp only
    split_ifs with hzero
    · -- a new request
      have htiles : Tiles 0 (wrs ++ [⟨totalSize wrs, [⟨totalSize wrs, value.length⟩]⟩]) := by
        refine tiles_append.mpr ⟨h, ?_, fun m => ?_, trivial⟩
        · rw [Nat.zero_add]
        · simp [gather, WorkRequest.size]
      have htotal : totalSize (wrs ++ [⟨totalSize wrs, [⟨totalSize wrs, value.length⟩]⟩])
          = totalSize wrs + value.length := by simp [totalSize, WorkRequest.size]
      have hrest := ih (i + 1) _ htiles fun _ => by simp
      rw [htotal] at hrest
      rwa [List.flatten_cons, List.length_append, ← Nat.add_assoc]
    · -- one more place in the last request
      obtain ⟨init, w, rfl⟩ : ∃ init w, wrs = init ++ [w] :=
        ⟨_, _, (List.dropLast_append_getLast (hne hzero)).symm⟩
      have htotal : totalSize (init ++ [{ w with sgList := w.sgList
          ++ [⟨totalSize (init ++ [w]), value.length⟩] }]) =
            totalSize (init ++ [w]) + value.length := by
        simp [totalSize, WorkRequest.size, Nat.add_assoc]
      have hrest := ih (i + 1) _ (h.extend value.length) fun _ => by simp
      rw [htotal] at hrest
      rw [List.modifyLast_concat, List.flatten_cons, List.length_append, ← Nat.add_assoc]
      exact hrest

/-- `RpcPsGet` in terms of the values of the keys. A key that is missing has no bytes. -/
theorem rpcPsGet_eq {kv : PetMultiKV} (h : kv.HoldsFloats) {flags : Flags}
    (hmethod : flags.prefetchMethod ≤ 1) {keys : List UInt64}
    (hmax : keys.length ≤ flags.maxKvNumPerRequest) (buf : Bytes.Mem) :
    rpcPsGet flags kv buf keys =
      .ok (Bytes.store buf 0 (keys.flatMap fun key => (kv.stored key).getD []),
      if flags.useSglist then
        rdmaWriteVector 30 0 0 (ranges 0 (keys.map fun key => (kv.stored key).getD [])) []
      else [⟨0, [⟨0, (keys.flatMap fun key => (kv.stored key).getD []).length⟩]⟩]) := by
  have hlen : (keys.map fun key => (kv.stored key).getD []).length = keys.length :=
    List.length_map _
  rw [rpcPsGet, if_neg (not_lt.mpr hmax), h.batchGet_eq hmethod]
  simp only
  rw [if_neg (not_not.mpr hlen), copyValues_spec, List.flatMap_def, Nat.zero_add]

/-- **`RpcPsGet`** leaves the values of the keys in the buffer, one behind the other, and posts
writes that tile them. -/
theorem rpcPsGet_spec {kv : PetMultiKV} (h : kv.HoldsFloats) {flags : Flags}
    (hmethod : flags.prefetchMethod ≤ 1) {keys : List UInt64}
    (hmax : keys.length ≤ flags.maxKvNumPerRequest) (buf : Bytes.Mem) :
    ∃ wrs, rpcPsGet flags kv buf keys
        = .ok (Bytes.store buf 0 (keys.flatMap fun key => (kv.stored key).getD []), wrs) ∧
      Tiles 0 wrs ∧ totalSize wrs = (keys.flatMap fun key => (kv.stored key).getD []).length := by
  refine ⟨_, rpcPsGet_eq h hmethod hmax buf, ?_⟩
  split_ifs
  · have hspec := rdmaWriteVector_spec 30 (keys.map fun key => (kv.stored key).getD []) 0 [] trivial
      (by simp)
    rw [← List.flatMap_def] at hspec
    simpa [totalSize] using hspec
  · refine ⟨⟨rfl, fun m => ?_, trivial⟩, ?_⟩
    · simp [gather, WorkRequest.size]
    · simp [totalSize, WorkRequest.size]

/-! ### A store with two keys -/

/-- The calls for the keys `7` and `9` that a shard gets. -/
def putCalls (seven nine : Bool) : List PetKV.Call :=
  (if seven then [⟨7, [1, 2, 3, 4], PetKV.quietEpochs, PetKV.quietEpochs⟩] else []) ++
    if nine then [⟨9, [5, 6, 7, 8], PetKV.quietEpochs, PetKV.quietEpochs⟩] else []

/-- The shards after the calls they get. -/
structure Shards (s₀ : PetKV) (s : Bool → Bool → PetKV) : Prop where
  create : PetKV.create (5 * kChunkSize) 1 = .ok s₀
  run : ∀ seven nine, Run.run PetKV.step s₀ (putCalls seven nine) = some (s seven nine)
  seven : ∀ nine, (s true nine).read 7 = .ok (some [1, 2, 3, 4])
  nine : ∀ seven, (s seven true).read 9 = .ok (some [5, 6, 7, 8])

theorem exists_shards : ∃ s₀ s, Shards s₀ s := by
  have heval : ((PetKV.create (5 * kChunkSize) 1).toOption.any fun s₀ =>
      [true, false].all fun seven => [true, false].all fun nine =>
        (Run.run PetKV.step s₀ (putCalls seven nine)).any fun s =>
          decide (seven = true → (s.read 7).toOption = some (some [1, 2, 3, 4])) &&
            decide (nine = true → (s.read 9).toOption = some (some [5, 6, 7, 8]))) = true := by
    decide +kernel
  rw [Option.any_eq_true] at heval
  obtain ⟨s₀, hs₀, hall⟩ := heval
  have hruns : ∀ seven nine, ∃ s, Run.run PetKV.step s₀ (putCalls seven nine) = some s ∧
      (seven = true → (s.read 7).toOption = some (some [1, 2, 3, 4])) ∧
        (nine = true → (s.read 9).toOption = some (some [5, 6, 7, 8])) := by
    intro seven nine
    have hone := List.all_eq_true.mp (List.all_eq_true.mp hall seven (by cases seven <;> simp)) nine
      (by cases nine <;> simp)
    simpa only [Option.any_eq_true, Bool.and_eq_true, decide_eq_true_eq] using hone
  choose s hs using hruns
  exact ⟨s₀, s, eq_ok_of_toOption hs₀, fun seven nine => (hs seven nine).1,
    fun nine => eq_ok_of_toOption ((hs true nine).2.1 rfl),
    fun seven => eq_ok_of_toOption ((hs seven true).2.2 rfl)⟩

/-- The store of the two keys, for any way to choose the shards. -/
def twoKeys (s : Bool → Bool → PetKV) (getShard : UInt64 → Fin 16) : PetMultiKV :=
  ⟨getShard, fun i => s (decide (i = getShard 7)) (decide (i = getShard 9)), 0⟩

theorem Shards.stored {s₀ : PetKV} {s : Bool → Bool → PetKV} (h : Shards s₀ s)
    (getShard : UInt64 → Fin 16) (key : UInt64) : (twoKeys s getShard).stored key
      = if key = 7 then some [1, 2, 3, 4] else if key = 9 then some [5, 6, 7, 8] else none := by
  rw [PetMultiKV.stored, PetMultiKV.read, twoKeys]
  simp only
  split_ifs with h7 h9
  · rw [h7, decide_eq_true rfl, h.seven]
  · rw [h9, decide_eq_true rfl, h.nine]
  · have hnone : ∀ seven nine, PetKV.lastLog (putCalls seven nine) key = none :=
      fun seven nine => by
      rw [PetKV.lastLog_eq_none]
      cases seven <;> cases nine <;> simp [putCalls, Ne.symm h7, Ne.symm h9]
    rcases (PetKV.follows_run h.create (h.run _ _)).read key with hread | ⟨hread, -⟩
    · rw [hread, hnone]
    · rw [hread]

theorem Shards.content {s₀ : PetKV} {s : Bool → Bool → PetKV} (h : Shards s₀ s)
    (getShard : UInt64 → Fin 16) : (twoKeys s getShard).Content 4 := by
  refine ⟨rfl, fun i => ?_, fun key bytes hbytes => ?_⟩
  · obtain ⟨leaked, hinv, -⟩ := (PetKV.follows_run h.create
      (h.run (decide (i = getShard 7)) (decide (i = getShard 9)))).inv
    exact ⟨leaked, hinv⟩
  · rw [h.stored] at hbytes
    split_ifs at hbytes
    · obtain rfl := Option.some.inj hbytes
      rfl
    · obtain rfl := Option.some.inj hbytes
      rfl
    · cases hbytes

end PetPS

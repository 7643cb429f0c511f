import PetPS.PetHash.Table
import PetPS.Memory.Pool

/-!
# `PetKV`

`pet_kv.h`, `pet_kv.cc`: the dictionary maps a key to the packed offset of a block in the pool, and
the block holds the bytes of the last `Update` behind their length. A block that is replaced goes to
the recycler and is freed later.

The epochs the recycler reads belong to a manager that all shards and readers share, so they are
arguments: the removal epoch of a call, and the safe epoch at each of its tests. When the recycler
bumps the epoch is left to `Epoch.Overwrite`; nothing of a `PetKV` depends on it. Pointers are
offsets from the start of the pool file. Timestamps, flushes and log lines are left out.
-/

namespace PetPS

/-! ### Packed offsets -/

/-- `PetKVData`: 48 bits of offset above 16 bits of expiry. -/
structure PetKVData where
  /-- `data_value`, a `uint64_t`. -/
  dataValue : ℕ
  deriving DecidableEq

instance : Inhabited PetKVData := ⟨⟨0⟩⟩

namespace PetKVData

/-- `kExpireBit` of `Config(48)`. -/
def kExpireBit : ℕ := 16

/-- `kExpireReductBit`. -/
def kExpireReductBit : ℕ := 16

/-- `kExpireMark`. -/
def kExpireMark : ℕ := 2 ^ 16 - 1

/-- `kNoMallocOffset`. -/
def kNoMallocOffset : ℕ := 2 ^ 48 - 1

/-- `shm_malloc_offset`. -/
def shmMallocOffset (d : PetKVData) : ℤ :=
  let offset := d.dataValue >>> kExpireBit
  if offset = kNoMallocOffset then -1 else ((offset * 2 ^ 3 % 2 ^ 64 : ℕ) : ℤ)

/-- `SetShmMallocOffset`; `>> 3` rounds down. -/
def setShmMallocOffset (d : PetKVData) (shmMallocOffset : ℤ) : PetKVData :=
  let offset : ℤ := if shmMallocOffset = -1 then kNoMallocOffset else shmMallocOffset / 2 ^ 3
  ⟨(d.dataValue &&& kExpireMark) ||| (offset * 2 ^ kExpireBit % 2 ^ 64).toNat⟩

/-- `PetKVData(offset)`. -/
def ofOffset (offset : ℤ) : PetKVData := setShmMallocOffset ⟨0⟩ offset

/-- `expire_timet`, a `uint32`. -/
def expireTimet (d : PetKVData) : ℕ := (d.dataValue &&& kExpireMark) * 2 ^ kExpireReductBit % 2 ^ 32

/-- **An aligned offset in the address space survives packing.** -/
theorem shmMallocOffset_set (d : PetKVData) {offset : ℕ} (h8 : offset % 8 = 0)
    (hlt : offset ≤ userSpace) : (d.setShmMallocOffset offset).shmMallocOffset = offset := by
  have hword : (((offset : ℤ) / 2 ^ 3) * 2 ^ kExpireBit % 2 ^ 64).toNat = offset / 8 * 2 ^ 16 := by
    rw [userSpace] at hlt
    rw [kExpireBit]
    omega
  have hne : (offset : ℤ) ≠ -1 := by omega
  have hlow : (d.dataValue &&& kExpireMark) >>> 16 = 0 := by
    rw [Nat.shiftRight_eq_div_pow]
    refine Nat.div_eq_of_lt (lt_of_le_of_lt Nat.and_le_right ?_)
    decide
  have hoff : (d.setShmMallocOffset offset).dataValue >>> kExpireBit = offset / 8 := by
    rw [setShmMallocOffset, if_neg hne, hword, kExpireBit, Nat.shiftRight_or_distrib, hlow,
      Nat.zero_or, Nat.shiftRight_eq_div_pow, Nat.mul_div_cancel _ (by decide)]
  rw [userSpace] at hlt
  rw [shmMallocOffset, hoff, if_neg (by rw [kNoMallocOffset]; omega)]
  omega

end PetKVData

/-! ### The store -/

/-- What `Recycle` reads of the epoch manager. -/
structure Epochs where
  /-- `GetCurrentEpoch`. -/
  current : ℕ
  /-- `safe_to_reclaim_epoch_`, at each test of the freeing loop. -/
  safe : ℕ → ℕ

/-- `PetKVReadData`. -/
structure PetKVReadData where
  expireTimet : ℕ
  /-- The block. -/
  data : ℕ
  size : ℕ
  deriving DecidableEq

/-- `PetKV` with `pre_known_value_size_ = 0`. -/
structure PetKV where
  /-- `dict_`. -/
  dict : PetHash PetKVData
  /-- `shm_malloc_`. -/
  pool : PersistMemoryPool
  /-- `recycle_ptr_` of `shm_recycle_`. -/
  recyclePtr : List (ℕ × ℕ)

/-- The slab sizes of the constructor. -/
def slabSizes : List ℕ := [8 + 32, 8 + 64, 8 + 128, 8 + 512, 8 + 1024]

namespace PersistMemoryPool

/-- `GetMallocData(offset)`. -/
def getMallocData (offset : ℤ) : ℕ := offset.toNat

/-- `GetMallocOffset`, with its check. -/
def getMallocOffset (data : ℕ) : Except Abort ℤ :=
  if data / 8 * 8 = data then .ok data else .error .check

end PersistMemoryPool

/-! ### Recycling -/

/-- The freeing loop of `Recycle`; `i` tests have been made. -/
def reclaim (safe : ℕ → ℕ) : ℕ → List (ℕ × ℕ) → PersistMemoryPool →
    Except Abort (List (ℕ × ℕ) × PersistMemoryPool)
  | _, [], pool => .ok ([], pool)
  | i, (epoch, ptr) :: rest, pool =>
    if epoch ≤ safe i then
      match pool.free ptr with
      | (pool, true) => reclaim safe (i + 1) rest pool
      | (_, false) => .error .check
    else .ok ((epoch, ptr) :: rest, pool)

/-- `ShmEpochRecycle::Recycle`, of a pointer that is not null. -/
def recycle (epochs : Epochs) (ptr : ℕ) (recyclePtr : List (ℕ × ℕ)) (pool : PersistMemoryPool) :
    Except Abort (List (ℕ × ℕ) × PersistMemoryPool) :=
  reclaim epochs.safe 0 (recyclePtr ++ [(epochs.current, ptr)]) pool

/-- `ShmEpochRecycle::Clear`. -/
def clearRecycle : List (ℕ × ℕ) → PersistMemoryPool → Except Abort PersistMemoryPool
  | [], pool => .ok pool
  | (_, ptr) :: rest, pool =>
    match pool.free ptr with
    | (pool, true) => clearRecycle rest pool
    | (_, false) => .error .check

namespace PetKV

/-- `p_cache->SetShmMallocOffset(offset)`. -/
def setOffset (t : PetHash PetKVData) (pos : ℕ) (id : Slot) (offset : ℤ) : PetHash PetKVData :=
  t.setValue pos id (((t.chunkTable pos).value id).second.setShmMallocOffset offset)

/-- `p_cache->shm_malloc_offset()`. -/
def cacheOffset (t : PetHash PetKVData) (pos : ℕ) (id : Slot) : ℤ :=
  ((t.chunkTable pos).value id).second.shmMallocOffset

/-- The end of `Update`: the pair is read again, and the new block recycled if it is not there. -/
def reread (s : PetKV) (epochs : Epochs) (pos : ℕ) (id : Slot) (newCache : PetKVData) :
    Except Abort PetKV :=
  if cacheOffset s.dict pos id ≠ newCache.shmMallocOffset then
    match recycle epochs (PersistMemoryPool.getMallocData newCache.shmMallocOffset) s.recyclePtr
      s.pool with
    | .error e => .error e
    | .ok (recyclePtr, pool) => .ok { s with recyclePtr, pool }
  else .ok s

/-- The branch of `Update` for a new key. -/
def updateNew (s : PetKV) (epochs : Epochs) (key : UInt64) (newCache : PetKVData) :
    Except Abort PetKV :=
  match s.dict.insert key newCache none true with
  | .error e => .error e
  | .ok (dict, pos, id) =>
    { s with dict := setOffset dict pos id newCache.shmMallocOffset }.reread epochs pos id newCache

/-- The branch of `Update` for a key that is in slot `id` of the chunk at `pos`. -/
def updateOld (s : PetKV) (epochs epochs' : Epochs) (pos : ℕ) (id : Slot) (newCache : PetKVData) :
    Except Abort PetKV :=
  match recycle epochs (PersistMemoryPool.getMallocData (cacheOffset s.dict pos id)) s.recyclePtr
    s.pool with
  | .error e => .error e
  | .ok (recyclePtr, pool) =>
    { s with
      recyclePtr
      pool
      dict := setOffset s.dict pos id newCache.shmMallocOffset }.reread epochs' pos id newCache

/-- `Update`. `New` and `Insert` return no null pointers, so it returns `true` or does not return;
`epochs` are for the recycling of the old block, `epochs'` for that of the new one at the end. -/
def update (s : PetKV) (epochs epochs' : Epochs) (key : UInt64) (log : List UInt8) :
    Except Abort PetKV :=
  let pCache := s.dict.getInternal key
  if pCache = .retry then .error .spin
  else
    match s.pool.new log.length with
    | .error e => .error e
    | .ok (pool, value) =>
      let s := { s with pool := pool.storeBytes value log }
      match PersistMemoryPool.getMallocOffset value with
      | .error e => .error e
      | .ok offset =>
        match pCache with
        | .retry => .error .spin
        | .absent => s.updateNew epochs' key (PetKVData.ofOffset offset)
        | .found pos id => s.updateOld epochs epochs' pos id (PetKVData.ofOffset offset)

/-- `Get`; `none` is the empty `PetKVReadData`. -/
def get (s : PetKV) (key : UInt64) : Except Abort (Option PetKVReadData) :=
  match s.dict.get key with
  | .error e => .error e
  | .ok none => .ok none
  | .ok (some cache) =>
    let data := PersistMemoryPool.getMallocData cache.shmMallocOffset
    .ok (some ⟨cache.expireTimet, data, s.pool.getMallocSize data⟩)

/-- The bytes that `Get` points to. -/
def read (s : PetKV) (key : UInt64) : Except Abort (Option (List UInt8)) :=
  match s.get key with
  | .error e => .error e
  | .ok none => .ok none
  | .ok (some r) => .ok (some (Bytes.load s.pool.file.bytes r.data r.size))

/-- The constructor in a new directory. `capacity` is an `int`. -/
def create (memorySize capacity : ℕ) : Except Abort PetKV :=
  match PersistMemoryPool.create false memorySize slabSizes with
  | .error e => .error e
  | .ok pool =>
    match PetHash.initializeTable capacity true with
    | none => .error .check
    | some dict =>
      if (dict.sizeU32 : ℤ) = pool.totalMalloc then .ok ⟨dict, pool, []⟩ else .error .check

end PetKV

end PetPS

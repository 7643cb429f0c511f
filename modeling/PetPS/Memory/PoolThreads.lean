import PetPS.Lib.Threads
import PetPS.Memory.PoolExhaust

/-!
# Threads that share a pool

`New` and `Free` of `persist_malloc.h`, called by any number of threads. `NewInternal` holds `lock_`
from its beginning to its end; `Malloc` and `Free` of a chunk hold the lock of the chunk. Two things
are done outside of the lock that guards them: `NewInternal` asks a chunk whether it is `Full()`
without the lock of the chunk, and `total_malloc_` is atomic and lowered under no lock.

The steps of a thread are the accesses that another thread can tell apart. `Malloc` is one step:
it holds both locks, and only `Full()` looks at a chunk without its lock, under `lock_`. `Free` of a
chunk is two steps, since `Full()` may read the count after it was lowered and before the bit was
cleared. The reads and writes of the count, an `int`, are taken to be atomic. `New` without
`PERFECT_FIT_MOD` writes the length into the block after `lock_` was given back.

`held` are the blocks that the threads have, with the bytes that they have last written into them;
a thread frees or writes a block that is held. It may be a block that another thread allocated.

`New` takes effect where it sets the bit, and `Free` where it clears the bit. `settled` is the pool
in which the calls that have taken effect have also done their counting, and it is in order in
every state, in the sense of the pool that has one thread.

## Main results

* `next_cases` — the steps of a call
* `ThreadsInv.moved` — what every step keeps
* `pool_threads_exact` — what the threads hold, in every state of every interleaving
-/

namespace PetPS

namespace PersistMemoryPool

/-! ### The threads -/

/-- Why a thread stops the process. -/
inductive Fatal
  /-- `CHECK(iter != allocated_slab_sizes_.end())`. -/
  | size
  /-- `CHECK_GT(nr_entries, 0)`. -/
  | use
  /-- There are no chunks of the slab size, `size_to_chunks_[slab_size]` is null. -/
  | fault
  /-- `CHECK(return_ptr)`. -/
  | returnPtr
  /-- `LOG(FATAL) << "Persist Memory Pool OOM"`, in a call of `New(memorySize)` that looked for a
  slab of `slabSize` bytes. -/
  | oom (memorySize slabSize : ℕ)
  deriving DecidableEq

/-- A block that is in use. -/
structure Held where
  ptr : ℕ
  /-- The argument of `New`. -/
  memorySize : ℕ
  /-- What was last written at its beginning. -/
  data : List UInt8
  deriving DecidableEq

/-- Where a thread is. -/
inductive ThreadPc
  | idle
  /-- Before `lock_`. -/
  | enter (memorySize slabSize : ℕ)
  /-- `last_used_chunk && !last_used_chunk->Full()`. -/
  | last (memorySize slabSize : ℕ)
  /-- `!free_chunks_.empty()`. -/
  | fresh (memorySize slabSize : ℕ)
  /-- The loop over the chunks of the size, of which `chunks` are left. -/
  | scan (memorySize slabSize : ℕ) (chunks : List ℕ)
  /-- Before the lock of the chunk `c`. -/
  | malloc (memorySize c : ℕ)
  /-- `total_malloc_++`. -/
  | count (memorySize ptr : ℕ)
  /-- `NewInternal` has returned. -/
  | finish (memorySize ptr : ℕ)
  /-- Before the lock of the chunk of `memoryData`. -/
  | free (memoryData : ℕ)
  /-- The count is lowered, the bit is set. -/
  | clear (memoryData : ℕ)
  /-- `total_malloc_--`. -/
  | discount
  | failed (why : Fatal)
  deriving DecidableEq

/-- What the threads share. -/
structure Shared where
  pool : PersistMemoryPool
  /-- `lock_`. -/
  lock : Bool
  /-- The locks of the chunks. -/
  chunkLock : ℕ → Bool
  held : List Held

/-- What an idle thread may do. -/
inductive Call
  | new (memorySize : ℕ)
  | free (b : Held)
  /-- `data` is written to the beginning of the block. -/
  | write (b : Held) (data : List UInt8)

/-- What a thread does next. -/
inductive Turn
  | call (call : Call)
  | next

/-- The branch of `NewInternal` that takes a chunk from the queue, up to `Malloc`. -/
def takeFront (p : PersistMemoryPool) (slabSize front : ℕ) (rest : List ℕ) :
    Except Fatal PersistMemoryPool :=
  match { p with freeChunks := rest }.use front slabSize with
  | .error _ => .error .use
  | .ok p =>
    match p.sizeToChunks slabSize with
    | none => .error .fault
    | some chunks =>
      .ok { p with
        sizeToChunks := Function.update p.sizeToChunks slabSize (some (chunks ++ [front]))
        sizeToLastUsedChunk := Function.update p.sizeToLastUsedChunk slabSize (some front) }

/-- `Recovery(); allocated_entries_--`. -/
def lowerCount (p : PersistMemoryPool) (c : ℕ) : PersistMemoryPool :=
  let p := p.recovery c
  p.setChunk c { p.chunks c with allocatedEntries := (p.chunks c).allocatedEntries - 1 }

/-- `bitmap_->Clear(EntryId(memory_data))`. -/
def clearEntry (p : PersistMemoryPool) (c memoryData : ℕ) : PersistMemoryPool :=
  p.setHeader c { p.header c with bitmap := (p.header c).bitmap.clear (p.entryId c memoryData) }

/-- A thread begins a call. `New` chooses the slab size before it takes `lock_`. -/
def Shared.call (s : Shared) : Call → Option (Shared × ThreadPc)
  | .new memorySize =>
    if s.pool.perfectFit then some (s, .enter memorySize memorySize)
    else
      match s.pool.lowerBound (kMetaDataSize + memorySize) with
      | none => some (s, .failed .size)
      | some slabSize => some (s, .enter memorySize slabSize)
  | .free b =>
    if b ∈ s.held then
      some ({ s with held := s.held.erase b }, .free (b.ptr - s.pool.metaSize))
    else none
  | .write b data =>
    if b ∈ s.held ∧ data.length ≤ b.memorySize then
      some ({ s with
        pool := s.pool.storeBytes b.ptr data
        held := { b with data } :: s.held.erase b }, .idle)
    else none

/-- The next step of a call. -/
def Shared.next (s : Shared) : ThreadPc → Option (Shared × ThreadPc)
  | .idle | .failed _ => none
  | .enter memorySize slabSize =>
    if s.lock then none else some ({ s with lock := true }, .last memorySize slabSize)
  | .last memorySize slabSize =>
    match s.pool.lastUsedRoom slabSize with
    | some c => some (s, .malloc memorySize c)
    | none => some (s, .fresh memorySize slabSize)
  | .fresh memorySize slabSize =>
    match s.pool.freeChunks with
    | front :: rest =>
      match s.pool.takeFront slabSize front rest with
      | .ok p => some ({ s with pool := p }, .malloc memorySize front)
      | .error why => some (s, .failed why)
    | [] =>
      match s.pool.sizeToChunks slabSize with
      | some chunks => some (s, .scan memorySize slabSize chunks)
      | none => some (s, .failed .fault)
  | .scan memorySize slabSize [] => some (s, .failed (.oom memorySize slabSize))
  | .scan memorySize slabSize (c :: chunks) =>
    if s.pool.full c then some (s, .scan memorySize slabSize chunks)
    else some (s, .malloc memorySize c)
  | .malloc memorySize c =>
    if s.chunkLock c then none
    else
      match s.pool.chunkMalloc c with
      | some (p, ptr) => some ({ s with pool := p }, .count memorySize ptr)
      | none => some (s, .failed .returnPtr)
  | .count memorySize ptr =>
    some ({ s with
      pool := { s.pool with totalMalloc := s.pool.totalMalloc + 1 }
      lock := false }, .finish memorySize ptr)
  | .finish memorySize ptr =>
    some ({ s with
      pool := if s.pool.perfectFit then s.pool
        else s.pool.storeBytes ptr (Bytes.encode32 memorySize)
      held := ⟨ptr + s.pool.metaSize, memorySize, []⟩ :: s.held }, .idle)
  | .free memoryData =>
    if memoryData / kChunkSize < s.pool.nrChunks then
      if s.chunkLock (memoryData / kChunkSize) then none
      else
        some ({ s with
          pool := s.pool.lowerCount (memoryData / kChunkSize)
          chunkLock := Function.update s.chunkLock (memoryData / kChunkSize) true },
          .clear memoryData)
    else some (s, .idle)
  | .clear memoryData =>
    some ({ s with
      pool := s.pool.clearEntry (memoryData / kChunkSize) memoryData
      chunkLock := Function.update s.chunkLock (memoryData / kChunkSize) false }, .discount)
  | .discount =>
    some ({ s with pool := { s.pool with totalMalloc := s.pool.totalMalloc - 1 } }, .idle)

def Shared.turn : Turn → Shared → ThreadPc → Option (Shared × ThreadPc)
  | .call call, s, .idle => s.call call
  | .call _, _, _ => none
  | .next, s, t => s.next t

/-- The pool with all threads. -/
abbrev ThreadsState : Type := Shared × List ThreadPc

/-- A thread takes its turn. -/
def threadStep (s : ThreadsState) (a : ℕ × Turn) : Option ThreadsState :=
  Threads.step (Shared.turn a.2) s a.1

/-- `n` threads that share a pool in which nothing is allocated. -/
def newThreads (p : PersistMemoryPool) (n : ℕ) : ThreadsState :=
  (⟨p, false, fun _ => false, []⟩, List.replicate n .idle)

/-- **The steps of a call.** -/
inductive Stepped (s : Shared) : ThreadPc → Shared → ThreadPc → Prop
  | enter {memorySize slabSize : ℕ} (hlock : s.lock = false) :
    Stepped s (.enter memorySize slabSize) { s with lock := true } (.last memorySize slabSize)
  | lastRoom {memorySize slabSize c : ℕ} (hlast : s.pool.lastUsedRoom slabSize = some c) :
    Stepped s (.last memorySize slabSize) s (.malloc memorySize c)
  | lastFull {memorySize slabSize : ℕ} :
    Stepped s (.last memorySize slabSize) s (.fresh memorySize slabSize)
  | take {memorySize slabSize front : ℕ} {rest : List ℕ} {p : PersistMemoryPool}
    (hfree : s.pool.freeChunks = front :: rest)
    (htake : s.pool.takeFront slabSize front rest = .ok p) :
    Stepped s (.fresh memorySize slabSize) { s with pool := p } (.malloc memorySize front)
  | freshFails {memorySize slabSize : ℕ} {why : Fatal} (hwhy : why = .use ∨ why = .fault) :
    Stepped s (.fresh memorySize slabSize) s (.failed why)
  | scan {memorySize slabSize : ℕ} {chunks : List ℕ} (hfree : s.pool.freeChunks = [])
    (hclass : s.pool.sizeToChunks slabSize = some chunks) :
    Stepped s (.fresh memorySize slabSize) s (.scan memorySize slabSize chunks)
  | scanFull {memorySize slabSize c : ℕ} {chunks : List ℕ} (hfull : s.pool.full c = true) :
    Stepped s (.scan memorySize slabSize (c :: chunks)) s (.scan memorySize slabSize chunks)
  | scanRoom {memorySize slabSize c : ℕ} {chunks : List ℕ} (hroom : s.pool.full c = false) :
    Stepped s (.scan memorySize slabSize (c :: chunks)) s (.malloc memorySize c)
  | scanEnd {memorySize slabSize : ℕ} :
    Stepped s (.scan memorySize slabSize []) s (.failed (.oom memorySize slabSize))
  | malloc {memorySize c ptr : ℕ} {p : PersistMemoryPool} (hlock : s.chunkLock c = false)
    (hmalloc : s.pool.chunkMalloc c = some (p, ptr)) :
    Stepped s (.malloc memorySize c) { s with pool := p } (.count memorySize ptr)
  | mallocFails {memorySize c : ℕ} (hlock : s.chunkLock c = false)
    (hmalloc : s.pool.chunkMalloc c = none) :
    Stepped s (.malloc memorySize c) s (.failed .returnPtr)
  | count {memorySize ptr : ℕ} :
    Stepped s (.count memorySize ptr)
      { s with
        pool := { s.pool with totalMalloc := s.pool.totalMalloc + 1 }
        lock := false } (.finish memorySize ptr)
  | finish {memorySize ptr : ℕ} :
    Stepped s (.finish memorySize ptr)
      { s with
        pool := if s.pool.perfectFit then s.pool
          else s.pool.storeBytes ptr (Bytes.encode32 memorySize)
        held := ⟨ptr + s.pool.metaSize, memorySize, []⟩ :: s.held } .idle
  | free {memoryData : ℕ} (hlt : memoryData / kChunkSize < s.pool.nrChunks)
    (hlock : s.chunkLock (memoryData / kChunkSize) = false) :
    Stepped s (.free memoryData)
      { s with
        pool := s.pool.lowerCount (memoryData / kChunkSize)
        chunkLock := Function.update s.chunkLock (memoryData / kChunkSize) true }
      (.clear memoryData)
  | freeOutside {memoryData : ℕ} (hlt : ¬ memoryData / kChunkSize < s.pool.nrChunks) :
    Stepped s (.free memoryData) s .idle
  | clear {memoryData : ℕ} :
    Stepped s (.clear memoryData)
      { s with
        pool := s.pool.clearEntry (memoryData / kChunkSize) memoryData
        chunkLock := Function.update s.chunkLock (memoryData / kChunkSize) false } .discount
  | discount :
    Stepped s .discount
      { s with pool := { s.pool with totalMalloc := s.pool.totalMalloc - 1 } } .idle

theorem takeFront_error {p : PersistMemoryPool} {slabSize front : ℕ} {rest : List ℕ} {why : Fatal}
    (h : p.takeFront slabSize front rest = .error why) : why = .use ∨ why = .fault := by
  rw [takeFront] at h
  split at h
  · exact Or.inl (Except.error.inj h).symm
  · split at h
    · exact Or.inr (Except.error.inj h).symm
    · cases h

theorem next_cases {s sh : Shared} {t t' : ThreadPc} (h : s.next t = some (sh, t')) :
    Stepped s t sh t' := by
  cases t with
  | idle | failed => cases h
  | enter =>
    rw [Shared.next] at h
    split_ifs at h with hlock
    cases h
    exact .enter (Bool.eq_false_of_not_eq_true hlock)
  | last memorySize slabSize =>
    rw [Shared.next] at h
    cases hlast : s.pool.lastUsedRoom slabSize with
    | some c =>
      simp only [hlast] at h
      cases h
      exact .lastRoom hlast
    | none =>
      simp only [hlast] at h
      cases h
      exact .lastFull
  | fresh memorySize slabSize =>
    rw [Shared.next] at h
    cases hfree : s.pool.freeChunks with
    | cons front rest =>
      simp only [hfree] at h
      cases htake : s.pool.takeFront slabSize front rest with
      | ok p =>
        simp only [htake] at h
        cases h
        exact .take hfree htake
      | error why =>
        simp only [htake] at h
        cases h
        exact .freshFails (takeFront_error htake)
    | nil =>
      simp only [hfree] at h
      cases hclass : s.pool.sizeToChunks slabSize with
      | some chunks =>
        simp only [hclass] at h
        cases h
        exact .scan hfree hclass
      | none =>
        simp only [hclass] at h
        cases h
        exact .freshFails (Or.inr rfl)
  | scan memorySize slabSize chunks =>
    cases chunks with
    | nil =>
      cases h
      exact .scanEnd
    | cons c chunks =>
      rw [Shared.next] at h
      split_ifs at h with hfull
      · cases h
        exact .scanFull hfull
      · cases h
        exact .scanRoom (Bool.eq_false_of_not_eq_true hfull)
  | malloc memorySize c =>
    rw [Shared.next] at h
    split_ifs at h with hlock
    have hfalse := Bool.eq_false_of_not_eq_true hlock
    cases hmalloc : s.pool.chunkMalloc c with
    | some r =>
      simp only [hmalloc] at h
      cases h
      exact .malloc hfalse hmalloc
    | none =>
      simp only [hmalloc] at h
      cases h
      exact .mallocFails hfalse hmalloc
  | count =>
    cases h
    exact .count
  | finish =>
    cases h
    exact .finish
  | free memoryData =>
    rw [Shared.next] at h
    split_ifs at h with hlt hlock
    · cases h
      exact .free hlt (Bool.eq_false_of_not_eq_true hlock)
    · cases h
      exact .freeOutside hlt
  | clear =>
    cases h
    exact .clear
  | discount =>
    cases h
    exact .discount

/-! ### The settled pool -/

/-- The counts of the chunks raised where `lowered` holds, and the number of blocks by `d`. -/
def settle (p : PersistMemoryPool) (lowered : ℕ → Bool) (d : ℤ) : PersistMemoryPool :=
  { p with
    chunks := fun c =>
      if lowered c then { p.chunks c with allocatedEntries := (p.chunks c).allocatedEntries + 1 }
      else p.chunks c
    totalMalloc := p.totalMalloc + d }

section Settle

variable {p p' : PersistMemoryPool} {lowered : ℕ → Bool} {d : ℤ} {c : ℕ}

theorem settle_chunks_of_false (h : lowered c = false) :
    (p.settle lowered d).chunks c = p.chunks c := by
  simp only [settle, h, Bool.false_eq_true, if_false]

theorem settle_chunks_of_true (h : lowered c = true) : (p.settle lowered d).chunks c =
    { p.chunks c with allocatedEntries := (p.chunks c).allocatedEntries + 1 } := by
  simp only [settle, h, if_true]

theorem settle_data : ((p.settle lowered d).chunks c).data = (p.chunks c).data := by
  cases h : lowered c with
  | false => rw [settle_chunks_of_false h]
  | true => rw [settle_chunks_of_true h]

theorem settle_isRecovered :
    ((p.settle lowered d).chunks c).isRecovered = (p.chunks c).isRecovered := by
  cases h : lowered c with
  | false => rw [settle_chunks_of_false h]
  | true => rw [settle_chunks_of_true h]

theorem settle_entry (i : ℕ) : (p.settle lowered d).entry c i = p.entry c i := by
  rw [entry, settle_data]
  rfl

theorem settle_entryId (a : ℕ) : (p.settle lowered d).entryId c a = p.entryId c a := by
  rw [entryId, settle_data]
  rfl

theorem settle_full_of_false (h : lowered c = false) :
    (p.settle lowered d).full c = p.full c := by
  rw [full, settle_chunks_of_false h]
  rfl

/-- A chunk taken from the queue. -/
theorem settle_takeChunk {slabSize front : ℕ} {rest chunks : List ℕ} (h : lowered front = false) :
    (p.takeChunk slabSize front rest chunks).settle lowered d =
      (p.settle lowered d).takeChunk slabSize front rest chunks := by
  refine PersistMemoryPool.ext rfl rfl rfl rfl (funext fun c => ?_) rfl rfl rfl rfl
  by_cases hc : c = front
  · subst hc
    rw [settle_chunks_of_false h, takeChunk_chunks_self, takeChunk_chunks_self]
  · rw [takeChunk_chunks_of_ne hc]
    simp only [settle, takeChunk_chunks_of_ne hc]

/-- `Malloc`, with the counting that is to come. -/
theorem settle_chunkMalloc {ptr : ℕ} (h : lowered c = false)
    (hrec : (p.chunks c).isRecovered = true) (hmalloc : p.chunkMalloc c = some (p', ptr)) :
    finish ((p.settle lowered d).chunkMalloc c) = .ok (p'.settle lowered (d + 1), ptr) := by
  have hp : p.recovery c = p := by rw [recovery, if_pos hrec]
  have hs : (p.settle lowered d).recovery c = p.settle lowered d := by
    rw [recovery, settle_isRecovered, if_pos hrec]
  rw [chunkMalloc, hp] at hmalloc
  rw [chunkMalloc, hs]
  have hheader : (p.settle lowered d).header c = p.header c := rfl
  cases hset : (p.header c).bitmap.setZeroPos with
  | none =>
    simp only [hset] at hmalloc
    cases hmalloc
  | some r =>
    simp only [hset, Option.some.injEq, Prod.mk.injEq] at hmalloc
    obtain ⟨rfl, rfl⟩ := hmalloc
    simp only [hheader, hset, PersistMemoryPool.finish, settle_entry]
    refine congrArg Except.ok (Prod.ext (PersistMemoryPool.ext rfl rfl rfl rfl
      (funext fun c' => ?_) rfl rfl rfl (add_assoc _ _ _)) rfl)
    show ((p.settle lowered d).setBitmap c r.1 1).chunks c' = _
    by_cases hc : c' = c
    · subst hc
      rw [setBitmap_chunks_self, settle_chunks_of_false h, settle_chunks_of_false h,
        setBitmap_chunks_self]
    · rw [setBitmap_chunks_of_ne _ _ _ _ hc]
      simp only [settle, setBitmap_chunks_of_ne _ _ _ _ hc]

/-- The first half of `Free` leaves the settled pool as it is. -/
theorem settle_lowerCount (h : lowered c = false) (hrec : (p.chunks c).isRecovered = true) :
    (p.lowerCount c).settle (Function.update lowered c true) d = p.settle lowered d := by
  have hp : p.recovery c = p := by rw [recovery, if_pos hrec]
  rw [lowerCount, hp]
  refine PersistMemoryPool.ext rfl rfl rfl rfl (funext fun c' => ?_) rfl rfl rfl rfl
  by_cases hc : c' = c
  · subst hc
    rw [settle_chunks_of_true (Function.update_self ..), settle_chunks_of_false h]
    simp [setChunk]
  · simp only [settle, setChunk, Function.update_of_ne hc]

/-- The second half is `Free` of the settled pool. -/
theorem settle_clearEntry {a : ℕ} (h : lowered (a / kChunkSize) = true)
    (hlt : a / kChunkSize < p.nrChunks)
    (hrec : (p.chunks (a / kChunkSize)).isRecovered = true) :
    (p.settle lowered d).free (a + p.metaSize) =
      ((p.clearEntry (a / kChunkSize) a).settle
        (Function.update lowered (a / kChunkSize) false) (d - 1), true) := by
  have hs : (p.settle lowered d).recovery (a / kChunkSize) = p.settle lowered d := by
    rw [recovery, settle_isRecovered, if_pos hrec]
  have hmeta : (p.settle lowered d).metaSize = p.metaSize := rfl
  have hN : (p.settle lowered d).nrChunks = p.nrChunks := rfl
  rw [PersistMemoryPool.free, hmeta, Nat.add_sub_cancel, hN, if_pos hlt, chunkFree, hs]
  refine Prod.ext (PersistMemoryPool.ext rfl rfl rfl ?_ (funext fun c' => ?_) rfl rfl rfl ?_) rfl
  · rw [settle_entryId]
    rfl
  · show ((p.settle lowered d).setBitmap (a / kChunkSize) _ (-1)).chunks c' = _
    by_cases hc : c' = a / kChunkSize
    · subst hc
      rw [setBitmap_chunks_self, settle_chunks_of_true h,
        settle_chunks_of_false (Function.update_self ..)]
      simp [clearEntry, setHeader]
    · rw [setBitmap_chunks_of_ne _ _ _ _ hc]
      simp only [settle, clearEntry, setHeader, Function.update_of_ne hc]
  · show p.totalMalloc + d - 1 = p.totalMalloc + (d - 1)
    exact add_sub_assoc _ _ _

end Settle

/-! ### What is known of the threads -/

/-- A block of `memorySize` bytes fits into a slab; with `PERFECT_FIT_MOD` it is the slab. -/
def Admits (p : PersistMemoryPool) (memorySize slabSize : ℕ) : Prop :=
  p.metaSize + memorySize ≤ slabSize ∧ (p.perfectFit = true → slabSize = memorySize)

/-- The chunk belongs to the slab size. -/
def InClass (p : PersistMemoryPool) (slabSize c : ℕ) : Prop :=
  c < p.nrChunks ∧ c ∉ p.freeChunks ∧ (p.header c).slabSize = slabSize

/-- What the thread has still to add to `total_malloc_`. -/
def ThreadPc.pending : ThreadPc → ℤ
  | .count .. => 1
  | .discount => -1
  | _ => 0

/-- The block that the thread has in its hands; `m` is the size of the length. -/
def ThreadPc.block (m : ℕ) : ThreadPc → Option ℕ
  | .count _ ptr | .finish _ ptr | .free ptr | .clear ptr => some (ptr + m)
  | _ => none

/-- The thread holds `lock_`. -/
def ThreadPc.inside : ThreadPc → Bool
  | .last .. | .fresh .. | .scan .. | .malloc .. | .count .. => true
  | .failed why => why != .size
  | _ => false

/-- The thread holds the lock of the chunk `c`. -/
def ThreadPc.clears (c : ℕ) : ThreadPc → Bool
  | .clear a => a / kChunkSize == c
  | _ => false

/-- **What is known of a thread.** A chunk that had room has it still, as the thread holds `lock_`.
So `CHECK(return_ptr)` does not fail. -/
def ThreadPc.Ok (p : PersistMemoryPool) : ThreadPc → Prop
  | .enter memorySize slabSize | .last memorySize slabSize | .fresh memorySize slabSize =>
    p.Admits memorySize slabSize
  | .scan memorySize slabSize chunks =>
    p.Admits memorySize slabSize ∧ (∀ c ∈ chunks, p.InClass slabSize c) ∧
      chunks.length ≤ p.nrChunks
  | .malloc memorySize c =>
    p.Admits memorySize (p.header c).slabSize ∧ p.InClass (p.header c).slabSize c ∧
      p.full c = false
  | .count memorySize ptr | .finish memorySize ptr =>
    p.Admits memorySize (p.header (ptr / kChunkSize)).slabSize
  | .failed why => why ≠ .returnPtr
  | _ => True

/-- **What is known of a block that is held.** -/
structure Held.Ok (p : PersistMemoryPool) (b : Held) : Prop where
  admits : p.Admits b.memorySize (p.header (p.chunkOf b.ptr)).slabSize
  room : b.data.length ≤ b.memorySize
  data : Bytes.load p.file.bytes b.ptr b.data.length = b.data
  /-- The length is in front of it. -/
  length : p.perfectFit = false →
    Bytes.load p.file.bytes (b.ptr - kMetaDataSize) 4 = Bytes.encode32 b.memorySize

/-- The blocks that are held or in the hands of a thread. -/
def blocks (s : ThreadsState) : List ℕ :=
  s.1.held.map Held.ptr ++ s.2.filterMap (ThreadPc.block s.1.pool.metaSize)

/-- The pool when the calls that have taken effect have also done their counting. -/
def settled (s : ThreadsState) : PersistMemoryPool :=
  s.1.pool.settle s.1.chunkLock (s.2.map ThreadPc.pending).sum

/-- **What is known of the threads and the pool.** -/
structure ThreadsInv (n : ℕ) (s : ThreadsState) : Prop where
  run : RunInv n (settled s, blocks s)
  lock : s.2.countP ThreadPc.inside = s.1.lock.toNat
  chunkLock : ∀ c, s.2.countP (ThreadPc.clears c) = (s.1.chunkLock c).toNat
  threads : ∀ t ∈ s.2, t.Ok s.1.pool
  held : ∀ b ∈ s.1.held, b.Ok s.1.pool

/-- What a step does that a thread without `lock_` makes. -/
structure Outer (p p' : PersistMemoryPool) : Prop where
  perfectFit : p'.perfectFit = p.perfectFit
  nrChunks : p'.nrChunks = p.nrChunks
  freeChunks : p'.freeChunks = p.freeChunks
  classes : p'.sizeToChunks = p.sizeToChunks
  slab : ∀ c, (p'.header c).slabSize = (p.header c).slabSize
  entries : ∀ c, (p'.header c).nrEntries = (p.header c).nrEntries
  /-- A chunk that had room has room. -/
  room : ∀ c, p.InClass (p.header c).slabSize c → p.full c = false → p'.full c = false
  /-- Nothing is allocated. -/
  allocated : ∀ c i, p'.Allocated c i → p.Allocated c i

/-- **What a step of a thread does.** -/
structure Moved (n : ℕ) (s s' : ThreadsState) (t t' : ThreadPc) : Prop where
  run : RunInv n (settled s', blocks s')
  ext : Extends (settled s) (settled s')
  lock : s'.1.lock.toNat + t.inside.toNat = s.1.lock.toNat + t'.inside.toNat
  chunkLock : ∀ c, (s'.1.chunkLock c).toNat + (t.clears c).toNat =
    (s.1.chunkLock c).toNat + (t'.clears c).toNat
  ok : t'.Ok s'.1.pool
  held : ∀ b ∈ s'.1.held, b.Ok s'.1.pool
  outer : t.inside = true ∨ t'.inside = true ∨ Outer s.1.pool s'.1.pool

section Frame

variable {p p' : PersistMemoryPool} {n i : ℕ} {s s' : ThreadsState} {t t' : ThreadPc}

theorem Extends.refl (p : PersistMemoryPool) : Extends p p :=
  ⟨⟨rfl, rfl, rfl⟩, fun _ _ _ => rfl, fun _ _ _ => rfl⟩

theorem Outer.refl (p : PersistMemoryPool) : Outer p p :=
  ⟨rfl, rfl, rfl, rfl, fun _ => rfl, fun _ => rfl, fun _ _ h => h, fun _ _ h => h⟩

theorem metaSize_congr (h : p'.perfectFit = p.perfectFit) : p'.metaSize = p.metaSize := by
  rw [metaSize, h, metaSize]

theorem Admits.congr {memorySize slabSize : ℕ} (h : p.Admits memorySize slabSize)
    (hmode : p'.perfectFit = p.perfectFit) : p'.Admits memorySize slabSize := by
  rw [Admits, metaSize_congr hmode, hmode]
  exact h

/-- What is known of a block depends on its slab. -/
theorem Held.Ok.congr {b : Held} (h : b.Ok p) (hmode : p'.perfectFit = p.perfectFit)
    (hslab : (p'.header (p.chunkOf b.ptr)).slabSize = (p.header (p.chunkOf b.ptr)).slabSize)
    (hbytes : ∀ x, p.slabStart b.ptr ≤ x → x < p.slabEnd b.ptr →
      p'.file.bytes x = p.file.bytes x) : b.Ok p' := by
  have hmeta := metaSize_congr hmode
  have hroom := h.admits.1
  have hlen := h.room
  rw [slabEnd] at hbytes
  rw [slabStart] at hbytes
  refine ⟨?_, hlen, ?_, fun hfit => ?_⟩
  · rw [chunkOf, slabStart, hmeta]
    exact hslab ▸ h.admits.congr hmode
  · rw [Bytes.load_congr fun x hlo hhi => hbytes x (by omega) (by omega)]
    exact h.data
  · rw [hmode] at hfit
    have height : p.metaSize = kMetaDataSize := by
      rw [metaSize, hfit]
      rfl
    rw [height] at hbytes hroom
    have hfour : 4 ≤ kMetaDataSize := by decide
    rw [Bytes.load_congr fun x hlo hhi => hbytes x hlo (by omega)]
    exact h.length hfit

theorem ok_failed {why : Fatal} (h : why ≠ .returnPtr) : (ThreadPc.failed why).Ok p := h

theorem Live.perm {live live' : List ℕ} (h : p.Live live) (hperm : live.Perm live') :
    p.Live live' :=
  ⟨hperm.nodup_iff.mp h.nodup, fun ptr => by rw [← hperm.mem_iff, h.mem],
    by rw [← hperm.length_eq, h.total]⟩

theorem sum_pending_set (hget : s.2[i]? = some t) (t' : ThreadPc) :
    ((s.2.set i t').map ThreadPc.pending).sum =
      (s.2.map ThreadPc.pending).sum + (t'.pending - t.pending) := by
  obtain ⟨rest, hsum, hset⟩ := Threads.sum_set ThreadPc.pending hget
  rw [hsum, hset]
  ring

/-- The slab of a block. -/
theorem ThreadsInv.allocated (h : ThreadsInv n s) {ptr : ℕ} (hptr : ptr ∈ blocks s) :
    ∃ c i, (settled s).Allocated c i ∧ ptr = s.1.pool.entry c i + s.1.pool.metaSize ∧
      s.1.pool.chunkOf ptr = c := by
  obtain ⟨c, i, ha, rfl⟩ := (h.run.live.mem ptr).mp hptr
  refine ⟨c, i, ha, ?_, (h.run.inv.chunkOf_block ha).2⟩
  exact congrArg (· + s.1.pool.metaSize) (settle_entry i)

/-- Other threads do not change the slab of a block. -/
theorem ThreadsInv.slab_eq (h : ThreadsInv n s) (hext : Extends (settled s) (settled s')) {ptr : ℕ}
    (hptr : ptr ∈ blocks s) : (s'.1.pool.header (s.1.pool.chunkOf ptr)).slabSize =
      (s.1.pool.header (s.1.pool.chunkOf ptr)).slabSize := by
  obtain ⟨c, i, ha, -, hc⟩ := h.allocated hptr
  rw [hc]
  exact hext.slab c i ha

theorem mem_blocks_of_held {b : Held} (hb : b ∈ s.1.held) : b.ptr ∈ blocks s :=
  List.mem_append_left _ (List.mem_map_of_mem hb)

theorem mem_blocks_of_thread {ptr : ℕ} (ht : t ∈ s.2)
    (hblock : t.block s.1.pool.metaSize = some ptr) : ptr ∈ blocks s :=
  List.mem_append_right _ (List.mem_filterMap.mpr ⟨t, ht, hblock⟩)

/-- What is held stays as it is when no bytes are written. -/
theorem ThreadsInv.held_of_extends (h : ThreadsInv n s) (hext : Extends (settled s) (settled s'))
    (hbytes : s'.1.pool.file.bytes = s.1.pool.file.bytes) {b : Held} (hb : b ∈ s.1.held) :
    b.Ok s'.1.pool :=
  (h.held b hb).congr hext.perfectFit (h.slab_eq hext (mem_blocks_of_held hb))
    fun x _ _ => by rw [hbytes]

/-- What is known of another thread. -/
theorem ThreadsInv.ok_of_moved (h : ThreadsInv n s) (hm : Moved n s s' t t') {u : ThreadPc}
    (hu : u ∈ s.2) (houter : u.inside = true → Outer s.1.pool s'.1.pool) : u.Ok s'.1.pool := by
  have hmode : s'.1.pool.perfectFit = s.1.pool.perfectFit := hm.ext.perfectFit
  have hok := h.threads u hu
  cases u with
  | idle | free | clear | discount => trivial
  | failed why => exact hok
  | enter => exact Admits.congr hok hmode
  | last => exact Admits.congr hok hmode
  | fresh => exact Admits.congr hok hmode
  | scan memorySize slabSize chunks =>
    have ho := houter rfl
    refine ⟨hok.1.congr hmode, fun c hc => ?_, ho.nrChunks ▸ hok.2.2⟩
    rw [InClass, ho.nrChunks, ho.freeChunks, ho.slab]
    exact hok.2.1 c hc
  | malloc memorySize c =>
    have ho := houter rfl
    refine ⟨?_, ?_, ho.room c hok.2.1 hok.2.2⟩
    · rw [ho.slab]
      exact hok.1.congr hmode
    · rw [InClass, ho.nrChunks, ho.freeChunks, ho.slab]
      exact hok.2.1
  | count memorySize ptr =>
    rw [ThreadPc.Ok, (houter rfl).slab]
    exact Admits.congr hok hmode
  | finish memorySize ptr =>
    have hslab := h.slab_eq hm.ext (mem_blocks_of_thread hu rfl)
    have hchunk : s.1.pool.chunkOf (ptr + s.1.pool.metaSize) = ptr / kChunkSize := by
      rw [chunkOf, slabStart, Nat.add_sub_cancel]
    rw [hchunk] at hslab
    rw [ThreadPc.Ok, hslab]
    exact Admits.congr hok hmode

theorem countP_of_set {f : ThreadPc → Bool} {b b' : Bool} (hget : s.2[i]? = some t)
    (h : s.2.countP f = b.toNat)
    (hb : b'.toNat + (f t).toNat = b.toNat + (f t').toNat) :
    (s.2.set i t').countP f = b'.toNat := by
  have hset := Threads.countP_set f hget t'
  have hif : ∀ b : Bool, (if b then 1 else 0) = b.toNat := by decide
  rw [hif, hif] at hset
  omega

theorem ThreadsInv.lock_moved (h : ThreadsInv n s) (hget : s.2[i]? = some t)
    (hset : s'.2 = s.2.set i t') (hm : Moved n s s' t t') :
    s'.2.countP ThreadPc.inside = s'.1.lock.toNat := by
  rw [hset]
  exact countP_of_set hget h.lock hm.lock

/-- While a thread holds `lock_`, the others do nothing that needs it. -/
theorem ThreadsInv.outer_of_inside (h : ThreadsInv n s) (hget : s.2[i]? = some t)
    (hset : s'.2 = s.2.set i t') (hm : Moved n s s' t t') {j : ℕ} {u : ThreadPc} (hij : i ≠ j)
    (hu : s.2[j]? = some u) (hin : u.inside = true) : Outer s.1.pool s'.1.pool := by
  rcases hm.outer with ht | ht' | houter
  · exact absurd (Threads.eq_of_countP_le_one (h.lock.trans_le (Bool.toNat_le _)) hget hu ht
      hin) hij
  · have hi' : s'.2[i]? = some t' := by
      rw [hset, List.getElem?_set_self (List.getElem?_eq_some_iff.mp hget).1]
    have hj' : s'.2[j]? = some u := by
      rw [hset, List.getElem?_set_ne hij]
      exact hu
    exact absurd (Threads.eq_of_countP_le_one
      ((h.lock_moved hget hset hm).trans_le (Bool.toNat_le _)) hi' hj' ht' hin) hij
  · exact houter

/-- **What every step keeps.** -/
theorem ThreadsInv.moved (h : ThreadsInv n s) (hget : s.2[i]? = some t)
    (hset : s'.2 = s.2.set i t') (hm : Moved n s s' t t') : ThreadsInv n s' := by
  refine ⟨hm.run, h.lock_moved hget hset hm, fun c => ?_, fun u hu => ?_, hm.held⟩
  · rw [hset]
    exact countP_of_set hget (h.chunkLock c) (hm.chunkLock c)
  · obtain ⟨j, hj⟩ := List.mem_iff_getElem?.mp hu
    by_cases hij : i = j
    · subst hij
      rw [hset, List.getElem?_set_self (List.getElem?_eq_some_iff.mp hget).1] at hj
      exact Option.some.inj hj ▸ hm.ok
    · have hju : s.2[j]? = some u := by rwa [hset, List.getElem?_set_ne hij] at hj
      exact h.ok_of_moved hm (List.mem_of_getElem? hju) fun hin =>
        h.outer_of_inside hget hset hm hij hju hin

end Frame

/-! ### The steps -/

section Steps

variable {p p' : PersistMemoryPool} {n i : ℕ} {s : ThreadsState} {t t' : ThreadPc} {sh : Shared}

theorem takeFront_ok {slabSize front : ℕ} {rest : List ℕ}
    (h : p.takeFront slabSize front rest = .ok p') : 0 < useEntries slabSize ∧
      ∃ chunks, p.sizeToChunks slabSize = some chunks ∧
        p' = p.takeChunk slabSize front rest chunks := by
  rw [takeFront, use] at h
  by_cases hpos : 0 < useEntries slabSize
  · simp only [if_pos hpos] at h
    cases hclass : p.sizeToChunks slabSize with
    | none =>
      simp only [setChunk, setHeader, hclass] at h
      cases h
    | some chunks =>
      simp only [setChunk, setHeader, hclass, Except.ok.injEq] at h
      exact ⟨hpos, chunks, rfl, h.symm⟩
  · simp only [if_neg hpos] at h
    cases h

theorem blocks_set_of_eq (hmeta : sh.pool.metaSize = s.1.pool.metaSize) (hget : s.2[i]? = some t)
    (hheld : sh.held = s.1.held) (hblock : ∀ m, t'.block m = t.block m) :
    blocks (sh, s.2.set i t') = blocks s := by
  rw [blocks, blocks]
  show sh.held.map Held.ptr ++ (s.2.set i t').filterMap (ThreadPc.block sh.pool.metaSize) = _
  rw [hmeta, hheld, Threads.filterMap_set_of_eq hget (hblock _)]

/-- The thread gets a block. -/
theorem blocks_set_perm (hmeta : sh.pool.metaSize = s.1.pool.metaSize) (hget : s.2[i]? = some t)
    {ptr : ℕ} (ht : ∀ m, t.block m = none) (ht' : ∀ m, t'.block m = some (ptr + m)) :
    (blocks (sh, s.2.set i t')).Perm ((ptr + s.1.pool.metaSize) ::
      (sh.held.map Held.ptr ++ s.2.filterMap (ThreadPc.block s.1.pool.metaSize))) := by
  rw [blocks]
  show (sh.held.map Held.ptr ++
    (s.2.set i t').filterMap (ThreadPc.block sh.pool.metaSize)).Perm _
  rw [hmeta]
  exact ((Threads.filterMap_set_perm hget (ht _) (ht' _)).append_left _).trans List.perm_middle

/-- The thread gives a block away. -/
theorem blocks_perm_set (hget : s.2[i]? = some t) {ptr : ℕ}
    (ht : ∀ m, t.block m = some (ptr + m)) (ht' : ∀ m, t'.block m = none) :
    (blocks s).Perm ((ptr + s.1.pool.metaSize) :: (s.1.held.map Held.ptr ++
      (s.2.set i t').filterMap (ThreadPc.block s.1.pool.metaSize))) := by
  rw [blocks]
  exact ((Threads.filterMap_perm_set hget (ht _) (ht' _)).append_left _).trans List.perm_middle

/-- A step after which the settled pool is the same. -/
theorem ThreadsInv.silent (h : ThreadsInv n s) (hsettled : settled (sh, s.2.set i t') = settled s)
    (hblocks : (blocks (sh, s.2.set i t')).Perm (blocks s))
    (hlock : sh.lock.toNat + t.inside.toNat = s.1.lock.toNat + t'.inside.toNat)
    (hchunk : ∀ c, (sh.chunkLock c).toNat + (t.clears c).toNat =
      (s.1.chunkLock c).toNat + (t'.clears c).toNat)
    (hok : t'.Ok sh.pool) (hbytes : sh.pool.file.bytes = s.1.pool.file.bytes)
    (hheld : ∀ b ∈ sh.held, b ∈ s.1.held)
    (houter : t.inside = true ∨ t'.inside = true ∨ Outer s.1.pool sh.pool) :
    Moved n s (sh, s.2.set i t') t t' where
  run := by
    rw [hsettled]
    exact ⟨h.run.inv, h.run.live.perm hblocks.symm, h.run.nrChunks⟩
  ext := hsettled ▸ Extends.refl _
  lock := hlock
  chunkLock := hchunk
  ok := hok
  held b hb := h.held_of_extends (hsettled ▸ Extends.refl _) hbytes (hheld b hb)
  outer := houter

/-- A step that only takes `lock_`, or less. -/
theorem ThreadsInv.quiet (h : ThreadsInv n s) (hget : s.2[i]? = some t) {lock : Bool}
    (hpending : t'.pending = t.pending) (hblock : ∀ m, t'.block m = t.block m)
    (hclears : ∀ c, t'.clears c = t.clears c)
    (hlock : lock.toNat + t.inside.toNat = s.1.lock.toNat + t'.inside.toNat)
    (hok : t'.Ok s.1.pool) : Moved n s ({ s.1 with lock }, s.2.set i t') t t' := by
  refine h.silent ?_ ?_ hlock (fun c => by rw [hclears]) hok rfl (fun _ hb => hb)
    (Or.inr (Or.inr (Outer.refl _)))
  · rw [settled, sum_pending_set hget, hpending, sub_self, add_zero]
    rfl
  · exact List.Perm.of_eq (blocks_set_of_eq rfl hget rfl hblock)

/-- The lock of a chunk in the queue is free. -/
theorem ThreadsInv.unlocked (h : ThreadsInv n s) {c : ℕ} (hc : c ∈ s.1.pool.freeChunks) :
    s.1.chunkLock c = false := by
  by_contra hlocked
  have hcount := h.chunkLock c
  rw [Bool.eq_true_of_not_eq_false hlocked, Bool.toNat_true] at hcount
  obtain ⟨u, hu, hclears⟩ := List.countP_pos_iff.mp (hcount.symm ▸ Nat.one_pos)
  cases u with
  | clear a =>
    obtain ⟨c', i, ha, -, hchunk⟩ := h.allocated (mem_blocks_of_thread hu rfl)
    rw [chunkOf, slabStart, Nat.add_sub_cancel, beq_iff_eq.mp hclears] at hchunk
    subst hchunk
    have hused := (h.run.inv.usedChunk ha).used
    rw [(h.run.inv.free c hc).unused] at hused
    cases hused
  | _ => cases hclears

theorem Live.congr {live : List ℕ} (h : p.Live live) (hext : Extends p p')
    (halloc : ∀ c i, p'.Allocated c i ↔ p.Allocated c i)
    (htotal : p'.totalMalloc = p.totalMalloc) : p'.Live live := by
  refine ⟨h.nodup, fun ptr => ?_, htotal.trans h.total⟩
  rw [h.mem, hext.metaSize]
  constructor
  · rintro ⟨c, i, ha, rfl⟩
    exact ⟨c, i, (halloc c i).mpr ha, by rw [hext.entry c i ha]⟩
  · rintro ⟨c, i, ha, rfl⟩
    have hold := (halloc c i).mp ha
    exact ⟨c, i, hold, by rw [hext.entry c i hold]⟩

/-- A chunk is taken from the queue. -/
theorem ThreadsInv.takeChunk (h : ThreadsInv n s) {memorySize slabSize front : ℕ}
    {rest chunks : List ℕ} (hget : s.2[i]? = some (.fresh memorySize slabSize))
    (hfree : s.1.pool.freeChunks = front :: rest)
    (hclass : s.1.pool.sizeToChunks slabSize = some chunks) (hpos : 0 < useEntries slabSize) :
    Moved n s ({ s.1 with pool := s.1.pool.takeChunk slabSize front rest chunks },
      s.2.set i (.malloc memorySize front)) (.fresh memorySize slabSize)
      (.malloc memorySize front) := by
  have hfront : front ∈ s.1.pool.freeChunks := hfree ▸ List.mem_cons_self
  have hnodup := h.run.inv.free_nodup
  have hfree' : (settled s).freeChunks = front :: rest := hfree
  rw [hfree', List.nodup_cons] at hnodup
  have hsettled : settled ({ s.1 with pool := s.1.pool.takeChunk slabSize front rest chunks },
      s.2.set i (.malloc memorySize front)) =
        (settled s).takeChunk slabSize front rest chunks := by
    rw [settled, sum_pending_set hget]
    exact (settle_takeChunk (h.unlocked hfront)).trans (by rw [settled]; simp [ThreadPc.pending])
  obtain ⟨hext, halloc⟩ : Extends (settled s) ((settled s).takeChunk slabSize front rest chunks) ∧
      _ := h.run.inv.takeChunk_extends hfree'
  rw [← hsettled] at hext
  refine ⟨?_, hext, rfl, fun c => rfl, ⟨?_, ⟨?_, hnodup.1, rfl⟩, ?_⟩, fun b hb => ?_, Or.inl rfl⟩
  · rw [hsettled] at hext ⊢
    refine ⟨h.run.inv.takeChunk hfree' hclass hpos, ?_, h.run.nrChunks⟩
    refine (h.run.live.congr hext halloc rfl).perm (List.Perm.symm ?_)
    exact List.Perm.of_eq (blocks_set_of_eq rfl hget rfl fun _ => rfl)
  · rw [takeChunk_header_self]
    exact Admits.congr (h.threads _ (List.mem_of_getElem? hget)) rfl
  · exact h.run.inv.free_lt front hfront
  · exact takeChunk_not_full hpos
  · exact h.held_of_extends hext rfl hb

theorem settle_chunkMalloc_none {lowered : ℕ → Bool} {d : ℤ} {c : ℕ}
    (hrec : (p.chunks c).isRecovered = true) (h : p.chunkMalloc c = none) :
    (p.settle lowered d).chunkMalloc c = none := by
  rw [chunkMalloc, recovery, if_pos hrec] at h
  rw [chunkMalloc, recovery, settle_isRecovered, if_pos hrec]
  have hheader : (p.settle lowered d).header c = p.header c := rfl
  cases hset : (p.header c).bitmap.setZeroPos with
  | none => simp only [hheader, hset]
  | some r =>
    simp only [hset] at h
    cases h

/-- **`Malloc`** on a chunk that had room. -/
theorem ThreadsInv.malloc (h : ThreadsInv n s) {memorySize c : ℕ}
    (hget : s.2[i]? = some (.malloc memorySize c)) (hlock : s.1.chunkLock c = false) :
    ∃ p' ptr, s.1.pool.chunkMalloc c = some (p', ptr) ∧
      Moved n s ({ s.1 with pool := p' }, s.2.set i (.count memorySize ptr))
        (.malloc memorySize c) (.count memorySize ptr) := by
  obtain ⟨hadmits, ⟨hc, hfree, -⟩, hroom⟩ := h.threads _ (List.mem_of_getElem? hget)
  have hused := h.run.inv.used c hc hfree
  have hrec : (s.1.pool.chunks c).isRecovered = true := settle_isRecovered ▸ hused.recovered
  have hroom' : (settled s).full c = false := (settle_full_of_false hlock).trans hroom
  cases hmalloc : s.1.pool.chunkMalloc c with
  | none =>
    obtain ⟨p₁, i₁, hsome, -⟩ := h.run.inv.chunkMalloc hc hfree hroom'
    rw [settled, settle_chunkMalloc_none hrec hmalloc] at hsome
    cases hsome
  | some r =>
    obtain ⟨p', ptr⟩ := r
    refine ⟨p', ptr, rfl, ?_⟩
    have hsettled : settled ({ s.1 with pool := p' }, s.2.set i (.count memorySize ptr)) =
        p'.settle s.1.chunkLock ((s.2.map ThreadPc.pending).sum + 1) := by
      rw [settled, sum_pending_set hget]
      rfl
    obtain ⟨j, hptr, hnew⟩ :=
      h.run.inv.finish hc hfree hroom' (settle_chunkMalloc hlock hrec hmalloc)
    rw [← hsettled] at hptr hnew
    have hself := (hnew.added.allocated c j).mpr (Or.inr ⟨rfl, rfl⟩)
    refine ⟨⟨hnew.inv, ?_, hnew.added.nrChunks.trans h.run.nrChunks⟩, hnew.added.toExtends, rfl,
      fun c => rfl, ?_, fun b hb => h.held_of_extends hnew.added.toExtends hnew.bytes hb,
      Or.inl rfl⟩
    · refine (h.run.live.added hnew.inv hnew.added hnew.total).perm (List.Perm.symm ?_)
      have hmeta : p'.metaSize = s.1.pool.metaSize := metaSize_congr hnew.added.perfectFit
      rw [← hptr]
      exact (blocks_set_perm hmeta hget (fun _ => rfl) fun _ => rfl).trans
        (List.Perm.of_eq (congrArg (fun m => (ptr + m) :: blocks s) hmeta.symm))
    · have hdiv := (hnew.inv.usedChunk hself).entry_div (hnew.inv.lt_nrEntries hself)
      rw [← hptr] at hdiv
      rw [ThreadPc.Ok, hdiv]
      exact hnew.slab ▸ hadmits.congr hnew.added.perfectFit

/-- `total_malloc_++`, and `lock_` is given back. -/
theorem ThreadsInv.count (h : ThreadsInv n s) {memorySize ptr : ℕ}
    (hget : s.2[i]? = some (.count memorySize ptr)) :
    Moved n s ({ s.1 with
      pool := { s.1.pool with totalMalloc := s.1.pool.totalMalloc + 1 }
      lock := false }, s.2.set i (.finish memorySize ptr)) (.count memorySize ptr)
      (.finish memorySize ptr) := by
  have hsettled : settled ({ s.1 with
      pool := { s.1.pool with totalMalloc := s.1.pool.totalMalloc + 1 }
      lock := false }, s.2.set i (.finish memorySize ptr)) = settled s := by
    rw [settled, sum_pending_set hget, settled]
    refine PersistMemoryPool.ext rfl rfl rfl rfl rfl rfl rfl rfl ?_
    show s.1.pool.totalMalloc + 1 + ((s.2.map ThreadPc.pending).sum + (0 - 1)) = _
    rw [settle]
    ring
  have hlocked : s.1.lock = true := by
    have hpos : 0 < s.2.countP ThreadPc.inside :=
      List.countP_pos_iff.mpr ⟨_, List.mem_of_getElem? hget, rfl⟩
    rw [h.lock] at hpos
    cases hl : s.1.lock with
    | true => rfl
    | false =>
      rw [hl] at hpos
      cases hpos
  exact h.silent hsettled (List.Perm.of_eq (blocks_set_of_eq rfl hget rfl fun _ => rfl))
    (by rw [hlocked]; rfl) (fun c => rfl) (h.threads _ (List.mem_of_getElem? hget)) rfl
    (fun _ hb => hb) (Or.inl rfl)

/-- A store into the slab of one block leaves the other blocks alone. -/
theorem ThreadsInv.held_of_store (h : ThreadsInv n s) {ptr a : ℕ} {bs : List UInt8}
    (hptr : ptr ∈ blocks s) (hlo : s.1.pool.slabStart ptr ≤ a)
    (hhi : a + bs.length ≤ s.1.pool.slabEnd ptr) {b : Held} (hb : b ∈ s.1.held)
    (hne : b.ptr ≠ ptr) : b.Ok (s.1.pool.storeBytes a bs) := by
  refine (h.held b hb).congr rfl rfl fun x hx hx' => ?_
  obtain ⟨c, i, ha, rfl, hc⟩ := h.allocated hptr
  obtain ⟨c', i', ha', hb', hc'⟩ := h.allocated (mem_blocks_of_held hb)
  have hslab : ∀ c i, s.1.pool.slabStart (s.1.pool.entry c i + s.1.pool.metaSize) =
      (settled s).entry c i := fun c i => by
    rw [slabStart, Nat.add_sub_cancel]
    exact (settle_entry i).symm
  rw [slabEnd, hc] at hhi
  rw [slabEnd, hc'] at hx'
  rw [hb'] at hx hx'
  rw [hslab] at hlo hhi hx hx'
  refine h.run.inv.store_apply ha' ha (fun heq => hne ?_) hx hx' _ hlo hhi
  obtain ⟨rfl, rfl⟩ := Prod.mk.inj heq
  exact hb'

/-- The bytes are no part of what is known of the slabs. -/
theorem ThreadsInv.run_of_store (h : ThreadsInv n s) {live : List ℕ}
    (hperm : (blocks s).Perm live) (a : ℕ) (bs : List UInt8) :
    RunInv n ((settled s).storeBytes a bs, live) ∧
      Extends (settled s) ((settled s).storeBytes a bs) := by
  have hext : Extends (settled s) ((settled s).storeBytes a bs) :=
    ⟨⟨rfl, rfl, rfl⟩, fun _ _ _ => rfl, fun _ _ _ => rfl⟩
  exact ⟨⟨h.run.inv.congr rfl rfl rfl rfl rfl rfl rfl,
    (h.run.live.congr hext (fun _ _ => Iff.rfl) rfl).perm hperm, h.run.nrChunks⟩, hext⟩

/-- The bytes that `New` writes. -/
def lengthBytes (p : PersistMemoryPool) (memorySize : ℕ) : List UInt8 :=
  if p.perfectFit then [] else Bytes.encode32 memorySize

theorem storeBytes_lengthBytes (memorySize ptr : ℕ) :
    (if p.perfectFit then p else p.storeBytes ptr (Bytes.encode32 memorySize)) =
      p.storeBytes ptr (p.lengthBytes memorySize) := by
  rw [lengthBytes]
  split_ifs
  · rw [storeBytes, Bytes.store_nil]
  · rfl

theorem length_lengthBytes (memorySize : ℕ) :
    (p.lengthBytes memorySize).length ≤ p.metaSize := by
  rw [lengthBytes, metaSize]
  split_ifs
  · exact le_rfl
  · exact (by decide : 4 ≤ kMetaDataSize)

theorem chunkOf_add_metaSize (ptr : ℕ) : p.chunkOf (ptr + p.metaSize) = ptr / kChunkSize := by
  rw [chunkOf, slabStart, Nat.add_sub_cancel]

/-- The end of `New`: the length is written, and the block is held. -/
theorem ThreadsInv.finish (h : ThreadsInv n s) {memorySize ptr : ℕ}
    (hget : s.2[i]? = some (.finish memorySize ptr)) :
    Moved n s ({ s.1 with
      pool := if s.1.pool.perfectFit then s.1.pool
        else s.1.pool.storeBytes ptr (Bytes.encode32 memorySize)
      held := ⟨ptr + s.1.pool.metaSize, memorySize, []⟩ :: s.1.held }, s.2.set i .idle)
      (.finish memorySize ptr) .idle := by
  rw [storeBytes_lengthBytes]
  have hadmits : s.1.pool.Admits memorySize (s.1.pool.header (ptr / kChunkSize)).slabSize :=
    h.threads _ (List.mem_of_getElem? hget)
  have hmem := mem_blocks_of_thread (s := s) (List.mem_of_getElem? hget) rfl
  have hlen := length_lengthBytes (p := s.1.pool) memorySize
  have hsettled : settled ({ s.1 with
      pool := s.1.pool.storeBytes ptr (s.1.pool.lengthBytes memorySize)
      held := ⟨ptr + s.1.pool.metaSize, memorySize, []⟩ :: s.1.held }, s.2.set i .idle) =
        (settled s).storeBytes ptr (s.1.pool.lengthBytes memorySize) := by
    rw [settled, sum_pending_set hget, settled]
    exact PersistMemoryPool.ext rfl rfl rfl rfl rfl rfl rfl rfl
      (congrArg (s.1.pool.totalMalloc + ·) (add_zero _))
  have hperm : (blocks s).Perm ((ptr + s.1.pool.metaSize) :: (s.1.held.map Held.ptr ++
      (s.2.set i .idle).filterMap (ThreadPc.block s.1.pool.metaSize))) :=
    blocks_perm_set hget (fun _ => rfl) fun _ => rfl
  obtain ⟨hrun, hext⟩ := h.run_of_store hperm ptr (s.1.pool.lengthBytes memorySize)
  refine ⟨hsettled ▸ hrun, hsettled ▸ hext, rfl, fun _ => rfl, trivial, fun b hb => ?_,
    Or.inr (Or.inr ⟨rfl, rfl, rfl, rfl, fun _ => rfl, fun _ => rfl, fun _ _ hroom => hroom,
      fun _ _ ha => ha⟩)⟩
  rcases List.mem_cons.mp hb with rfl | hb
  · refine ⟨?_, Nat.zero_le _, rfl, fun hmode => ?_⟩
    · show s.1.pool.Admits memorySize
        (s.1.pool.header (s.1.pool.chunkOf (ptr + s.1.pool.metaSize))).slabSize
      rwa [chunkOf_add_metaSize]
    · change s.1.pool.perfectFit = false at hmode
      simp only [metaSize, lengthBytes, hmode, Bool.false_eq_true, if_false, Nat.add_sub_cancel]
      exact Bytes.load_store_self
  · refine h.held_of_store hmem ?_ ?_ hb fun heq => ?_
    · rw [slabStart, Nat.add_sub_cancel]
    · rw [slabEnd, slabStart, Nat.add_sub_cancel, chunkOf_add_metaSize]
      have := hadmits.1
      omega
    · -- the block is in the hands of the thread, so it is not held
      have hdisj := (List.nodup_append.mp h.run.live.nodup).2.2 b.ptr (List.mem_map_of_mem hb)
        (ptr + s.1.pool.metaSize) (List.mem_filterMap.mpr ⟨_, List.mem_of_getElem? hget, rfl⟩)
      exact hdisj heq

/-- A caller writes into a block. -/
theorem ThreadsInv.write (h : ThreadsInv n s) (hget : s.2[i]? = some .idle) {b : Held}
    (hb : b ∈ s.1.held) {data : List UInt8} (hlen : data.length ≤ b.memorySize) :
    Moved n s ({ s.1 with
      pool := s.1.pool.storeBytes b.ptr data
      held := { b with data } :: s.1.held.erase b }, s.2.set i .idle) .idle .idle := by
  have hmem := mem_blocks_of_held hb
  have hok := h.held b hb
  have hsettled : settled ({ s.1 with
      pool := s.1.pool.storeBytes b.ptr data
      held := { b with data } :: s.1.held.erase b }, s.2.set i .idle) =
        (settled s).storeBytes b.ptr data := by
    rw [settled, sum_pending_set hget, settled]
    exact PersistMemoryPool.ext rfl rfl rfl rfl rfl rfl rfl rfl
      (congrArg (s.1.pool.totalMalloc + ·) (add_zero _))
  have hperm : (blocks s).Perm (blocks ({ s.1 with
      pool := s.1.pool.storeBytes b.ptr data
      held := { b with data } :: s.1.held.erase b }, s.2.set i .idle)) := by
    rw [blocks, blocks]
    refine List.Perm.append ((List.perm_cons_erase hb).map Held.ptr) (List.Perm.of_eq ?_)
    exact (Threads.filterMap_set_of_eq hget rfl).symm
  obtain ⟨hrun, hext⟩ := h.run_of_store hperm b.ptr data
  obtain ⟨c, j, ha, hptr, hc⟩ := h.allocated hmem
  refine ⟨hsettled ▸ hrun, hsettled ▸ hext, rfl, fun _ => rfl, trivial, fun b' hb' => ?_,
    Or.inr (Or.inr ⟨rfl, rfl, rfl, rfl, fun _ => rfl, fun _ => rfl, fun _ _ hroom => hroom,
      fun _ _ ha => ha⟩)⟩
  rcases List.mem_cons.mp hb' with rfl | hb'
  · refine ⟨hok.admits, hlen, Bytes.load_store_self, fun hmode => ?_⟩
    have height : s.1.pool.metaSize = kMetaDataSize := by
      rw [metaSize, show s.1.pool.perfectFit = false from hmode]
      rfl
    have hfour : 4 ≤ kMetaDataSize := by decide
    refine (Bytes.load_store_of_disjoint (Or.inl ?_)).trans (hok.length hmode)
    show b.ptr - kMetaDataSize + 4 ≤ b.ptr
    omega
  · refine h.held_of_store hmem (Nat.sub_le _ _) ?_ (List.mem_of_mem_erase hb') ?_
    · rw [slabEnd, slabStart]
      have := hok.admits.1
      omega
    · -- two blocks that are held are not at one address
      have hnodup := ((List.perm_cons_erase hb).map Held.ptr).nodup_iff.mp
        (List.nodup_append.mp h.run.live.nodup).1
      rw [List.map_cons, List.nodup_cons] at hnodup
      exact fun heq => hnodup.1 (heq ▸ List.mem_map_of_mem hb')

/-- `Free` begins: the caller gives the block away. -/
theorem ThreadsInv.call_free (h : ThreadsInv n s) (hget : s.2[i]? = some .idle) {b : Held}
    (hb : b ∈ s.1.held) :
    Moved n s ({ s.1 with held := s.1.held.erase b },
      s.2.set i (.free (b.ptr - s.1.pool.metaSize))) .idle
      (.free (b.ptr - s.1.pool.metaSize)) := by
  obtain ⟨c, j, -, hptr, -⟩ := h.allocated (mem_blocks_of_held hb)
  refine h.silent ?_ ?_ rfl (fun _ => rfl) trivial rfl (fun _ hb' => List.mem_of_mem_erase hb')
    (Or.inr (Or.inr (Outer.refl _)))
  · rw [settled, sum_pending_set hget]
    exact PersistMemoryPool.ext rfl rfl rfl rfl rfl rfl rfl rfl
      (congrArg (s.1.pool.totalMalloc + ·) (add_zero _))
  · have hperm : (blocks ({ s.1 with held := s.1.held.erase b },
        s.2.set i (.free (b.ptr - s.1.pool.metaSize)))).Perm
          ((b.ptr - s.1.pool.metaSize + s.1.pool.metaSize) :: ((s.1.held.erase b).map Held.ptr ++
            s.2.filterMap (ThreadPc.block s.1.pool.metaSize))) := by
      refine blocks_set_perm ?_ hget ?_ ?_
      · rfl
      · exact fun _ => rfl
      · exact fun _ => rfl
    refine hperm.trans ?_
    rw [Nat.sub_add_cancel (by omega), blocks]
    exact ((List.perm_cons_erase hb).map Held.ptr).symm.append_right _

/-- The slab that the thread frees. -/
theorem ThreadsInv.freed_slab (h : ThreadsInv n s) (ht : t ∈ s.2) {a : ℕ}
    (hblock : t.block s.1.pool.metaSize = some (a + s.1.pool.metaSize)) :
    ∃ j, (settled s).Allocated (a / kChunkSize) j ∧
      a = (settled s).entry (a / kChunkSize) j := by
  obtain ⟨c, j, ha, hptr, hc⟩ := h.allocated (mem_blocks_of_thread ht hblock)
  rw [chunkOf_add_metaSize] at hc
  subst hc
  exact ⟨j, ha, (Nat.add_right_cancel hptr).trans (settle_entry j).symm⟩

/-- `allocated_entries_--`. -/
theorem ThreadsInv.free (h : ThreadsInv n s) {a : ℕ} (hget : s.2[i]? = some (.free a))
    (hlock : s.1.chunkLock (a / kChunkSize) = false) :
    Moved n s ({ s.1 with
      pool := s.1.pool.lowerCount (a / kChunkSize)
      chunkLock := Function.update s.1.chunkLock (a / kChunkSize) true },
      s.2.set i (.clear a)) (.free a) (.clear a) := by
  obtain ⟨j, ha, -⟩ := h.freed_slab (List.mem_of_getElem? hget) rfl
  have hused := h.run.inv.usedChunk ha
  have hrec : (s.1.pool.chunks (a / kChunkSize)).isRecovered = true :=
    settle_isRecovered ▸ hused.recovered
  have hlower : s.1.pool.lowerCount (a / kChunkSize) = s.1.pool.setChunk (a / kChunkSize)
      { s.1.pool.chunks (a / kChunkSize) with
        allocatedEntries := (s.1.pool.chunks (a / kChunkSize)).allocatedEntries - 1 } := by
    rw [lowerCount, recovery, if_pos hrec]
  refine h.silent ?_ ?_ rfl (fun c => ?_) trivial ?_ (fun _ hb => hb) (Or.inr (Or.inr ?_))
  · rw [settled, sum_pending_set hget]
    exact (settle_lowerCount hlock hrec).trans (PersistMemoryPool.ext rfl rfl rfl rfl rfl rfl rfl
      rfl (congrArg (s.1.pool.totalMalloc + ·) (add_zero _)))
  · refine List.Perm.of_eq (blocks_set_of_eq ?_ hget rfl fun _ => rfl)
    rw [hlower]
    rfl
  · by_cases hc : c = a / kChunkSize
    · subst hc
      simp [ThreadPc.clears, hlock]
    · simp [ThreadPc.clears, Function.update_of_ne hc, Ne.symm hc]
  · rw [hlower]
    rfl
  · rw [hlower]
    refine ⟨rfl, rfl, rfl, rfl, fun _ => rfl, fun _ => rfl, fun c _ hroom => ?_, fun _ _ ha => ha⟩
    by_cases hc : c = a / kChunkSize
    · subst hc
      have hle := hused.card_le
      have hcount := hused.count
      rw [show (settled s).chunks (a / kChunkSize) = s.1.pool.chunks (a / kChunkSize) from
        settle_chunks_of_false hlock] at hcount
      have hheader : (settled s).header (a / kChunkSize) = s.1.pool.header (a / kChunkSize) := rfl
      rw [hheader] at hle hcount
      simp only [full, setChunk, Function.update_self, beq_eq_false_iff_ne]
      show _ ≠ ((s.1.pool.header (a / kChunkSize)).nrEntries : ℤ)
      omega
    · rw [full, setChunk]
      simp only [Function.update_of_ne hc]
      exact hroom

theorem slabSize_clearEntry (c a c' : ℕ) :
    ((p.clearEntry c a).header c').slabSize = (p.header c').slabSize := by
  by_cases hc : c' = c
  · simp [hc, clearEntry, setHeader, header]
  · simp [hc, clearEntry, setHeader, header]

theorem entries_clearEntry (c a c' : ℕ) :
    ((p.clearEntry c a).header c').nrEntries = (p.header c').nrEntries := by
  by_cases hc : c' = c
  · simp [hc, clearEntry, setHeader, header]
  · simp [hc, clearEntry, setHeader, header]

/-- The bit is cleared: **`Free` takes effect.** -/
theorem ThreadsInv.clear (h : ThreadsInv n s) {a : ℕ} (hget : s.2[i]? = some (.clear a)) :
    Moved n s ({ s.1 with
      pool := s.1.pool.clearEntry (a / kChunkSize) a
      chunkLock := Function.update s.1.chunkLock (a / kChunkSize) false },
      s.2.set i .discount) (.clear a) .discount := by
  obtain ⟨j, ha, haddr⟩ := h.freed_slab (List.mem_of_getElem? hget) rfl
  have hused := h.run.inv.usedChunk ha
  have hrec : (s.1.pool.chunks (a / kChunkSize)).isRecovered = true :=
    settle_isRecovered ▸ hused.recovered
  have hlocked : s.1.chunkLock (a / kChunkSize) = true := by
    have hholds : 0 < (s.1.chunkLock (a / kChunkSize)).toNat := by
      rw [← h.chunkLock]
      exact List.countP_pos_iff.mpr ⟨_, List.mem_of_getElem? hget, beq_self_eq_true _⟩
    exact Bool.toNat_eq_one.mp ((Bool.toNat_le _).antisymm hholds)
  obtain ⟨p', hfree, hf⟩ := h.run.inv.free_block ha
  have hsettled : settled ({ s.1 with
      pool := s.1.pool.clearEntry (a / kChunkSize) a
      chunkLock := Function.update s.1.chunkLock (a / kChunkSize) false },
      s.2.set i .discount) = p' := by
    rw [← haddr] at hfree
    have hclear := (settle_clearEntry (p := s.1.pool) hlocked ha.1 hrec).symm.trans hfree
    rw [settled, sum_pending_set hget]
    exact (Prod.mk.inj hclear).1
  rw [← hsettled] at hf
  refine ⟨⟨hf.inv, ?_, hf.removed.nrChunks.trans h.run.nrChunks⟩, hf.removed.toExtends, rfl,
    fun c => ?_, trivial, fun b hb => h.held_of_extends hf.removed.toExtends hf.bytes hb,
    Or.inr (Or.inr ⟨rfl, rfl, rfl, rfl, fun c => ?_, fun c => ?_, fun c _ hroom => ?_,
      fun c i hc => ((hf.removed.allocated c i).mp hc).1⟩)⟩
  · have hperm : (blocks s).Perm ((a + s.1.pool.metaSize) :: (s.1.held.map Held.ptr ++
        (s.2.set i .discount).filterMap (ThreadPc.block s.1.pool.metaSize))) :=
      blocks_perm_set hget (fun _ => rfl) fun _ => rfl
    refine (h.run.live.free h.run.inv ha hf).perm ?_
    rw [← haddr]
    exact (hperm.erase _).trans (List.Perm.of_eq (List.erase_cons_head ..))
  · by_cases hc : c = a / kChunkSize
    · subst hc
      simp [ThreadPc.clears, hlocked]
    · simp [ThreadPc.clears, Function.update_of_ne hc, Ne.symm hc]
  · exact slabSize_clearEntry _ _ c
  · exact entries_clearEntry _ _ c
  · rw [full, entries_clearEntry]
    exact hroom

/-- `total_malloc_--`. -/
theorem ThreadsInv.discount (h : ThreadsInv n s) (hget : s.2[i]? = some .discount) :
    Moved n s ({ s.1 with pool := { s.1.pool with totalMalloc := s.1.pool.totalMalloc - 1 } },
      s.2.set i .idle) .discount .idle := by
  refine h.silent ?_ (List.Perm.of_eq (blocks_set_of_eq rfl hget rfl fun _ => rfl)) rfl
    (fun _ => rfl) trivial rfl (fun _ hb => hb)
    (Or.inr (Or.inr ⟨rfl, rfl, rfl, rfl, fun _ => rfl, fun _ => rfl, fun _ _ hroom => hroom,
      fun _ _ ha => ha⟩))
  rw [settled, sum_pending_set hget, settled]
  refine PersistMemoryPool.ext rfl rfl rfl rfl rfl rfl rfl rfl ?_
  show s.1.pool.totalMalloc - 1 + ((s.2.map ThreadPc.pending).sum + (0 - -1)) = _
  rw [settle]
  ring

/-- A class has no more chunks than there are. -/
theorem Inv.length_class_le (h : p.Inv) {slabSize : ℕ} {chunks : List ℕ}
    (hclass : p.sizeToChunks slabSize = some chunks) : chunks.length ≤ p.nrChunks := by
  have hsub : chunks ⊆ List.range p.nrChunks := fun c hc =>
    List.mem_range.mpr ((h.mem_class slabSize chunks hclass c).mp hc).1
  have hle := ((h.class_nodup slabSize chunks hclass).subperm hsub).length_le
  rwa [List.length_range] at hle

/-- `New` begins. -/
theorem ThreadsInv.call_new (h : ThreadsInv n s) (hget : s.2[i]? = some .idle) {memorySize : ℕ}
    (hturn : s.1.call (.new memorySize) = some (sh, t')) :
    Moved n s (sh, s.2.set i t') .idle t' := by
  rw [Shared.call] at hturn
  split_ifs at hturn with hmode
  · cases hturn
    refine h.quiet hget rfl (fun _ => rfl) (fun _ => rfl) rfl ⟨?_, fun _ => rfl⟩
    rw [metaSize, if_pos hmode, Nat.zero_add]
  · cases hlb : s.1.pool.lowerBound (kMetaDataSize + memorySize) with
    | none =>
      simp only [hlb] at hturn
      cases hturn
      exact h.quiet hget rfl (fun _ => rfl) (fun _ => rfl) rfl (ok_failed (by decide))
    | some slabSize =>
      simp only [hlb] at hturn
      cases hturn
      refine h.quiet hget rfl (fun _ => rfl) (fun _ => rfl) rfl ⟨?_, fun htrue => ?_⟩
      · rw [metaSize, if_neg hmode]
        exact (lowerBound_spec hlb).2
      · exact absurd htrue hmode

/-- The branches of `NewInternal` up to `Malloc`, when the free queue is empty or the last used
chunk has room. -/
theorem ThreadsInv.choose (h : ThreadsInv n s) (hget : s.2[i]? = some t)
    (hin : t.inside = true) (hin' : t'.inside = true) (hpending : t.pending = 0)
    (hpending' : t'.pending = 0) (hblock : ∀ m, t.block m = none) (hblock' : ∀ m, t'.block m = none)
    (hok : t'.Ok s.1.pool) : Moved n s (s.1, s.2.set i t') t t' := by
  refine h.quiet hget (by rw [hpending, hpending']) (fun m => by rw [hblock, hblock'])
    (fun c => ?_) (by rw [hin, hin']) hok
  have hclears : ∀ u : ThreadPc, u.inside = true → u.clears c = false := fun u hu => by
    cases u with
    | clear => cases hu
    | _ => rfl
  rw [hclears t hin, hclears t' hin']

/-- **Every step of a thread.** -/
theorem ThreadsInv.turn (h : ThreadsInv n s) (hget : s.2[i]? = some t) {a : Turn}
    (hturn : Shared.turn a s.1 t = some (sh, t')) : Moved n s (sh, s.2.set i t') t t' := by
  have hok := h.threads t (List.mem_of_getElem? hget)
  cases a with
  | call call =>
    cases t with
    | idle =>
      cases call with
      | new memorySize => exact h.call_new hget hturn
      | free b =>
        rw [Shared.turn, Shared.call] at hturn
        split_ifs at hturn with hb
        cases hturn
        exact h.call_free hget hb
      | write b data =>
        rw [Shared.turn, Shared.call] at hturn
        split_ifs at hturn with hb
        cases hturn
        exact h.write hget hb.1 hb.2
    | _ => cases hturn
  | next =>
    cases next_cases hturn with
    | enter hlock =>
      refine h.quiet hget rfl (fun _ => rfl) (fun _ => rfl) ?_ hok
      rw [hlock]
      rfl
    | @lastRoom memorySize slabSize c hlast =>
      obtain ⟨hsome, hroom⟩ := Option.filter_eq_some_iff.mp hlast
      obtain ⟨hlt, hfree, hslab⟩ := h.run.inv.last slabSize c hsome
      have hslab' : (s.1.pool.header c).slabSize = slabSize := hslab
      refine h.choose hget rfl rfl rfl rfl (fun _ => rfl) (fun _ => rfl)
        ⟨hslab'.symm ▸ hok, ⟨hlt, hfree, rfl⟩, ?_⟩
      simpa using hroom
    | lastFull => exact h.choose hget rfl rfl rfl rfl (fun _ => rfl) (fun _ => rfl) hok
    | take hfree htake =>
      obtain ⟨hpos, chunks, hclass, rfl⟩ := takeFront_ok htake
      exact h.takeChunk hget hfree hclass hpos
    | freshFails hwhy =>
      rcases hwhy with rfl | rfl
      · exact h.choose hget rfl rfl rfl rfl (fun _ => rfl) (fun _ => rfl) (ok_failed (by decide))
      · exact h.choose hget rfl rfl rfl rfl (fun _ => rfl) (fun _ => rfl) (ok_failed (by decide))
    | scan hfree hclass =>
      exact h.choose hget rfl rfl rfl rfl (fun _ => rfl) (fun _ => rfl)
        ⟨hok, fun c hc => (h.run.inv.mem_class _ _ hclass c).mp hc,
          h.run.inv.length_class_le hclass⟩
    | @scanFull memorySize slabSize c chunks hfull =>
      exact h.choose hget rfl rfl rfl rfl (fun _ => rfl) (fun _ => rfl)
        ⟨hok.1, fun c' hc' => hok.2.1 c' (List.mem_cons_of_mem c hc'), Nat.le_of_succ_le hok.2.2⟩
    | @scanRoom memorySize slabSize c chunks hroom =>
      obtain ⟨hlt, hfree, hslab⟩ := hok.2.1 c List.mem_cons_self
      exact h.choose hget rfl rfl rfl rfl (fun _ => rfl) (fun _ => rfl)
        ⟨hslab.symm ▸ hok.1, ⟨hlt, hfree, rfl⟩, hroom⟩
    | scanEnd =>
      exact h.choose hget rfl rfl rfl rfl (fun _ => rfl) (fun _ => rfl) (ok_failed (by simp))
    | malloc hlock hmalloc =>
      obtain ⟨p', ptr, hsome, hmoved⟩ := h.malloc hget hlock
      obtain ⟨rfl, rfl⟩ := Prod.mk.inj (Option.some.inj (hmalloc.symm.trans hsome))
      exact hmoved
    | mallocFails hlock hmalloc =>
      obtain ⟨p', ptr, hsome, -⟩ := h.malloc hget hlock
      cases hmalloc.symm.trans hsome
    | count => exact h.count hget
    | finish => exact h.finish hget
    | free hlt hlock => exact h.free hget hlock
    | freeOutside hlt =>
      obtain ⟨j, ha, -⟩ := h.freed_slab (List.mem_of_getElem? hget) rfl
      exact absurd ha.1 hlt
    | clear => exact h.clear hget
    | discount => exact h.discount hget

/-- A step of the threads, with what it does. -/
theorem ThreadsInv.step_cases (h : ThreadsInv n s) {a : ℕ × Turn} {s' : ThreadsState}
    (hs : threadStep s a = some s') : ∃ t t', s.2[a.1]? = some t ∧
      Shared.turn a.2 s.1 t = some (s'.1, t') ∧ s'.2 = s.2.set a.1 t' ∧ Moved n s s' t t' := by
  obtain ⟨t, t', hget, hturn, hset⟩ := Threads.step_cases hs
  have hmoved := h.turn hget hturn
  rw [← hset] at hmoved
  exact ⟨t, t', hget, hturn, hset, hmoved⟩

theorem ThreadsInv.step (h : ThreadsInv n s) {a : ℕ × Turn} {s' : ThreadsState}
    (hs : threadStep s a = some s') : ThreadsInv n s' := by
  obtain ⟨t, t', hget, -, hset, hmoved⟩ := h.step_cases hs
  exact h.moved hget hset hmoved

end Steps

/-! ### All interleavings -/

section Runs

variable {perfectFit : Bool} {memorySize n : ℕ} {slabSizes : List ℕ} {p₀ : PersistMemoryPool}
  {s : ThreadsState}

section Idle

variable {ls : List ThreadPc} (hidle : ∀ t ∈ ls, t = .idle)

include hidle

theorem countP_of_idle {f : ThreadPc → Bool} (hf : f .idle = false) : ls.countP f = 0 := by
  refine List.countP_eq_zero.mpr fun t ht => ?_
  rw [hidle t ht, hf]
  exact Bool.false_ne_true

theorem sum_pending_of_idle : (ls.map ThreadPc.pending).sum = 0 := by
  refine List.sum_eq_zero fun x hx => ?_
  obtain ⟨t, ht, rfl⟩ := List.mem_map.mp hx
  rw [hidle t ht]
  rfl

theorem filterMap_block_of_idle (m : ℕ) : ls.filterMap (ThreadPc.block m) = [] := by
  refine List.filterMap_eq_nil_iff.mpr fun t ht => ?_
  rw [hidle t ht]
  rfl

end Idle

theorem threadsInv_new (hcreate : create perfectFit memorySize slabSizes = .ok p₀) (n : ℕ) :
    ThreadsInv (memorySize / kChunkSize) (newThreads p₀ n) := by
  have hidle : ∀ t ∈ (newThreads p₀ n).2, t = .idle := fun t ht => List.eq_of_mem_replicate ht
  have hsettled : settled (newThreads p₀ n) = p₀ := by
    rw [settled, sum_pending_of_idle hidle]
    exact PersistMemoryPool.ext rfl rfl rfl rfl rfl rfl rfl rfl (add_zero _)
  have hblocks : blocks (newThreads p₀ n) = [] := filterMap_block_of_idle hidle _
  refine ⟨?_, countP_of_idle hidle rfl, fun c => countP_of_idle hidle rfl, fun t ht => ?_,
    fun b hb => absurd hb List.not_mem_nil⟩
  · rw [hsettled, hblocks]
    exact create_runInv hcreate
  · rw [hidle t ht]
    trivial

/-- What holds in every state of the threads. -/
theorem threadsInv_run (hcreate : create perfectFit memorySize slabSizes = .ok p₀)
    {schedule : List (ℕ × Turn)}
    (hrun : Run.run threadStep (newThreads p₀ n) schedule = some s) :
    ThreadsInv (memorySize / kChunkSize) s :=
  Run.run_invariant (fun _ _ _ h hs => h.step hs) (threadsInv_new hcreate n) hrun

/-- The size of a block that is held. -/
theorem ThreadsInv.getMallocSize (h : ThreadsInv n s) {b : Held} (hb : b ∈ s.1.held) :
    s.1.pool.getMallocSize b.ptr = b.memorySize := by
  have hok := h.held b hb
  obtain ⟨c, i, ha, hptr, hc⟩ := h.allocated (mem_blocks_of_held hb)
  rw [PersistMemoryPool.getMallocSize]
  split_ifs with hmode
  · have hchunk : b.ptr / kChunkSize = s.1.pool.chunkOf b.ptr := by
      rw [chunkOf, slabStart, metaSize, if_pos hmode, Nat.sub_zero]
    rw [hchunk]
    exact hok.admits.2 hmode
  · rw [hok.length (Bool.eq_false_of_not_eq_true hmode)]
    refine Bytes.decode_encode32 ?_
    obtain ⟨hlo, hhi⟩ := (h.run.inv.usedChunk ha).slab_in_chunk (h.run.inv.lt_nrEntries ha)
    have hadmits := hok.admits.1
    rw [hc] at hadmits
    have hheader : (settled s).header c = s.1.pool.header c := rfl
    rw [hheader] at hlo hhi
    rw [Nat.add_mul, Nat.one_mul] at hhi
    have hsize : kChunkSize < 2 ^ 32 := by decide
    omega

/-- **What threads hold that share a pool.** In every state of every interleaving the blocks that
are held lie in different slabs, each has the size that was asked for and the bytes that were last
written into it, and no `CHECK(return_ptr)` has failed. When no call is under way, the counters are
exact and the listing is that of the blocks that are held. -/
theorem pool_threads_exact (hcreate : create perfectFit memorySize slabSizes = .ok p₀)
    {schedule : List (ℕ × Turn)}
    (hrun : Run.run threadStep (newThreads p₀ n) schedule = some s) :
    (s.1.held.map Held.ptr).Pairwise (fun a b =>
        s.1.pool.slabEnd a ≤ s.1.pool.slabStart b ∨ s.1.pool.slabEnd b ≤ s.1.pool.slabStart a) ∧
      (∀ b ∈ s.1.held, b.ptr + b.memorySize ≤ s.1.pool.slabEnd b.ptr ∧
        s.1.pool.getMallocSize b.ptr = b.memorySize ∧
        Bytes.load s.1.pool.file.bytes b.ptr b.data.length = b.data) ∧
      .failed .returnPtr ∉ s.2 ∧
      ((∀ t ∈ s.2, t = .idle) →
        s.1.pool.totalMalloc = s.1.held.length ∧
        (∀ c < s.1.pool.nrChunks, (s.1.pool.chunks c).allocatedEntries =
          (s.1.pool.header c).bitmap.numberOfOnes) ∧
        ∃ l, s.1.pool.getMallocsAppend = .ok l ∧ l.Nodup ∧ l.Perm (s.1.held.map Held.ptr)) := by
  have h := threadsInv_run hcreate hrun
  refine ⟨?_, fun b hb => ⟨?_, h.getMallocSize hb, (h.held b hb).data⟩,
    fun hmem => h.threads _ hmem rfl, fun hidle => ?_⟩
  · exact (List.pairwise_append.mp h.run.pairwise).1
  · have hadmits := (h.held b hb).admits.1
    rw [slabEnd, slabStart]
    omega
  · have hunlocked : s.1.chunkLock = fun _ => false := funext fun c => by
      have hcount := h.chunkLock c
      rw [countP_of_idle hidle rfl] at hcount
      cases hl : s.1.chunkLock c with
      | false => rfl
      | true =>
        rw [hl] at hcount
        cases hcount
    have hsettled : settled s = s.1.pool := by
      rw [settled, hunlocked, sum_pending_of_idle hidle]
      exact PersistMemoryPool.ext rfl rfl rfl rfl rfl rfl rfl rfl (add_zero _)
    have hblocks : blocks s = s.1.held.map Held.ptr := by
      rw [blocks, filterMap_block_of_idle hidle, List.append_nil]
    have hr := h.run
    rw [hsettled, hblocks] at hr
    refine ⟨?_, fun c hc => ?_, hr.live.getMallocsAppend hr.inv⟩
    · exact hr.live.total.trans (by rw [List.length_map])
    · exact (hr.inv.count hc).trans (by rw [BitMap.numberOfOnes_eq])

/-- Two threads; the second allocates while the first has still to write the length of its
block. -/
theorem pool_threads_exact_two : ∃ p₀ s,
    create false (2 * kChunkSize) [40] = .ok p₀ ∧
      Run.run threadStep (newThreads p₀ 2) ([(0, .call (.new 30)), (1, .call (.new 20))] ++
        List.replicate 5 (0, .next) ++ List.replicate 5 (1, .next) ++ [(0, .next)]) = some s ∧
      s.1.held.length = 2 ∧ s.1.pool.totalMalloc = 2 := by
  have heval : ((create false (2 * kChunkSize) [40]).toOption.any fun p₀ =>
      (Run.run threadStep (newThreads p₀ 2) ([(0, .call (.new 30)), (1, .call (.new 20))] ++
        List.replicate 5 (0, .next) ++ List.replicate 5 (1, .next) ++ [(0, .next)])).any fun s =>
          decide (s.1.held.length = 2) && s.2.all fun t => decide (t = .idle)) = true := by
    decide +kernel
  simp only [Option.any_eq_true, Bool.and_eq_true, decide_eq_true_eq, List.all_eq_true] at heval
  obtain ⟨p₀, hcreate, s, hrun, hlen, hidle⟩ := heval
  have hok := eq_ok_of_toOption hcreate
  obtain ⟨-, -, -, hrest⟩ := pool_threads_exact hok hrun
  exact ⟨p₀, s, hok, hrun, hlen, (hrest hidle).1.trans (by rw [hlen]; rfl)⟩

end Runs

end PersistMemoryPool

end PetPS

import Mathlib.Data.List.MinMax
import PetPS.Basic
import PetPS.Lib.Bytes
import PetPS.Memory.BitMap

/-!
# `PersistMemoryPool`: a slab allocator over one mapped file

`persist_malloc.h`. The file is cut into chunks of 2 MiB. A chunk in use starts with a header and a
bitmap and is divided into slabs of one size; the bitmap says which slabs are allocated. Which
chunks are free, which size class a chunk belongs to, and a cached count of its allocated slabs are
volatile and rebuilt when the pool is opened.

Addresses are offsets from the start of the file. The file is split into its chunk headers and its
bytes; `Layout` shows that no slab reaches into a header, so a store to a slab changes bytes only.
Counters the code decrements are integers. The field `ChunkHeader::allocated` is never used and is
left out, as are the locks and the checks of debug builds.
-/

namespace PetPS

/-- `kChunkSize`, 2 MiB. -/
def kChunkSize : ℕ := 2 * 1024 * 1024

/-- `kMetaDataSize`: the bytes before a block that hold its length. -/
def kMetaDataSize : ℕ := 8

/-- `PersistMemoryPool::Chunk::ChunkHeader`. -/
structure ChunkHeader where
  /-- Whether the chunk belongs to a size class. -/
  isUsed : Bool
  /-- The slab size. -/
  slabSize : ℕ
  /-- The number of slabs. -/
  nrEntries : ℕ
  /-- The allocated slabs. -/
  bitmap : BitMap

/-- `HeaderSize(nr_entries)`: `sizeof(ChunkHeader)` is 16. -/
def ChunkHeader.headerSize (nrEntries : ℕ) : ℕ := 16 + BitMap.memorySize nrEntries

/-- `PersistMemoryPool::Chunk`, the volatile part. -/
structure Chunk where
  /-- The offset of the first slab, `data_`. -/
  data : ℕ
  /-- Whether `data_` and the count are set. -/
  isRecovered : Bool
  /-- The number of allocated slabs. -/
  allocatedEntries : ℤ

/-- The mapped file. -/
structure PoolFile where
  /-- The header of each chunk. -/
  header : ℕ → ChunkHeader
  /-- The bytes. -/
  bytes : Bytes.Mem

/-- A new file is all zero. -/
def PoolFile.zeroed : PoolFile where
  header _ := ⟨false, 0, 0, ⟨0, fun _ => 0#64⟩⟩
  bytes _ := 0

/-- `PersistMemoryPool<PERFECT_FIT_MOD>`. -/
@[ext]
structure PersistMemoryPool where
  /-- `PERFECT_FIT_MOD`. -/
  perfectFit : Bool
  /-- The slab sizes, a set. -/
  allocatedSlabSizes : List ℕ
  /-- The number of chunks. -/
  nrChunks : ℕ
  /-- The file. -/
  file : PoolFile
  /-- The chunk objects. -/
  chunks : ℕ → Chunk
  /-- The chunks in no size class, a queue. -/
  freeChunks : List ℕ
  /-- The chunks of each size class; `none` for sizes without one. -/
  sizeToChunks : ℕ → Option (List ℕ)
  /-- The chunk last taken for each size class. -/
  sizeToLastUsedChunk : ℕ → Option ℕ
  /-- The number of allocated blocks. -/
  totalMalloc : ℤ

namespace PersistMemoryPool

/-! ### Chunks -/

/-- The header of chunk `c`. -/
def header (p : PersistMemoryPool) (c : ℕ) : ChunkHeader := p.file.header c

/-- Replace the header of chunk `c`. -/
def setHeader (p : PersistMemoryPool) (c : ℕ) (h : ChunkHeader) : PersistMemoryPool :=
  { p with file := { p.file with header := Function.update p.file.header c h } }

/-- Replace the chunk object `c`. -/
def setChunk (p : PersistMemoryPool) (c : ℕ) (k : Chunk) : PersistMemoryPool :=
  { p with chunks := Function.update p.chunks c k }

/-- `while (HeaderSize(nr_entries) + nr_entries * slab_size > kChunkSize) nr_entries -= 64;`. -/
def useLoop (slabSize : ℕ) : ℕ → ℕ → ℕ
  | 0, nrEntries => nrEntries
  | fuel + 1, nrEntries =>
    if kChunkSize < ChunkHeader.headerSize nrEntries + nrEntries * slabSize then
      useLoop slabSize fuel (nrEntries - 64)
    else nrEntries

/-- The number of slabs `Use` makes. The loop stops at `0` at the latest. -/
def useEntries (slabSize : ℕ) : ℕ :=
  let nrEntries := kChunkSize / slabSize
  let nrEntries := nrEntries - nrEntries % 64
  useLoop slabSize (nrEntries / 64 + 1) nrEntries

/-- `Chunk::Use`. -/
def use (p : PersistMemoryPool) (c slabSize : ℕ) : Except Abort PersistMemoryPool :=
  let nrEntries := useEntries slabSize
  if 0 < nrEntries then
    let p := p.setHeader c
      ⟨true, slabSize, nrEntries, (BitMap.construct (p.header c).bitmap.bits nrEntries).clearAll⟩
    .ok (p.setChunk c ⟨c * kChunkSize + ChunkHeader.headerSize nrEntries, true, 0⟩)
  else .error .check

/-- `Chunk::Recovery`. -/
def recovery (p : PersistMemoryPool) (c : ℕ) : PersistMemoryPool :=
  if (p.chunks c).isRecovered then p
  else
    p.setChunk c
      ⟨c * kChunkSize + ChunkHeader.headerSize (p.header c).nrEntries, true,
        (p.header c).bitmap.numberOfOnes⟩

/-- `Chunk::Full`. -/
def full (p : PersistMemoryPool) (c : ℕ) : Bool :=
  (p.chunks c).allocatedEntries == (p.header c).nrEntries

/-- `Chunk::Entry`. -/
def entry (p : PersistMemoryPool) (c entryId : ℕ) : ℕ :=
  (p.chunks c).data + entryId * (p.header c).slabSize

/-- `Chunk::EntryId`. -/
def entryId (p : PersistMemoryPool) (c memoryData : ℕ) : ℕ :=
  (memoryData - (p.chunks c).data) / (p.header c).slabSize

/-- Replace the bitmap of chunk `c` and move its count by `d`. -/
def setBitmap (p : PersistMemoryPool) (c : ℕ) (m : BitMap) (d : ℤ) : PersistMemoryPool :=
  let k := p.chunks c
  (p.setHeader c { p.header c with bitmap := m }).setChunk c
    { k with allocatedEntries := k.allocatedEntries + d }

/-- `Chunk::Malloc`; `none` is `nullptr`. -/
def chunkMalloc (p : PersistMemoryPool) (c : ℕ) : Option (PersistMemoryPool × ℕ) :=
  let p := p.recovery c
  match (p.header c).bitmap.setZeroPos with
  | none => none
  | some (m, id) => some (p.setBitmap c m 1, p.entry c id)

/-- `Chunk::Free`. -/
def chunkFree (p : PersistMemoryPool) (c memoryData : ℕ) : PersistMemoryPool :=
  let p := p.recovery c
  p.setBitmap c ((p.header c).bitmap.clear (p.entryId c memoryData)) (-1)

/-- `Chunk::GetMallocedData`. -/
def getMallocedData (p : PersistMemoryPool) (c : ℕ) : Except Abort (List ℕ) :=
  let data := ((List.range (p.header c).nrEntries).filter (p.header c).bitmap.get).map (p.entry c)
  if (data.length : ℤ) = (p.chunks c).allocatedEntries then .ok data else .error .check

/-! ### Allocation -/

/-- The end of `NewInternal`: `CHECK(return_ptr); total_malloc_++`. -/
def finish (r : Option (PersistMemoryPool × ℕ)) : Except Abort (PersistMemoryPool × ℕ) :=
  match r with
  | none => .error .returnPtr
  | some (p, ptr) => .ok ({ p with totalMalloc := p.totalMalloc + 1 }, ptr)

/-- The branch of `NewInternal` that takes a fresh chunk. -/
def newFromFree (p : PersistMemoryPool) (slabSize front : ℕ) (rest : List ℕ) :
    Except Abort (PersistMemoryPool × ℕ) :=
  match { p with freeChunks := rest }.use front slabSize with
  | .error e => .error e
  | .ok p =>
    match p.sizeToChunks slabSize with
    | none => .error .fault
    | some chunks =>
      let p := { p with
        sizeToChunks := Function.update p.sizeToChunks slabSize (some (chunks ++ [front]))
        sizeToLastUsedChunk := Function.update p.sizeToLastUsedChunk slabSize (some front) }
      finish (p.chunkMalloc front)

/-- The branch of `NewInternal` that scans the size class. -/
def newFromClass (p : PersistMemoryPool) (slabSize : ℕ) : Except Abort (PersistMemoryPool × ℕ) :=
  match p.sizeToChunks slabSize with
  | none => .error .fault
  | some chunks =>
    match chunks.find? fun c => !p.full c with
    | none => .error .poolOOM
    | some c => finish (p.chunkMalloc c)

/-- The last used chunk of a size class, if it has room. -/
def lastUsedRoom (p : PersistMemoryPool) (slabSize : ℕ) : Option ℕ :=
  (p.sizeToLastUsedChunk slabSize).filter fun c => !p.full c

/-- `NewInternal`. -/
def newInternal (p : PersistMemoryPool) (slabSize : ℕ) : Except Abort (PersistMemoryPool × ℕ) :=
  match p.lastUsedRoom slabSize with
  | some c => finish (p.chunkMalloc c)
  | none =>
    match p.freeChunks with
    | front :: rest => p.newFromFree slabSize front rest
    | [] => p.newFromClass slabSize

/-- `allocated_slab_sizes_.lower_bound(size)`. -/
def lowerBound (p : PersistMemoryPool) (size : ℕ) : Option ℕ :=
  (p.allocatedSlabSizes.filter fun s => size ≤ s).min?

/-- Write bytes into the file. -/
def storeBytes (p : PersistMemoryPool) (a : ℕ) (bs : List UInt8) : PersistMemoryPool :=
  { p with file := { p.file with bytes := Bytes.store p.file.bytes a bs } }

/-- `New`. -/
def new (p : PersistMemoryPool) (memorySize : ℕ) : Except Abort (PersistMemoryPool × ℕ) :=
  if p.perfectFit then p.newInternal memorySize
  else
    match p.lowerBound (kMetaDataSize + memorySize) with
    | none => .error .check
    | some slabSize =>
      match p.newInternal slabSize with
      | .error e => .error e
      | .ok (p, ptr) => .ok (p.storeBytes ptr (Bytes.encode32 memorySize), ptr + kMetaDataSize)

/-- The bytes between the start of a slab and the block `New` returns. -/
def metaSize (p : PersistMemoryPool) : ℕ := if p.perfectFit then 0 else kMetaDataSize

/-- `Free`. -/
def free (p : PersistMemoryPool) (memoryData : ℕ) : PersistMemoryPool × Bool :=
  let memoryData := memoryData - p.metaSize
  let chunkId := memoryData / kChunkSize
  if chunkId < p.nrChunks then
    let p := p.chunkFree chunkId memoryData
    ({ p with totalMalloc := p.totalMalloc - 1 }, true)
  else (p, false)

/-- The loop of `GetMallocsAppend` over the chunks. -/
def getMallocsLoop (p : PersistMemoryPool) : List ℕ → Except Abort (List ℕ)
  | [] => .ok []
  | c :: cs =>
    match p.getMallocedData c with
    | .error e => .error e
    | .ok data =>
      match p.getMallocsLoop cs with
      | .error e => .error e
      | .ok rest => .ok (data.map (· + p.metaSize) ++ rest)

/-- `GetMallocsAppend`, to an empty vector. -/
def getMallocsAppend (p : PersistMemoryPool) : Except Abort (List ℕ) :=
  p.getMallocsLoop (List.range p.nrChunks)

/-- `GetMallocSize(data)`. -/
def getMallocSize (p : PersistMemoryPool) (data : ℕ) : ℕ :=
  if p.perfectFit then (p.header (data / kChunkSize)).slabSize
  else Bytes.decode (Bytes.load p.file.bytes (data - kMetaDataSize) 4)

/-! ### Opening -/

/-- The recovery loop of the constructor. -/
def recoverLoop (p : PersistMemoryPool) : List ℕ → Except Abort PersistMemoryPool
  | [] => .ok p
  | c :: cs =>
    if (p.header c).isUsed then
      match p.sizeToChunks (p.header c).slabSize with
      | none => .error .fault
      | some chunks =>
        let p := { p with
          sizeToChunks := Function.update p.sizeToChunks (p.header c).slabSize
            (some (chunks ++ [c])) }
        let p := p.recovery c
        recoverLoop { p with totalMalloc := p.totalMalloc + (p.chunks c).allocatedEntries } cs
    else recoverLoop { p with freeChunks := p.freeChunks ++ [c] } cs

/-- The constructor up to the branch on `file_exists`. A mapping cannot exceed the address space. -/
def construct (perfectFit : Bool) (file : PoolFile) (memorySize : ℕ) (slabSizes : List ℕ) :
    Except Abort PersistMemoryPool :=
  if userSpace < memorySize then .error .check
  else
    let nrChunks := memorySize / kChunkSize
    if nrChunks < slabSizes.length then .error .check
    else
      .ok
        { perfectFit := perfectFit
          allocatedSlabSizes := slabSizes
          nrChunks := nrChunks
          file := file
          chunks := fun _ => ⟨0, false, 0⟩
          freeChunks := []
          sizeToChunks := fun s => if s ∈ slabSizes then some [] else none
          sizeToLastUsedChunk := fun _ => none
          totalMalloc := 0 }

/-- `Chunk::Initialize` on every chunk. -/
def initializeChunks (p : PersistMemoryPool) : PersistMemoryPool :=
  { p with
    file := { p.file with
      header := fun c =>
        if c < p.nrChunks then { p.file.header c with isUsed := false } else p.file.header c }
    freeChunks := List.range p.nrChunks }

/-- The constructor on a file that did not exist. -/
def create (perfectFit : Bool) (memorySize : ℕ) (slabSizes : List ℕ) :
    Except Abort PersistMemoryPool :=
  match construct perfectFit PoolFile.zeroed memorySize slabSizes with
  | .error e => .error e
  | .ok p => .ok p.initializeChunks

/-- The constructor on an existing file. -/
def reopen (perfectFit : Bool) (file : PoolFile) (memorySize : ℕ) (slabSizes : List ℕ) :
    Except Abort PersistMemoryPool :=
  match construct perfectFit file memorySize slabSizes with
  | .error e => .error e
  | .ok p => p.recoverLoop (List.range p.nrChunks)

end PersistMemoryPool

end PetPS

import PetPS.Memory.Pool
import Mathlib.Tactic.Ring

/-!
# The invariant of the pool

A chunk is in the free queue or in exactly one size class. `UsedChunk` is what holds of a chunk in a
class: its slabs fit behind its header and its cached count agrees with its bitmap. The slab
`(c, i)`, number `i` of chunk `c`, lies at `entry c i`; dividing an address by the chunk size
and then by the slab size recovers the pair, which is what `Free` does and why two slabs never
overlap.

`Added` and `Removed` say what `New` and `Free` do to the set of allocated slabs.

## Main results

* `UsedChunk.slab_in_chunk`, `UsedChunk.entry_div`, `UsedChunk.entryId_entry` — the geometry
* `Inv.slabs_disjoint` — two slabs do not overlap
* `Inv.chunkMalloc`, `Inv.chunkFree` — one slab more, one slab less
-/

namespace PetPS

namespace PersistMemoryPool

/-! ### How many slabs fit -/

theorem useLoop_spec (slabSize : ℕ) : ∀ (fuel nrEntries : ℕ), nrEntries % 64 = 0 →
    nrEntries / 64 < fuel →
      useLoop slabSize fuel nrEntries % 64 = 0 ∧
      ChunkHeader.headerSize (useLoop slabSize fuel nrEntries)
        + useLoop slabSize fuel nrEntries * slabSize ≤ kChunkSize := by
  intro fuel
  induction fuel with
  | zero => intro n _ h; omega
  | succ fuel ih =>
    intro n hmod hlt
    rw [useLoop]
    split_ifs with hbig
    · have hpos : n ≠ 0 := by
        rintro rfl
        rw [ChunkHeader.headerSize, BitMap.memorySize, kChunkSize] at hbig
        omega
      exact ih (n - 64) (by omega) (by omega)
    · exact ⟨hmod, not_lt.mp hbig⟩

/-- **`Use`** makes a multiple of 64 slabs that fit behind the header. -/
theorem useEntries_spec (slabSize : ℕ) : useEntries slabSize % 64 = 0 ∧
    ChunkHeader.headerSize (useEntries slabSize) + useEntries slabSize * slabSize ≤ kChunkSize := by
  rw [useEntries]
  exact useLoop_spec slabSize _ _ (by omega) (by omega)

theorem useLoop_le (slabSize : ℕ) :
    ∀ fuel nrEntries, useLoop slabSize fuel nrEntries ≤ nrEntries := by
  intro fuel
  induction fuel with
  | zero => exact fun n => le_rfl
  | succ fuel ih =>
    intro n
    rw [useLoop]
    split_ifs
    · exact (ih (n - 64)).trans (Nat.sub_le _ _)
    · exact le_rfl

theorem slabSize_pos_of_useEntries {slabSize : ℕ} (h : 0 < useEntries slabSize) : 0 < slabSize := by
  by_contra hzero
  obtain rfl : slabSize = 0 := by omega
  rw [useEntries] at h
  have hle := useLoop_le 0 ((kChunkSize / 0 - kChunkSize / 0 % 64) / 64 + 1)
    (kChunkSize / 0 - kChunkSize / 0 % 64)
  rw [Nat.div_zero] at h hle
  omega

/-! ### Chunks and slabs -/

/-- What holds of a chunk in a size class. -/
structure UsedChunk (p : PersistMemoryPool) (c : ℕ) : Prop where
  /-- Its header says so. -/
  used : (p.header c).isUsed = true
  /-- Its volatile part is set. -/
  recovered : (p.chunks c).isRecovered = true
  /-- The slabs start behind the header. -/
  data : (p.chunks c).data = c * kChunkSize + ChunkHeader.headerSize (p.header c).nrEntries
  /-- The bitmap consists of whole words. -/
  align : (p.header c).nrEntries % 64 = 0
  /-- Slabs are not empty. -/
  slab_pos : 0 < (p.header c).slabSize
  /-- All slabs are inside the chunk. -/
  fits : ChunkHeader.headerSize (p.header c).nrEntries
    + (p.header c).nrEntries * (p.header c).slabSize ≤ kChunkSize
  /-- The bitmap has a bit per slab. -/
  bits : (p.header c).bitmap.n = (p.header c).nrEntries
  /-- The count is that of the bitmap. -/
  count : (p.chunks c).allocatedEntries = (p.header c).bitmap.ones.card

/-- What holds of a chunk in the free queue: its header is as it was created. -/
structure FreeChunk (p : PersistMemoryPool) (c : ℕ) : Prop where
  /-- Its header says so. -/
  unused : (p.header c).isUsed = false
  /-- It has no slabs. -/
  entries : (p.header c).nrEntries = 0
  /-- It has no bits. -/
  bits : (p.header c).bitmap.n = 0
  /-- Its count is 0. -/
  count : (p.chunks c).allocatedEntries = 0

/-- Number `i` of chunk `c` is an allocated slab. -/
def Allocated (p : PersistMemoryPool) (c i : ℕ) : Prop :=
  c < p.nrChunks ∧ i ∈ (p.header c).bitmap.ones

theorem FreeChunk.ones {p : PersistMemoryPool} {c : ℕ} (h : p.FreeChunk c) :
    (p.header c).bitmap.ones = ∅ := by
  refine Finset.eq_empty_of_forall_notMem fun i hi => ?_
  have hlt := (BitMap.mem_ones.mp hi).1
  rw [h.bits] at hlt
  omega

namespace UsedChunk

variable {p : PersistMemoryPool} {c i : ℕ}

theorem lt_of_mem_ones (h : p.UsedChunk c) (hi : i ∈ (p.header c).bitmap.ones) :
    i < (p.header c).nrEntries := h.bits ▸ (BitMap.mem_ones.mp hi).1

/-- **A slab lies in its chunk**, behind the header and the bitmap. -/
theorem slab_in_chunk (h : p.UsedChunk c) (hi : i < (p.header c).nrEntries) :
    c * kChunkSize + ChunkHeader.headerSize (p.header c).nrEntries ≤ p.entry c i ∧
      p.entry c i + (p.header c).slabSize ≤ (c + 1) * kChunkSize := by
  have hfits := h.fits
  have hmul : (i + 1) * (p.header c).slabSize ≤ (p.header c).nrEntries * (p.header c).slabSize :=
    Nat.mul_le_mul_right _ hi
  rw [Nat.add_mul, Nat.one_mul] at hmul
  rw [entry, h.data]
  constructor
  · exact Nat.le_add_right _ _
  · rw [Nat.add_mul, Nat.one_mul]
    omega

/-- The chunk of a slab, from its address. -/
theorem entry_div (h : p.UsedChunk c) (hi : i < (p.header c).nrEntries) :
    p.entry c i / kChunkSize = c := by
  obtain ⟨hlo, hhi⟩ := h.slab_in_chunk hi
  have hpos := h.slab_pos
  refine Nat.div_eq_of_lt_le ?_ ?_
  · exact (Nat.le_add_right _ _).trans hlo
  · omega

/-- The number of a slab, from its address. -/
theorem entryId_entry (h : p.UsedChunk c) (i : ℕ) : p.entryId c (p.entry c i) = i := by
  rw [entryId, entry, Nat.add_sub_cancel_left, Nat.mul_div_cancel _ h.slab_pos]

theorem card_le (h : p.UsedChunk c) : (p.header c).bitmap.ones.card ≤ (p.header c).nrEntries :=
  h.bits ▸ BitMap.card_ones_le _

end UsedChunk

/-! ### The invariant -/

/-- The invariant of the pool. -/
structure Inv (p : PersistMemoryPool) : Prop where
  /-- No chunk is queued twice. -/
  free_nodup : p.freeChunks.Nodup
  /-- The queue holds chunks of the file. -/
  free_lt : ∀ c ∈ p.freeChunks, c < p.nrChunks
  /-- The free chunks. -/
  free : ∀ c ∈ p.freeChunks, p.FreeChunk c
  /-- The other chunks. -/
  used : ∀ c < p.nrChunks, c ∉ p.freeChunks → p.UsedChunk c
  /-- No chunk is in a class twice. -/
  class_nodup : ∀ s cs, p.sizeToChunks s = some cs → cs.Nodup
  /-- A class holds the chunks of its slab size. -/
  mem_class : ∀ s cs, p.sizeToChunks s = some cs →
    ∀ c, c ∈ cs ↔ c < p.nrChunks ∧ c ∉ p.freeChunks ∧ (p.header c).slabSize = s
  /-- Every slab size in use has a class. -/
  class_some : ∀ c < p.nrChunks, c ∉ p.freeChunks →
    (p.sizeToChunks (p.header c).slabSize).isSome = true
  /-- Only the slab sizes of the constructor have a class. -/
  class_mem : ∀ s, (p.sizeToChunks s).isSome = true → s ∈ p.allocatedSlabSizes
  /-- The last used chunk of a class is in the class. -/
  last : ∀ s c, p.sizeToLastUsedChunk s = some c →
    c < p.nrChunks ∧ c ∉ p.freeChunks ∧ (p.header c).slabSize = s

namespace Inv

variable {p : PersistMemoryPool} {c i : ℕ}

/-- An allocated slab is in a used chunk. -/
theorem usedChunk (h : p.Inv) (ha : p.Allocated c i) : p.UsedChunk c := by
  refine h.used c ha.1 fun hfree => ?_
  have hmem := ha.2
  rw [(h.free c hfree).ones] at hmem
  simp at hmem

theorem lt_nrEntries (h : p.Inv) (ha : p.Allocated c i) : i < (p.header c).nrEntries :=
  (h.usedChunk ha).lt_of_mem_ones ha.2

/-- **The cached count is that of the bitmap**, in every chunk. -/
theorem count (h : p.Inv) (hc : c < p.nrChunks) :
    (p.chunks c).allocatedEntries = (p.header c).bitmap.ones.card := by
  by_cases hfree : c ∈ p.freeChunks
  · rw [(h.free c hfree).count, (h.free c hfree).ones]
    rfl
  · exact (h.used c hc hfree).count

/-- Two slabs at one address are the same slab. -/
theorem entry_inj (h : p.Inv) {c' i' : ℕ} (ha : p.Allocated c i) (ha' : p.Allocated c' i')
    (he : p.entry c i = p.entry c' i') : c = c' ∧ i = i' := by
  have hc : c = c' := by
    rw [← (h.usedChunk ha).entry_div (h.lt_nrEntries ha), he,
      (h.usedChunk ha').entry_div (h.lt_nrEntries ha')]
  subst hc
  refine ⟨rfl, ?_⟩
  rw [← (h.usedChunk ha).entryId_entry i, he, (h.usedChunk ha).entryId_entry i']

/-- **Two slabs do not overlap.** In one chunk they are a whole number of slabs apart; in two chunks
they are separated by the chunk border. -/
theorem slabs_disjoint (h : p.Inv) {c' i' : ℕ} (ha : p.Allocated c i) (ha' : p.Allocated c' i')
    (hne : (c, i) ≠ (c', i')) :
    p.entry c i + (p.header c).slabSize ≤ p.entry c' i' ∨
      p.entry c' i' + (p.header c').slabSize ≤ p.entry c i := by
  obtain ⟨hlo, hhi⟩ := (h.usedChunk ha).slab_in_chunk (h.lt_nrEntries ha)
  obtain ⟨hlo', hhi'⟩ := (h.usedChunk ha').slab_in_chunk (h.lt_nrEntries ha')
  rcases Nat.lt_trichotomy c c' with hlt | rfl | hlt
  · left
    have hborder : (c + 1) * kChunkSize ≤ c' * kChunkSize := Nat.mul_le_mul_right _ hlt
    omega
  · have hslab : ∀ {a b : ℕ}, a < b →
        p.entry c a + (p.header c).slabSize ≤ p.entry c b := fun {a b} hab => by
      have hmul : (a + 1) * (p.header c).slabSize ≤ b * (p.header c).slabSize :=
        Nat.mul_le_mul_right _ hab
      rw [Nat.add_mul, Nat.one_mul] at hmul
      rw [entry, entry]
      omega
    rcases Nat.lt_or_gt_of_ne fun heq : i = i' => hne (by rw [heq]) with hlt | hlt
    exacts [Or.inl (hslab hlt), Or.inr (hslab hlt)]
  · right
    have hborder : (c' + 1) * kChunkSize ≤ c * kChunkSize := Nat.mul_le_mul_right _ hlt
    omega

/-- A store into the slab of another block. -/
theorem store_apply (h : p.Inv) {c' i' : ℕ} (ha : p.Allocated c i) (ha' : p.Allocated c' i')
    (hne : (c, i) ≠ (c', i')) {x : ℕ} (hlo : p.entry c i ≤ x)
    (hhi : x < p.entry c i + (p.header c).slabSize) (m : Bytes.Mem) {a : ℕ} {bs : List UInt8}
    (hin : p.entry c' i' ≤ a) (hin' : a + bs.length ≤ p.entry c' i' + (p.header c').slabSize) :
    Bytes.store m a bs x = m x := by
  refine Bytes.store_apply_of_notMem ?_
  rcases h.slabs_disjoint ha ha' hne with hd | hd
  · exact Or.inl (by omega)
  · exact Or.inr (by omega)

end Inv

/-! ### Changing one chunk -/

theorem UsedChunk.congr {p p' : PersistMemoryPool} {c : ℕ} (h : p.UsedChunk c)
    (hh : p'.header c = p.header c) (hk : p'.chunks c = p.chunks c) : p'.UsedChunk c where
  used := by rw [hh]; exact h.used
  recovered := by rw [hk]; exact h.recovered
  data := by rw [hh, hk]; exact h.data
  align := by rw [hh]; exact h.align
  slab_pos := by rw [hh]; exact h.slab_pos
  fits := by rw [hh]; exact h.fits
  bits := by rw [hh]; exact h.bits
  count := by rw [hh, hk]; exact h.count

theorem FreeChunk.congr {p p' : PersistMemoryPool} {c : ℕ} (h : p.FreeChunk c)
    (hh : p'.header c = p.header c) (hk : p'.chunks c = p.chunks c) : p'.FreeChunk c where
  unused := by rw [hh]; exact h.unused
  entries := by rw [hh]; exact h.entries
  bits := by rw [hh]; exact h.bits
  count := by rw [hk]; exact h.count

/-- The invariant does not speak of the bytes and of the number of blocks. -/
theorem Inv.congr {p p' : PersistMemoryPool} (h : p.Inv) (hN : p'.nrChunks = p.nrChunks)
    (hfree : p'.freeChunks = p.freeChunks) (hclass : p'.sizeToChunks = p.sizeToChunks)
    (hlast : p'.sizeToLastUsedChunk = p.sizeToLastUsedChunk) (hh : p'.header = p.header)
    (hk : p'.chunks = p.chunks) (hslabs : p'.allocatedSlabSizes = p.allocatedSlabSizes) :
    p'.Inv where
  free_nodup := hfree ▸ h.free_nodup
  free_lt c hc := hN ▸ h.free_lt c (hfree ▸ hc)
  free c hc := (h.free c (hfree ▸ hc)).congr (by rw [hh]) (by rw [hk])
  used c hc hn := (h.used c (hN ▸ hc) (hfree ▸ hn)).congr (by rw [hh]) (by rw [hk])
  class_nodup s cs hs := h.class_nodup s cs (hclass ▸ hs)
  mem_class s cs hs c := by rw [hN, hfree, hh]; exact h.mem_class s cs (hclass ▸ hs) c
  class_some c hc hn := by rw [hclass, hh]; exact h.class_some c (hN ▸ hc) (hfree ▸ hn)
  class_mem s hs := hslabs ▸ h.class_mem s (hclass ▸ hs)
  last s c hs := by rw [hN, hfree, hh]; exact h.last s c (hlast ▸ hs)

section SetBitmap

variable (p : PersistMemoryPool) (c : ℕ) (m : BitMap) (d : ℤ)

theorem setBitmap_header_self :
    (p.setBitmap c m d).header c = { p.header c with bitmap := m } := by
  simp [setBitmap, setHeader, setChunk, header]

theorem setBitmap_header_of_ne {c' : ℕ} (h : c' ≠ c) :
    (p.setBitmap c m d).header c' = p.header c' := by
  simp [setBitmap, setHeader, setChunk, header, h]

theorem setBitmap_chunks_self : (p.setBitmap c m d).chunks c
    = { p.chunks c with allocatedEntries := (p.chunks c).allocatedEntries + d } := by
  simp [setBitmap, setHeader, setChunk]

theorem setBitmap_chunks_of_ne {c' : ℕ} (h : c' ≠ c) :
    (p.setBitmap c m d).chunks c' = p.chunks c' := by
  simp [setBitmap, setHeader, setChunk, h]

theorem setBitmap_slabSize (c' : ℕ) :
    ((p.setBitmap c m d).header c').slabSize = (p.header c').slabSize := by
  by_cases h : c' = c
  · rw [h, setBitmap_header_self]
  · rw [setBitmap_header_of_ne p c m d h]

theorem setBitmap_entry (c' i : ℕ) : (p.setBitmap c m d).entry c' i = p.entry c' i := by
  rw [entry, entry, setBitmap_slabSize]
  by_cases h : c' = c
  · rw [h, setBitmap_chunks_self]
  · rw [setBitmap_chunks_of_ne p c m d h]

end SetBitmap

/-- **One bitmap changes**, and the count with it. -/
theorem Inv.setBitmap {p : PersistMemoryPool} (h : p.Inv) {c : ℕ} (hfree : c ∉ p.freeChunks)
    {m : BitMap} {d : ℤ} (hn : m.n = (p.header c).bitmap.n)
    (hcount : (p.chunks c).allocatedEntries + d = m.ones.card) : (p.setBitmap c m d).Inv where
  free_nodup := h.free_nodup
  free_lt := h.free_lt
  free c' hc' := by
    have hne : c' ≠ c := fun heq => hfree (heq ▸ hc')
    exact (h.free c' hc').congr (setBitmap_header_of_ne p c m d hne)
      (setBitmap_chunks_of_ne p c m d hne)
  used c' hc' hn' := by
    have hu := h.used c' hc' hn'
    by_cases hne : c' = c
    · subst hne
      refine ⟨?_, ?_, ?_, ?_, ?_, ?_, ?_, ?_⟩ <;>
        simp only [setBitmap_header_self, setBitmap_chunks_self]
      exacts [hu.used, hu.recovered, hu.data, hu.align, hu.slab_pos, hu.fits, hn.trans hu.bits,
        hcount]
    · exact hu.congr (setBitmap_header_of_ne p c m d hne) (setBitmap_chunks_of_ne p c m d hne)
  class_nodup := h.class_nodup
  mem_class s cs hs c' := by
    rw [setBitmap_slabSize]
    exact h.mem_class s cs hs c'
  class_some c' hc' hn' := by
    rw [setBitmap_slabSize]
    exact h.class_some c' hc' hn'
  class_mem := h.class_mem
  last s c' hs := by
    rw [setBitmap_slabSize]
    exact h.last s c' hs

/-! ### Allocated slabs before and after -/

/-- `p'` has the parameters of `p`. -/
structure SameLayout (p p' : PersistMemoryPool) : Prop where
  /-- The mode is the same. -/
  perfectFit : p'.perfectFit = p.perfectFit
  /-- So are the slab sizes. -/
  slabSizes : p'.allocatedSlabSizes = p.allocatedSlabSizes
  /-- So is the number of chunks. -/
  nrChunks : p'.nrChunks = p.nrChunks

theorem SameLayout.trans {p p' p'' : PersistMemoryPool} (h : SameLayout p p')
    (h' : SameLayout p' p'') : SameLayout p p'' :=
  ⟨h'.perfectFit.trans h.perfectFit, h'.slabSizes.trans h.slabSizes, h'.nrChunks.trans h.nrChunks⟩

/-- `p'` is a later state of the pool `p` in which the slabs of `p` are where they were. -/
structure Extends (p p' : PersistMemoryPool) : Prop extends SameLayout p p' where
  /-- Allocated slabs do not move. -/
  entry : ∀ c i, p.Allocated c i → p'.entry c i = p.entry c i
  /-- They keep their size. -/
  slab : ∀ c i, p.Allocated c i → (p'.header c).slabSize = (p.header c).slabSize

/-- `p'` has one more allocated slab. -/
structure Added (p p' : PersistMemoryPool) (c i : ℕ) : Prop extends Extends p p' where
  /-- The slab was not allocated. -/
  fresh : ¬ p.Allocated c i
  /-- It is now, with all that were. -/
  allocated : ∀ c' i', p'.Allocated c' i' ↔ p.Allocated c' i' ∨ c' = c ∧ i' = i

/-- `p'` has one allocated slab less. -/
structure Removed (p p' : PersistMemoryPool) (c i : ℕ) : Prop extends Extends p p' where
  /-- The slab is no longer allocated, and all others are. -/
  allocated : ∀ c' i', p'.Allocated c' i' ↔ p.Allocated c' i' ∧ ¬ (c' = c ∧ i' = i)

theorem extends_setBitmap (p : PersistMemoryPool) (c : ℕ) (m : BitMap) (d : ℤ) :
    Extends p (p.setBitmap c m d) :=
  ⟨⟨rfl, rfl, rfl⟩, fun c' i _ => setBitmap_entry p c m d c' i,
    fun c' _ _ => setBitmap_slabSize p c m d c'⟩

theorem UsedChunk.recovery_eq {p : PersistMemoryPool} {c : ℕ} (h : p.UsedChunk c) :
    p.recovery c = p := by
  rw [recovery, if_pos h.recovered]

/-- **`Chunk::Malloc`** on a chunk that is not full. -/
theorem Inv.chunkMalloc {p : PersistMemoryPool} (h : p.Inv) {c : ℕ} (hc : c < p.nrChunks)
    (hfree : c ∉ p.freeChunks) (hroom : p.full c = false) :
    ∃ p' i, p.chunkMalloc c = some (p', p'.entry c i) ∧ p'.Inv ∧ Added p p' c i ∧
      p'.totalMalloc = p.totalMalloc ∧ p'.file.bytes = p.file.bytes ∧
      (p'.header c).slabSize = (p.header c).slabSize := by
  have hu := h.used c hc hfree
  have hcard : (p.header c).bitmap.ones.card ≠ (p.header c).bitmap.n := by
    intro heq
    rw [full, hu.count, heq, hu.bits] at hroom
    simp at hroom
  obtain ⟨i, hset, hlt, hnew⟩ := BitMap.setZeroPos_of_card_ne (hu.bits ▸ hu.align) hcard
  have hones := BitMap.ones_set hlt
  refine ⟨p.setBitmap c ((p.header c).bitmap.set i) 1, i, ?_, ?_, ?_, rfl, rfl,
    setBitmap_slabSize _ _ _ _ c⟩
  · rw [PersistMemoryPool.chunkMalloc, hu.recovery_eq]
    simp only [hset, setBitmap_entry]
  · refine h.setBitmap hfree rfl ?_
    rw [hu.count, hones, Finset.card_insert_of_notMem hnew]
    rfl
  · refine ⟨extends_setBitmap p c _ 1, fun ha => hnew ha.2, fun c' i' => ?_⟩
    by_cases hne : c' = c
    · subst hne
      rw [Allocated, setBitmap_header_self, hones, Finset.mem_insert, Allocated]
      have hN : (p.setBitmap c' ((p.header c').bitmap.set i) 1).nrChunks = p.nrChunks := rfl
      rw [hN]
      tauto
    · rw [Allocated, setBitmap_header_of_ne _ _ _ _ hne, Allocated]
      have hN : (p.setBitmap c ((p.header c).bitmap.set i) 1).nrChunks = p.nrChunks := rfl
      rw [hN]
      tauto

/-- **`Chunk::Free`** of an allocated slab. -/
theorem Inv.chunkFree {p : PersistMemoryPool} (h : p.Inv) {c i : ℕ} (ha : p.Allocated c i) :
    (p.chunkFree c (p.entry c i)).Inv ∧ Removed p (p.chunkFree c (p.entry c i)) c i ∧
      (p.chunkFree c (p.entry c i)).totalMalloc = p.totalMalloc ∧
      (p.chunkFree c (p.entry c i)).file.bytes = p.file.bytes := by
  have hu := h.usedChunk ha
  have hfree : c ∉ p.freeChunks := fun hf => by
    have hused := hu.used
    rw [(h.free c hf).unused] at hused
    simp at hused
  have heq : p.chunkFree c (p.entry c i) = p.setBitmap c ((p.header c).bitmap.clear i) (-1) := by
    rw [PersistMemoryPool.chunkFree, hu.recovery_eq]
    simp only [hu.entryId_entry]
  have hones := BitMap.ones_clear (p.header c).bitmap i
  rw [heq]
  refine ⟨h.setBitmap hfree rfl ?_, ⟨extends_setBitmap p c _ _, fun c' i' => ?_⟩, rfl, rfl⟩
  · rw [hu.count, hones, Finset.card_erase_of_mem ha.2]
    have hpos : 0 < (p.header c).bitmap.ones.card := Finset.card_pos.mpr ⟨i, ha.2⟩
    omega
  · have hN : (p.setBitmap c ((p.header c).bitmap.clear i) (-1)).nrChunks = p.nrChunks := rfl
    by_cases hne : c' = c
    · subst hne
      rw [Allocated, setBitmap_header_self, hones, Finset.mem_erase, Allocated, hN]
      tauto
    · rw [Allocated, setBitmap_header_of_ne _ _ _ _ hne, Allocated, hN]
      tauto

end PersistMemoryPool

end PetPS

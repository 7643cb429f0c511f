import Mathlib.Algebra.Order.BigOperators.Group.Finset
import PetPS.Memory.PoolExhaust

/-!
# How many blocks of one class fit

A pool that has only ever been asked for blocks of one class gives every chunk to that class. `Use`
makes the same number of slabs in each of them, so the pool is exhausted when it holds that
number for every chunk of the file, and not before.

## Main results

* `Uniform.new` — the pool stays with its class
* `Inv.exhausted_iff` — when such a pool is exhausted
* `Inv.new_uniform` — `New` succeeds up to that number of blocks, and then runs out of memory
* `NewBlock.aligned` — blocks start at multiples of 8 if the slab sizes are multiples of 8
-/

namespace PetPS

namespace PersistMemoryPool

/-- Every chunk in use is of the class `slabSize`, with the slabs that `Use` makes. -/
def Uniform (p : PersistMemoryPool) (slabSize : ℕ) : Prop :=
  ∀ c < p.nrChunks, c ∉ p.freeChunks →
    (p.header c).slabSize = slabSize ∧ (p.header c).nrEntries = useEntries slabSize

/-! ### It stays so -/

theorem uniform_create {perfectFit : Bool} {memorySize : ℕ} {slabSizes : List ℕ}
    {p : PersistMemoryPool} (h : create perfectFit memorySize slabSizes = .ok p) (slabSize : ℕ) :
    p.Uniform slabSize := by
  rw [create_eq h]
  exact fun c hc hfree => absurd (List.mem_range.mpr hc) hfree

theorem Uniform.finish {p p' : PersistMemoryPool} {slabSize c ptr : ℕ} (h : p.Uniform slabSize)
    (hrun : finish (p.chunkMalloc c) = .ok (p', ptr)) : p'.Uniform slabSize := by
  obtain ⟨m, rfl⟩ := finish_chunkMalloc hrun
  have hrec : (p.recovery c).Uniform slabSize := by
    rw [recovery]
    split_ifs
    exacts [h, h]
  intro c' hc' hfree'
  obtain ⟨hslab, hentries⟩ := hrec c' hc' hfree'
  by_cases hne : c' = c
  · subst hne
    change (((p.recovery c').setBitmap c' m 1).header c').slabSize = slabSize ∧
      (((p.recovery c').setBitmap c' m 1).header c').nrEntries = useEntries slabSize
    rw [setBitmap_header_self]
    exact ⟨hslab, hentries⟩
  · change (((p.recovery c).setBitmap c m 1).header c').slabSize = slabSize ∧
      (((p.recovery c).setBitmap c m 1).header c').nrEntries = useEntries slabSize
    rw [setBitmap_header_of_ne _ _ _ _ hne]
    exact ⟨hslab, hentries⟩

theorem Uniform.takeChunk {p : PersistMemoryPool} {slabSize front : ℕ} {rest : List ℕ}
    (h : p.Uniform slabSize) (hq : p.freeChunks = front :: rest) (chunks : List ℕ) :
    (p.takeChunk slabSize front rest chunks).Uniform slabSize := by
  intro c hc hfree
  by_cases hne : c = front
  · rw [hne, takeChunk_header_self]
    exact ⟨rfl, rfl⟩
  · rw [takeChunk_header_of_ne hne]
    refine h c hc fun hmem => ?_
    rw [hq, List.mem_cons] at hmem
    exact hfree (hmem.resolve_left hne)

/-- **The pool stays with its class.** -/
theorem Uniform.new {p p' : PersistMemoryPool} {memorySize slabSize ptr : ℕ}
    (h : p.Uniform slabSize) (hclass : p.classOf memorySize = some slabSize)
    (hrun : p.new memorySize = .ok (p', ptr)) : p'.Uniform slabSize := by
  obtain ⟨slabSize', p₁, ptr₁, bytes, heq, hint, rfl⟩ := exists_newInternal_of_new hrun
  obtain rfl := heq slabSize hclass
  show p₁.Uniform slabSize
  rcases newInternal_cases hint with
    ⟨c, -, -, hfinish⟩ | ⟨front, rest, chunks, hq, -, -, hfinish⟩
  · exact h.finish hfinish
  · exact (h.takeChunk hq chunks).finish hfinish

/-! ### When it is exhausted -/

section Count

variable {p : PersistMemoryPool} {slabSize : ℕ}

theorem Uniform.card_ones_le (hu : p.Uniform slabSize) (h : p.Inv) {c : ℕ} (hc : c < p.nrChunks) :
    (p.header c).bitmap.ones.card ≤ useEntries slabSize := by
  by_cases hfree : c ∈ p.freeChunks
  · rw [(h.free c hfree).ones]
    exact Nat.zero_le _
  · rw [← (hu c hc hfree).2]
    exact (h.used c hc hfree).card_le

/-- The blocks, counted chunk by chunk. -/
theorem Live.length_eq_sum_ones {live : List ℕ} (hlive : p.Live live) (h : p.Inv) :
    live.length = ∑ c ∈ Finset.range p.nrChunks, (p.header c).bitmap.ones.card := by
  rw [hlive.length_eq h]
  exact Finset.sum_congr rfl fun c hc => h.usedBits (Finset.mem_range.mp hc)

theorem Uniform.length_le (hu : p.Uniform slabSize) (h : p.Inv) {live : List ℕ}
    (hlive : p.Live live) : live.length ≤ p.nrChunks * useEntries slabSize := by
  rw [hlive.length_eq_sum_ones h]
  calc ∑ c ∈ Finset.range p.nrChunks, (p.header c).bitmap.ones.card
      ≤ ∑ _c ∈ Finset.range p.nrChunks, useEntries slabSize :=
        Finset.sum_le_sum fun c hc => hu.card_ones_le h (Finset.mem_range.mp hc)
    _ = p.nrChunks * useEntries slabSize := by simp

/-- The number of blocks is reached when every chunk has all its slabs allocated. -/
theorem Uniform.length_eq_iff (hu : p.Uniform slabSize) (h : p.Inv) {live : List ℕ}
    (hlive : p.Live live) : live.length = p.nrChunks * useEntries slabSize ↔
      ∀ c < p.nrChunks, (p.header c).bitmap.ones.card = useEntries slabSize := by
  have hconst : p.nrChunks * useEntries slabSize =
      ∑ _c ∈ Finset.range p.nrChunks, useEntries slabSize := by simp
  rw [hlive.length_eq_sum_ones h, hconst, Finset.sum_eq_sum_iff_of_le fun c hc =>
    hu.card_ones_le h (Finset.mem_range.mp hc)]
  simp only [Finset.mem_range]

/-- **A pool of one class is exhausted** when every chunk of the file has all its slabs
allocated. -/
theorem Inv.exhausted_iff (h : p.Inv) (hclasses : p.HasClasses) (hu : p.Uniform slabSize)
    (hmem : slabSize ∈ p.allocatedSlabSizes) (hpos : 0 < useEntries slabSize) {live : List ℕ}
    (hlive : p.Live live) :
    p.Exhausted slabSize ↔ live.length = p.nrChunks * useEntries slabSize := by
  obtain ⟨chunks, hchunks⟩ := Option.isSome_iff_exists.mp (hclasses slabSize hmem)
  rw [hu.length_eq_iff h hlive]
  constructor
  · intro hex c hc
    have hfree : c ∉ p.freeChunks := by
      rw [hex.1]
      exact List.not_mem_nil
    obtain ⟨hslab, hentries⟩ := hu c hc hfree
    have hfull := h.full_of_exhausted hex hchunks
      ((h.mem_class slabSize chunks hchunks c).mpr ⟨hc, hfree, hslab⟩)
    rw [full, beq_iff_eq, h.count hc, Nat.cast_inj] at hfull
    rw [hfull, hentries]
  · intro hall
    have hfree : ∀ c < p.nrChunks, c ∉ p.freeChunks := fun c hc hfree => by
      have hcard := hall c hc
      rw [(h.free c hfree).ones, Finset.card_empty] at hcard
      omega
    refine ⟨List.eq_nil_iff_forall_not_mem.mpr fun c hc => hfree c (h.free_lt c hc) hc,
      fun chunks' hchunks' c hc => ?_⟩
    obtain ⟨hlt, hfree, -⟩ := (h.mem_class slabSize chunks' hchunks' c).mp hc
    refine ((h.used c hlt hfree).full_iff hlt).mp ?_
    rw [full, beq_iff_eq, h.count hlt, hall c hlt, (hu c hlt hfree).2]

/-- **`New` in a pool of one class** succeeds until all slabs of all chunks are allocated, and then
runs out of memory. -/
theorem Inv.new_uniform (h : p.Inv) (hclasses : p.HasClasses) (hu : p.Uniform slabSize)
    {memorySize : ℕ} (hclass : p.classOf memorySize = some slabSize) (hpos : 0 < slabSize)
    (hle : slabSize ≤ 32767) {live : List ℕ} (hlive : p.Live live) :
    (live.length < p.nrChunks * useEntries slabSize → ∃ p' ptr, p.new memorySize = .ok (p', ptr)) ∧
      (live.length = p.nrChunks * useEntries slabSize → p.new memorySize = .error .poolOOM) := by
  have hex := h.exhausted_iff hclasses hu (classOf_mem hclass) (useEntries_pos_iff.mpr ⟨hpos, hle⟩)
    hlive
  obtain ⟨hreturns, hfails, -⟩ := h.new_iff hclasses hclass
  constructor
  · intro hlt
    exact hreturns.mpr ⟨⟨hpos, hle⟩, fun hfull => hlt.ne (hex.mp hfull)⟩
  · exact fun heq => hfails (hex.mpr heq)

end Count

/-! ### Alignment -/

/-- **Blocks are aligned** if the slab sizes are: the header and its bitmap are whole words. -/
theorem NewBlock.aligned {p p' : PersistMemoryPool} {memorySize ptr c i : ℕ}
    (h : NewBlock p p' memorySize ptr c i) (hslabs : ∀ s ∈ p.allocatedSlabSizes, s % 8 = 0) :
    ptr % 8 = 0 := by
  have ha : p'.Allocated c i := (h.added.allocated c i).mpr (Or.inr ⟨rfl, rfl⟩)
  have hu := h.inv.usedChunk ha
  have hfree : c ∉ p'.freeChunks := fun hfree => by
    have hmem := ha.2
    rw [(h.inv.free c hfree).ones] at hmem
    exact absurd hmem (Finset.notMem_empty i)
  have hslab := hslabs _ (h.added.slabSizes ▸ h.inv.class_mem _ (h.inv.class_some c ha.1 hfree))
  have halign := hu.align
  have hmul : i * (p'.header c).slabSize % 8 = 0 := by
    rw [Nat.mul_mod, hslab, Nat.mul_zero, Nat.zero_mod]
  have hmeta : p'.metaSize % 8 = 0 := by
    rw [metaSize]
    split_ifs <;> rfl
  rw [h.ptr, entry, hu.data]
  simp only [kChunkSize, ChunkHeader.headerSize, BitMap.memorySize]
  omega

end PersistMemoryPool

end PetPS

import PetPS.Memory.PoolReopen

/-!
# When `New` fails

`NewInternal` trusts the cached count of a chunk to say whether the chunk is full, and the bitmap to
find a place in it. Since the two agree in every state, a chunk that is not full yields a slab, and
`New` fails only where there is no free chunk and every chunk of the class is full.

There is one exception. `Use` makes the number of slabs of a chunk a multiple of 64 and checks
that it is not `0`, so a class of slabs of more than 32767 bytes never gets a chunk, although the
constructor takes any slab sizes.

## Main results

* `useEntries_pos_iff` — the slab sizes that `Use` accepts
* `Inv.new_iff` — when `NewInternal` returns
* `pool_new_iff` — when `New` returns, in every state of a pool that is used, closed and opened
-/

namespace PetPS

namespace PersistMemoryPool

/-! ### The slab sizes that `Use` accepts -/

theorem slabSize_le_of_fits {slabSize nrEntries : ℕ} (hmod : nrEntries % 64 = 0)
    (hpos : 0 < nrEntries)
    (hfits : ChunkHeader.headerSize nrEntries + nrEntries * slabSize ≤ kChunkSize) :
    slabSize ≤ 32767 := by
  have hmul : 64 * slabSize ≤ nrEntries * slabSize := Nat.mul_le_mul_right _ (by omega)
  simp only [ChunkHeader.headerSize, BitMap.memorySize, kChunkSize] at hfits
  omega

/-- **The slab sizes that `Use` accepts.** -/
theorem useEntries_pos_iff {slabSize : ℕ} :
    0 < useEntries slabSize ↔ 0 < slabSize ∧ slabSize ≤ 32767 := by
  constructor
  · intro hpos
    obtain ⟨hmod, hfits⟩ := useEntries_spec slabSize
    exact ⟨slabSize_pos_of_useEntries hpos, slabSize_le_of_fits hmod hpos hfits⟩
  · rintro ⟨hpos, hle⟩
    have hfits : ChunkHeader.headerSize 64 + 64 * slabSize ≤ kChunkSize := by
      simp only [ChunkHeader.headerSize, BitMap.memorySize, kChunkSize]
      omega
    have hge := le_useEntries hpos (by decide) hfits
    omega

/-! ### Full chunks -/

/-- `Full` says that every slab is allocated. -/
theorem UsedChunk.full_iff {p : PersistMemoryPool} {c : ℕ} (h : p.UsedChunk c)
    (hc : c < p.nrChunks) :
    p.full c = true ↔ ∀ i < (p.header c).nrEntries, p.Allocated c i := by
  have hsub : (p.header c).bitmap.ones ⊆ Finset.range (p.header c).nrEntries := fun i hi =>
    Finset.mem_range.mpr (h.lt_of_mem_ones hi)
  rw [full, beq_iff_eq, h.count, Nat.cast_inj]
  constructor
  · intro hcard i hi
    have heq := Finset.eq_of_subset_of_card_le hsub (by rw [Finset.card_range, hcard])
    exact ⟨hc, heq ▸ Finset.mem_range.mpr hi⟩
  · intro hall
    rw [Finset.Subset.antisymm hsub fun i hi => (hall i (Finset.mem_range.mp hi)).2,
      Finset.card_range]

/-- There is no free chunk, and the slabs of the class are all allocated. -/
def Exhausted (p : PersistMemoryPool) (slabSize : ℕ) : Prop :=
  p.freeChunks = [] ∧ ∀ chunks, p.sizeToChunks slabSize = some chunks →
    ∀ c ∈ chunks, ∀ i < (p.header c).nrEntries, p.Allocated c i

theorem Inv.full_of_exhausted {p : PersistMemoryPool} (h : p.Inv) {slabSize c : ℕ} {chunks : List ℕ}
    (hex : p.Exhausted slabSize) (hclass : p.sizeToChunks slabSize = some chunks)
    (hc : c ∈ chunks) :
    p.full c = true := by
  obtain ⟨hlt, hfree, -⟩ := (h.mem_class slabSize chunks hclass c).mp hc
  exact ((h.used c hlt hfree).full_iff hlt).mpr (hex.2 chunks hclass c hc)

/-! ### `NewInternal` -/

/-- `Malloc` on a chunk with room returns. -/
theorem Inv.exists_finish {p : PersistMemoryPool} (h : p.Inv) {c : ℕ} (hc : c < p.nrChunks)
    (hfree : c ∉ p.freeChunks) (hroom : p.full c = false) :
    ∃ p' ptr, PersistMemoryPool.finish (p.chunkMalloc c) = .ok (p', ptr) := by
  obtain ⟨p', i, hmalloc, -⟩ := h.chunkMalloc hc hfree hroom
  rw [hmalloc]
  exact ⟨_, _, rfl⟩

/-- **`NewInternal` returns** if the class can have chunks and is not exhausted. -/
theorem Inv.exists_newInternal {p : PersistMemoryPool} (h : p.Inv) {slabSize : ℕ} {chunks : List ℕ}
    (hclass : p.sizeToChunks slabSize = some chunks) (hpos : 0 < useEntries slabSize)
    (hex : ¬ p.Exhausted slabSize) : ∃ p' ptr, p.newInternal slabSize = .ok (p', ptr) := by
  rw [PersistMemoryPool.newInternal]
  cases hlast : p.lastUsedRoom slabSize with
  | some c =>
    obtain ⟨hsome, hroom⟩ := Option.filter_eq_some_iff.mp hlast
    obtain ⟨hlt, hfree, -⟩ := h.last slabSize c hsome
    exact h.exists_finish hlt hfree (by simpa using hroom)
  | none =>
    cases hq : p.freeChunks with
    | cons front rest =>
      have hnodup := h.free_nodup
      rw [hq, List.nodup_cons] at hnodup
      simp only [newFromFree_eq, if_pos hpos, hclass]
      exact (h.takeChunk hq hclass hpos).exists_finish (h.free_lt front (hq ▸ List.mem_cons_self))
        hnodup.1 (takeChunk_not_full hpos)
    | nil =>
      simp only [newFromClass, hclass]
      cases hfind : chunks.find? fun c => !p.full c with
      | some c =>
        obtain ⟨hlt, hfree, -⟩ :=
          (h.mem_class slabSize chunks hclass c).mp (List.mem_of_find?_eq_some hfind)
        exact h.exists_finish hlt hfree (by simpa using List.find?_some hfind)
      | none =>
        -- every chunk of the class is full
        refine absurd ⟨hq, fun chunks' hclass' c hc => ?_⟩ hex
        obtain rfl := Option.some.inj (hclass.symm.trans hclass')
        obtain ⟨hlt, hfree, -⟩ := (h.mem_class slabSize chunks hclass c).mp hc
        have hfull := List.find?_eq_none.mp hfind c hc
        exact ((h.used c hlt hfree).full_iff hlt).mp (by simpa using hfull)

/-- The last used chunk of an exhausted class is full too. -/
theorem Inv.lastUsedRoom_of_full {p : PersistMemoryPool} (h : p.Inv) {slabSize : ℕ}
    (hfull : ∀ c < p.nrChunks, c ∉ p.freeChunks → (p.header c).slabSize = slabSize →
      p.full c = true) :
    p.lastUsedRoom slabSize = none := by
  cases hlast : p.lastUsedRoom slabSize with
  | none => rfl
  | some c =>
    obtain ⟨hsome, hroom⟩ := Option.filter_eq_some_iff.mp hlast
    obtain ⟨hlt, hfree, hslab⟩ := h.last slabSize c hsome
    rw [hfull c hlt hfree hslab] at hroom
    cases hroom

/-- **`NewInternal` runs out of memory** if the class is exhausted. -/
theorem Inv.newInternal_of_exhausted {p : PersistMemoryPool} (h : p.Inv) {slabSize : ℕ}
    {chunks : List ℕ} (hclass : p.sizeToChunks slabSize = some chunks)
    (hex : p.Exhausted slabSize) :
    p.newInternal slabSize = .error .poolOOM := by
  have hfull : ∀ c ∈ chunks, p.full c = true := fun c hc => h.full_of_exhausted hex hclass hc
  have hlast : p.lastUsedRoom slabSize = none := h.lastUsedRoom_of_full fun c hlt hfree hslab =>
    hfull c ((h.mem_class slabSize chunks hclass c).mpr ⟨hlt, hfree, hslab⟩)
  have hfind : chunks.find? (fun c => !p.full c) = none :=
    List.find?_eq_none.mpr fun c hc => by simp [hfull c hc]
  rw [PersistMemoryPool.newInternal, hlast]
  simp only [hex.1, newFromClass, hclass, hfind]

/-- A chunk of a class for which `Use` makes no slabs is full. -/
theorem Inv.full_of_useEntries {p : PersistMemoryPool} (h : p.Inv) {slabSize c : ℕ}
    (hzero : ¬ 0 < useEntries slabSize) (hc : c < p.nrChunks) (hfree : c ∉ p.freeChunks)
    (hslab : (p.header c).slabSize = slabSize) : p.full c = true := by
  have hu := h.used c hc hfree
  refine (hu.full_iff hc).mpr fun i hi => absurd (useEntries_pos_iff.mpr ⟨?_, ?_⟩) hzero
  · exact hslab ▸ hu.slab_pos
  · rw [← hslab]
    exact slabSize_le_of_fits hu.align (by omega) hu.fits

/-- **Its check fails in `Use`** for a class that can have no chunk, if there is a free chunk. -/
theorem Inv.newInternal_of_useEntries {p : PersistMemoryPool} (h : p.Inv) {slabSize : ℕ}
    (hzero : ¬ 0 < useEntries slabSize) (hex : ¬ p.Exhausted slabSize) :
    p.newInternal slabSize = .error .check := by
  have hlast : p.lastUsedRoom slabSize = none := h.lastUsedRoom_of_full fun _ hc hfree hslab =>
    h.full_of_useEntries hzero hc hfree hslab
  rw [PersistMemoryPool.newInternal, hlast]
  cases hq : p.freeChunks with
  | cons front rest => simp only [newFromFree_eq, if_neg hzero]
  | nil =>
    refine absurd ⟨hq, fun chunks hclass c hc => ?_⟩ hex
    obtain ⟨hlt, hfree, hslab⟩ := (h.mem_class slabSize chunks hclass c).mp hc
    exact ((h.used c hlt hfree).full_iff hlt).mp (h.full_of_useEntries hzero hlt hfree hslab)

/-! ### `New` -/

/-- The class from which `New` takes the block, if it admits the size. -/
def classOf (p : PersistMemoryPool) (memorySize : ℕ) : Option ℕ :=
  if p.perfectFit then if memorySize ∈ p.allocatedSlabSizes then some memorySize else none
  else p.lowerBound (kMetaDataSize + memorySize)

/-- **The class is the smallest that fits**, in best-fit mode. -/
theorem lowerBound_le {p : PersistMemoryPool} {size slabSize s : ℕ}
    (h : p.lowerBound size = some slabSize) (hs : s ∈ p.allocatedSlabSizes) (hle : size ≤ s) :
    slabSize ≤ s :=
  (List.min?_eq_some_iff.mp h).2 s (List.mem_filter.mpr ⟨hs, decide_eq_true hle⟩)

theorem classOf_mem {p : PersistMemoryPool} {memorySize slabSize : ℕ}
    (h : p.classOf memorySize = some slabSize) : slabSize ∈ p.allocatedSlabSizes := by
  rw [classOf] at h
  split_ifs at h with hmode hmem
  · exact Option.some.inj h ▸ hmem
  · exact (lowerBound_spec h).1

/-- `New` is `NewInternal` on the class, and then the length is written. -/
theorem new_of_classOf {p : PersistMemoryPool} {memorySize slabSize : ℕ}
    (h : p.classOf memorySize = some slabSize) :
    ((∃ p' ptr, p.new memorySize = .ok (p', ptr)) ↔
      ∃ p' ptr, p.newInternal slabSize = .ok (p', ptr)) ∧
      ∀ e, p.newInternal slabSize = .error e → p.new memorySize = .error e := by
  rw [classOf] at h
  rw [PersistMemoryPool.new]
  by_cases hmode : p.perfectFit = true
  · rw [if_pos hmode] at h ⊢
    split_ifs at h
    obtain rfl := Option.some.inj h
    exact ⟨Iff.rfl, fun _ he => he⟩
  · rw [if_neg hmode] at h ⊢
    simp only [h]
    cases hnew : p.newInternal slabSize with
    | error e => simp
    | ok r => exact ⟨iff_of_true ⟨_, _, rfl⟩ ⟨r.1, r.2, rfl⟩, fun e he => by cases he⟩

/-- Every slab size of the constructor has a class. -/
def HasClasses (p : PersistMemoryPool) : Prop :=
  ∀ s ∈ p.allocatedSlabSizes, (p.sizeToChunks s).isSome = true

/-- **When `New` returns**, and how it fails. -/
theorem Inv.new_iff {p : PersistMemoryPool} (h : p.Inv) (hclasses : p.HasClasses)
    {memorySize slabSize : ℕ} (hclass : p.classOf memorySize = some slabSize) :
    ((∃ p' ptr, p.new memorySize = .ok (p', ptr)) ↔
        (0 < slabSize ∧ slabSize ≤ 32767) ∧ ¬ p.Exhausted slabSize) ∧
      (p.Exhausted slabSize → p.new memorySize = .error .poolOOM) ∧
      (¬ (0 < slabSize ∧ slabSize ≤ 32767) → ¬ p.Exhausted slabSize →
        p.new memorySize = .error .check) := by
  obtain ⟨chunks, hchunks⟩ := Option.isSome_iff_exists.mp (hclasses slabSize (classOf_mem hclass))
  obtain ⟨hiff, herror⟩ := new_of_classOf hclass
  refine ⟨?_, fun hex => herror _ (h.newInternal_of_exhausted hchunks hex), fun hlarge hex =>
    herror _ (h.newInternal_of_useEntries (useEntries_pos_iff.not.mpr hlarge) hex)⟩
  rw [hiff, ← useEntries_pos_iff]
  constructor
  · rintro ⟨p', ptr, hnew⟩
    have hex : ¬ p.Exhausted slabSize := fun hex => by
      rw [h.newInternal_of_exhausted hchunks hex] at hnew
      cases hnew
    refine ⟨?_, hex⟩
    by_contra hzero
    rw [h.newInternal_of_useEntries hzero hex] at hnew
    cases hnew
  · rintro ⟨hpos, hex⟩
    exact h.exists_newInternal hchunks hpos hex

/-! ### Runs -/

/-- What happens to a pool: a call, or closing and opening. -/
inductive Act
  | op (op : Op)
  | reopen

/-- One step; `memorySize` is the size of the file. -/
def actStep (memorySize : ℕ) (s : PersistMemoryPool × List ℕ) :
    Act → Option (PersistMemoryPool × List ℕ)
  | .op op => step s op
  | .reopen =>
    match PersistMemoryPool.reopen s.1.perfectFit s.1.file memorySize s.1.allocatedSlabSizes with
    | .error _ => none
    | .ok p => some (p, s.2)

/-- What holds of a pool that is used, closed and opened. -/
structure Used (perfectFit : Bool) (memorySize : ℕ) (slabSizes : List ℕ)
    (s : PersistMemoryPool × List ℕ) : Prop where
  run : RunInv (memorySize / kChunkSize) s
  classes : s.1.HasClasses
  mode : s.1.perfectFit = perfectFit
  slabs : s.1.allocatedSlabSizes = slabSizes

theorem hasClasses_create {perfectFit : Bool} {memorySize : ℕ} {slabSizes : List ℕ}
    {p : PersistMemoryPool}
    (h : create perfectFit memorySize slabSizes = .ok p) : p.HasClasses := by
  rw [create_eq h]
  intro s hs
  change s ∈ slabSizes at hs
  change (if s ∈ slabSizes then some [] else none).isSome = true
  rw [if_pos hs]
  rfl

/-- What `Malloc` changes: the bitmap and the count of the chunk, and the number of blocks. -/
theorem finish_chunkMalloc {p p' : PersistMemoryPool} {c ptr : ℕ}
    (h : finish (p.chunkMalloc c) = .ok (p', ptr)) :
    ∃ m, p' = { (p.recovery c).setBitmap c m 1 with
      totalMalloc := (p.recovery c).totalMalloc + 1 } := by
  rw [chunkMalloc] at h
  cases hset : ((p.recovery c).header c).bitmap.setZeroPos with
  | none => simp only [hset] at h; cases h
  | some r =>
    simp only [hset, PersistMemoryPool.finish, Except.ok.injEq, Prod.mk.injEq] at h
    exact ⟨r.1, h.1.symm⟩

theorem sizeToChunks_finish {p p' : PersistMemoryPool} {c ptr : ℕ}
    (h : finish (p.chunkMalloc c) = .ok (p', ptr)) : p'.sizeToChunks = p.sizeToChunks := by
  obtain ⟨m, rfl⟩ := finish_chunkMalloc h
  show (p.recovery c).sizeToChunks = p.sizeToChunks
  rw [recovery]
  split_ifs <;> rfl

/-- A class never goes away. -/
theorem isSome_sizeToChunks_newInternal {p p' : PersistMemoryPool} {slabSize ptr s : ℕ}
    (h : p.newInternal slabSize = .ok (p', ptr)) (hs : (p.sizeToChunks s).isSome = true) :
    (p'.sizeToChunks s).isSome = true := by
  rcases newInternal_cases h with
    ⟨c, -, -, hfinish⟩ | ⟨front, rest, chunks, -, -, -, hfinish⟩
  · rwa [sizeToChunks_finish hfinish]
  · rw [sizeToChunks_finish hfinish]
    exact isSome_takeChunk_class.mpr (Or.inr hs)

/-- `New` is `NewInternal` on some class, and after it bytes are written. -/
theorem exists_newInternal_of_new {p p' : PersistMemoryPool} {memorySize ptr : ℕ}
    (h : p.new memorySize = .ok (p', ptr)) : ∃ slabSize p₁ ptr₁ bytes,
      (∀ s, p.classOf memorySize = some s → s = slabSize) ∧
      p.newInternal slabSize = .ok (p₁, ptr₁) ∧
        p' = { p₁ with file := { p₁.file with bytes } } := by
  rw [new] at h
  by_cases hmode : p.perfectFit = true
  · rw [if_pos hmode] at h
    refine ⟨memorySize, p', ptr, p'.file.bytes, fun s hs => ?_, h, rfl⟩
    rw [classOf, if_pos hmode] at hs
    split_ifs at hs
    exact (Option.some.inj hs).symm
  · rw [if_neg hmode] at h
    cases hlb : p.lowerBound (kMetaDataSize + memorySize) with
    | none => rw [hlb] at h; cases h
    | some slabSize =>
      rw [hlb] at h
      simp only at h
      cases hint : p.newInternal slabSize with
      | error e => rw [hint] at h; cases h
      | ok r =>
        obtain ⟨p₁, ptr₁⟩ := r
        rw [hint] at h
        obtain ⟨rfl, -⟩ := Prod.mk.inj (Except.ok.inj h)
        refine ⟨slabSize, p₁, ptr₁, _, fun s hs => ?_, hint, rfl⟩
        rw [classOf, if_neg hmode, hlb] at hs
        exact (Option.some.inj hs).symm

theorem isSome_sizeToChunks_new {p p' : PersistMemoryPool} {memorySize ptr s : ℕ}
    (h : p.new memorySize = .ok (p', ptr)) (hs : (p.sizeToChunks s).isSome = true) :
    (p'.sizeToChunks s).isSome = true := by
  obtain ⟨slabSize, p₁, ptr₁, bytes, -, hint, rfl⟩ := exists_newInternal_of_new h
  show (p₁.sizeToChunks s).isSome = true
  exact isSome_sizeToChunks_newInternal hint hs

theorem sizeToChunks_free (p : PersistMemoryPool) (memoryData : ℕ) :
    (p.free memoryData).1.sizeToChunks = p.sizeToChunks := by
  rw [free]
  simp only
  split_ifs
  · simp only [chunkFree, recovery]
    split_ifs <;> rfl
  · rfl

theorem HasClasses.step {s s' : PersistMemoryPool × List ℕ} {op : Op} (h : s.1.HasClasses)
    (hslabs : s'.1.allocatedSlabSizes = s.1.allocatedSlabSizes)
    (hstep : PersistMemoryPool.step s op = some s') : s'.1.HasClasses := by
  intro slabSize hslab
  rw [hslabs] at hslab
  cases op with
  | new memorySize =>
    simp only [PersistMemoryPool.step] at hstep
    cases hnew : s.1.new memorySize with
    | error e => rw [hnew] at hstep; cases hstep
    | ok r =>
      rw [hnew] at hstep
      cases hstep
      exact isSome_sizeToChunks_new hnew (h slabSize hslab)
  | free memoryData =>
    simp only [PersistMemoryPool.step] at hstep
    split_ifs at hstep
    cases hstep
    simp only [sizeToChunks_free]
    exact h slabSize hslab

section Runs

variable {perfectFit : Bool} {memorySize : ℕ} {slabSizes : List ℕ}

theorem used_create {p : PersistMemoryPool} (h : create perfectFit memorySize slabSizes = .ok p) :
    Used perfectFit memorySize slabSizes (p, []) :=
  ⟨create_runInv h, hasClasses_create h, (create_inv h).mode, (create_inv h).slabs⟩

theorem Used.step {s s' : PersistMemoryPool × List ℕ} (hspace : memorySize ≤ userSpace)
    (hroom : slabSizes.length ≤ memorySize / kChunkSize)
    (h : Used perfectFit memorySize slabSizes s)
    {a : Act} (hstep : actStep memorySize s a = some s') :
      Used perfectFit memorySize slabSizes s' := by
  cases a with
  | op op =>
    obtain ⟨hrun, hext, -⟩ := h.run.step hstep
    exact ⟨hrun, h.classes.step hext.slabSizes hstep, hext.perfectFit.trans h.mode,
      hext.slabSizes.trans h.slabs⟩
  | reopen =>
    have hinv := h.run.inv
    have hclassed := hinv.classed
    rw [h.run.nrChunks, h.slabs] at hclassed
    have hopen : PersistMemoryPool.reopen s.1.perfectFit s.1.file memorySize s.1.allocatedSlabSizes
        = .ok s.1.reopened := by
      rw [h.slabs, reopen_eq hspace hroom hclassed, PersistMemoryPool.reopened, h.slabs,
        h.run.nrChunks]
    simp only [actStep, hopen, Option.some.injEq] at hstep
    subst hstep
    exact ⟨⟨hinv.reopened, h.run.live.reopened hinv, h.run.nrChunks⟩,
      fun slabSize hslab => (isSome_sizeToChunks_reopened s.1 slabSize).mpr hslab, h.mode, h.slabs⟩

/-- What is known of a pool after any calls, closings and openings. -/
theorem used_run {p₀ : PersistMemoryPool}
    (hcreate : create perfectFit memorySize slabSizes = .ok p₀)
    {acts : List Act} {s : PersistMemoryPool × List ℕ}
    (hrun : Run.run (actStep memorySize) (p₀, []) acts = some s) :
    Used perfectFit memorySize slabSizes s :=
  Run.run_invariant
    (fun _ _ _ h hs => h.step (create_inv hcreate).space (create_inv hcreate).room hs)
    (used_create hcreate) hrun

/-- **`New` fails only when its class is exhausted**, in every state of a pool that is used, closed
and opened: for a size of a class of slabs of at most 32767 bytes, it returns a block unless
there is no free chunk and every slab of the class is allocated, and then it reports that the pool
is out of memory. For larger slabs the check in `Use` fails as long as there is a free chunk. No
`CHECK(return_ptr)` ever fails. In best-fit mode the class is the smallest one that holds the length
and the block. -/
theorem pool_new_iff {p₀ p : PersistMemoryPool} {acts : List Act} {live : List ℕ}
    (hcreate : create perfectFit memorySize slabSizes = .ok p₀)
    (hrun : Run.run (actStep memorySize) (p₀, []) acts = some (p, live)) {size slabSize : ℕ}
    (hclass : p.classOf size = some slabSize) :
    ((∃ p' ptr, p.new size = .ok (p', ptr)) ↔
        (0 < slabSize ∧ slabSize ≤ 32767) ∧ ¬ p.Exhausted slabSize) ∧
      (p.Exhausted slabSize → p.new size = .error .poolOOM) ∧
      (32767 < slabSize → ¬ p.Exhausted slabSize → p.new size = .error .check) ∧
      p.new size ≠ .error .returnPtr ∧
      (perfectFit = false → slabSize ∈ slabSizes ∧ 8 + size ≤ slabSize ∧
        ∀ s ∈ slabSizes, 8 + size ≤ s → slabSize ≤ s) := by
  have h := used_run hcreate hrun
  obtain ⟨hiff, hoom, hcheck⟩ := h.run.inv.new_iff h.classes hclass
  refine ⟨hiff, hoom, fun hlarge => hcheck fun hslab => absurd hslab.2 (not_le.mpr hlarge), ?_,
    fun hmode => ?_⟩
  · intro hreturn
    have hex : ¬ p.Exhausted slabSize := fun hex => by
      rw [hoom hex] at hreturn
      cases hreturn
    by_cases hslab : 0 < slabSize ∧ slabSize ≤ 32767
    · obtain ⟨p', ptr, hnew⟩ := hiff.mpr ⟨hslab, hex⟩
      rw [hnew] at hreturn
      cases hreturn
    · rw [hcheck hslab hex] at hreturn
      cases hreturn
  rw [classOf, if_neg (by rw [h.mode, hmode]; exact Bool.false_ne_true)] at hclass
  obtain ⟨hmem, hle⟩ := lowerBound_spec hclass
  have hslabs := h.slabs
  simp only at hslabs
  rw [hslabs] at hmem
  exact ⟨hmem, hle, fun s hs hle' => lowerBound_le hclass (hslabs ▸ hs) hle'⟩

end Runs

/-- A block of 30 bytes, after one has been allocated and the pool opened again. -/
theorem pool_new_iff_reopened :
    ∃ p₀ p live, create false (2 * kChunkSize) [40, 72] = .ok p₀ ∧
      Run.run (actStep (2 * kChunkSize)) (p₀, []) [.op (.new 30), .reopen] = some (p, live) ∧
      ∃ p' ptr, p.new 30 = .ok (p', ptr) := by
  have heval : ((create false (2 * kChunkSize) [40, 72]).toOption.any fun p₀ =>
      (Run.run (actStep (2 * kChunkSize)) (p₀, []) [.op (.new 30), .reopen]).any fun s =>
        decide (s.1.classOf 30 = some 40) && decide (s.1.freeChunks ≠ [])) = true := by
    decide +kernel
  simp only [Option.any_eq_true, Bool.and_eq_true, decide_eq_true_eq] at heval
  obtain ⟨p₀, hcreate, ⟨p, live⟩, hrun, hclass, hfree⟩ := heval
  exact ⟨p₀, p, live, eq_ok_of_toOption hcreate, hrun,
    (pool_new_iff (eq_ok_of_toOption hcreate) hrun hclass).1.mpr
      ⟨by decide, fun hex => hfree hex.1⟩⟩

/-- **Slabs of 64 KiB**: the only chunk is free, and `Use` fails its check. -/
theorem pool_new_fails_large_slab :
    ∃ p₀, create true kChunkSize [65536] = .ok p₀ ∧ p₀.classOf 65536 = some 65536 ∧
      p₀.freeChunks = [0] ∧ p₀.new 65536 = .error .check :=
  ⟨_, rfl, rfl, rfl, rfl⟩

end PersistMemoryPool

end PetPS

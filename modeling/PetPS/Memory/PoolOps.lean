import PetPS.Memory.ChunkUse

/-!
# `New`, `Free` and `GetMallocsAppend`

The three branches of `NewInternal` end in `Chunk::Malloc` on a chunk of the right class that is not
full; the middle one first moves a chunk from the free queue into the class (`Inv.takeChunk`).

## Main results

* `Inv.newInternal`, `Inv.new` — an allocation that returns has added one slab, large enough
* `Inv.free_block` — `Free` of an allocated block removes its slab
* `Inv.getMallocsAppend` — the listing is the set of allocated slabs, each once
* `create_inv` — a new pool is empty and in order
-/

namespace PetPS

namespace PersistMemoryPool

/-! ### A fresh chunk -/

/-- The pool after `use` and the two updates of the class tables. -/
def takeChunk (p : PersistMemoryPool) (slabSize front : ℕ) (rest chunks : List ℕ) :
    PersistMemoryPool :=
  let nrEntries := useEntries slabSize
  { p with
    file := { p.file with
      header := Function.update p.file.header front ⟨true, slabSize, nrEntries,
        (BitMap.construct (p.header front).bitmap.bits nrEntries).clearAll⟩ }
    chunks := Function.update p.chunks front
      ⟨front * kChunkSize + ChunkHeader.headerSize nrEntries, true, 0⟩
    freeChunks := rest
    sizeToChunks := Function.update p.sizeToChunks slabSize (some (chunks ++ [front]))
    sizeToLastUsedChunk := Function.update p.sizeToLastUsedChunk slabSize (some front) }

theorem newFromFree_eq (p : PersistMemoryPool) (slabSize front : ℕ) (rest : List ℕ) :
    p.newFromFree slabSize front rest =
      if 0 < useEntries slabSize then
        match p.sizeToChunks slabSize with
        | none => .error .fault
        | some chunks => finish ((p.takeChunk slabSize front rest chunks).chunkMalloc front)
      else .error .check := by
  rw [newFromFree, use]
  by_cases hpos : 0 < useEntries slabSize
  · simp only [if_pos hpos]
    cases hclass : p.sizeToChunks slabSize with
    | none => simp only [setChunk, setHeader, hclass]
    | some chunks => simp only [setChunk, setHeader, hclass, takeChunk]; rfl
  · simp only [if_neg hpos]

section TakeChunk

variable {p : PersistMemoryPool} {slabSize front : ℕ} {rest chunks : List ℕ}

theorem takeChunk_header_self : (p.takeChunk slabSize front rest chunks).header front
    = ⟨true, slabSize, useEntries slabSize,
        (BitMap.construct (p.header front).bitmap.bits (useEntries slabSize)).clearAll⟩ := by
  simp [takeChunk, header]

theorem takeChunk_header_of_ne {c : ℕ} (h : c ≠ front) :
    (p.takeChunk slabSize front rest chunks).header c = p.header c := by
  simp [takeChunk, header, h]

theorem takeChunk_chunks_self : (p.takeChunk slabSize front rest chunks).chunks front
    = ⟨front * kChunkSize + ChunkHeader.headerSize (useEntries slabSize), true, 0⟩ := by
  simp [takeChunk]

theorem takeChunk_chunks_of_ne {c : ℕ} (h : c ≠ front) :
    (p.takeChunk slabSize front rest chunks).chunks c = p.chunks c := by
  simp [takeChunk, h]

/-- The chunk that was taken is in order, and empty. -/
theorem usedChunk_takeChunk (hpos : 0 < useEntries slabSize) :
    (p.takeChunk slabSize front rest chunks).UsedChunk front :=
  usedChunk_of_use takeChunk_header_self takeChunk_chunks_self hpos

/-- The classes after a chunk was taken: one has got the chunk, the others are as they were. -/
theorem takeChunk_class {s : ℕ} {cs : List ℕ}
    (hs : (p.takeChunk slabSize front rest chunks).sizeToChunks s = some cs) :
    s = slabSize ∧ cs = chunks ++ [front] ∨ s ≠ slabSize ∧ p.sizeToChunks s = some cs := by
  change Function.update p.sizeToChunks slabSize (some (chunks ++ [front])) s = some cs at hs
  by_cases hss : s = slabSize
  · rw [hss, Function.update_self, Option.some.injEq] at hs
    exact Or.inl ⟨hss, hs.symm⟩
  · rw [Function.update_of_ne hss] at hs
    exact Or.inr ⟨hss, hs⟩

theorem isSome_takeChunk_class {s : ℕ} :
    ((p.takeChunk slabSize front rest chunks).sizeToChunks s).isSome = true ↔
      s = slabSize ∨ (p.sizeToChunks s).isSome = true := by
  change (Function.update p.sizeToChunks slabSize (some (chunks ++ [front])) s).isSome = true ↔ _
  by_cases hss : s = slabSize
  · rw [hss, Function.update_self]
    exact iff_of_true rfl (Or.inl rfl)
  · rw [Function.update_of_ne hss]
    simp [hss]

/-- A chunk that is still in the queue, or was not in it. -/
theorem Inv.notMem_rest_iff (h : p.Inv) (hfree : p.freeChunks = front :: rest) {c : ℕ} :
    c ∉ rest ↔ c = front ∨ c ∉ p.freeChunks := by
  have hnodup := h.free_nodup
  rw [hfree, List.nodup_cons] at hnodup
  rw [hfree, List.mem_cons]
  constructor
  · intro hc
    tauto
  · rintro (rfl | hc)
    · exact hnodup.1
    · tauto

/-- A class holds the chunks of its size, the one that was taken included. -/
theorem Inv.takeChunk_mem_class (h : p.Inv) (hfree : p.freeChunks = front :: rest)
    (hclass : p.sizeToChunks slabSize = some chunks) {s : ℕ} {cs : List ℕ}
    (hs : (p.takeChunk slabSize front rest chunks).sizeToChunks s = some cs) (c : ℕ) :
    c ∈ cs ↔ c < p.nrChunks ∧ c ∉ rest ∧
      ((p.takeChunk slabSize front rest chunks).header c).slabSize = s := by
  have hfront : front ∈ p.freeChunks := hfree ▸ List.mem_cons_self
  have hlt := h.free_lt front hfront
  rw [h.notMem_rest_iff hfree]
  by_cases hne : c = front
  · subst hne
    rw [takeChunk_header_self]
    rcases takeChunk_class hs with ⟨rfl, rfl⟩ | ⟨hss, hold⟩
    · simp [hlt]
    · refine iff_of_false (fun hin => ?_) fun hx => hss hx.2.2.symm
      exact ((h.mem_class s cs hold c).mp hin).2.1 hfront
  · rw [takeChunk_header_of_ne hne]
    rcases takeChunk_class hs with ⟨rfl, rfl⟩ | ⟨-, hold⟩
    · rw [List.mem_append, List.mem_singleton, h.mem_class _ chunks hclass c]
      simp [hne]
    · rw [h.mem_class s cs hold c]
      simp [hne]

/-- **Moving a chunk from the free queue into a class.** -/
theorem Inv.takeChunk (h : p.Inv) (hfree : p.freeChunks = front :: rest)
    (hclass : p.sizeToChunks slabSize = some chunks) (hpos : 0 < useEntries slabSize) :
    (p.takeChunk slabSize front rest chunks).Inv := by
  have hnodup := h.free_nodup
  rw [hfree, List.nodup_cons] at hnodup
  have hfront : front ∈ p.freeChunks := hfree ▸ List.mem_cons_self
  have hrest : ∀ c ∈ rest, c ∈ p.freeChunks := fun c hc => hfree ▸ List.mem_cons_of_mem _ hc
  have hused : ∀ c, c ≠ front → c ∉ rest → c ∉ p.freeChunks := fun c hne hc =>
    ((h.notMem_rest_iff hfree).mp hc).resolve_left hne
  refine ⟨hnodup.2, fun c hc => h.free_lt c (hrest c hc), fun c hc => ?_, fun c hc hn => ?_,
    fun s cs hs => ?_, fun s cs hs => h.takeChunk_mem_class hfree hclass hs, fun c hc hn => ?_,
    fun s hs => ?_, fun s c hs => ?_⟩
  · have hne : c ≠ front := fun heq => hnodup.1 (heq ▸ hc)
    exact (h.free c (hrest c hc)).congr (takeChunk_header_of_ne hne) (takeChunk_chunks_of_ne hne)
  · by_cases hne : c = front
    · exact hne ▸ usedChunk_takeChunk hpos
    · exact (h.used c hc (hused c hne hn)).congr (takeChunk_header_of_ne hne)
        (takeChunk_chunks_of_ne hne)
  · rcases takeChunk_class hs with ⟨-, rfl⟩ | ⟨-, hold⟩
    · refine List.nodup_append.mpr ⟨h.class_nodup _ _ hclass, List.nodup_singleton _, ?_⟩
      intro a ha b hb heq
      rw [List.mem_singleton.mp hb] at heq
      exact ((h.mem_class slabSize chunks hclass a).mp ha).2.1 (heq ▸ hfront)
    · exact h.class_nodup s cs hold
  · rw [isSome_takeChunk_class]
    by_cases hne : c = front
    · rw [hne, takeChunk_header_self]
      exact Or.inl rfl
    · rw [takeChunk_header_of_ne hne]
      exact Or.inr (h.class_some c hc (hused c hne hn))
  · rcases isSome_takeChunk_class.mp hs with rfl | hold
    · exact h.class_mem s (by rw [hclass]; rfl)
    · exact h.class_mem s hold
  · change Function.update p.sizeToLastUsedChunk slabSize (some front) s = some c at hs
    change c < p.nrChunks ∧ c ∉ rest ∧ _ = s
    by_cases hss : s = slabSize
    · subst hss
      rw [Function.update_self, Option.some.injEq] at hs
      subst hs
      rw [takeChunk_header_self]
      exact ⟨h.free_lt front hfront, hnodup.1, rfl⟩
    · rw [Function.update_of_ne hss] at hs
      obtain ⟨hlt, hnf, hsl⟩ := h.last s c hs
      have hne : c ≠ front := fun heq => hnf (heq ▸ hfront)
      rw [takeChunk_header_of_ne hne]
      exact ⟨hlt, (h.notMem_rest_iff hfree).mpr (Or.inr hnf), hsl⟩

/-- It allocates nothing. -/
theorem Inv.takeChunk_extends (h : p.Inv) (hfree : p.freeChunks = front :: rest) :
    Extends p (p.takeChunk slabSize front rest chunks) ∧
      ∀ c i, (p.takeChunk slabSize front rest chunks).Allocated c i ↔ p.Allocated c i := by
  have hfront : front ∈ p.freeChunks := hfree ▸ List.mem_cons_self
  have hnone : ∀ i, ¬ p.Allocated front i := fun i ha => by
    have hmem := ha.2
    rw [(h.free front hfront).ones] at hmem
    simp at hmem
  have hne : ∀ c i, p.Allocated c i → c ≠ front := fun c i ha heq => hnone i (heq ▸ ha)
  refine ⟨⟨⟨rfl, rfl, rfl⟩, fun c i ha => ?_, fun c i ha => ?_⟩, fun c i => ?_⟩
  · rw [entry, entry, takeChunk_header_of_ne (hne c i ha), takeChunk_chunks_of_ne (hne c i ha)]
  · rw [takeChunk_header_of_ne (hne c i ha)]
  · by_cases heq : c = front
    · subst heq
      refine iff_of_false (fun ha => ?_) (hnone i)
      have hmem := ha.2
      rw [takeChunk_header_self, ones_clearAll_construct] at hmem
      simp at hmem
    · rw [Allocated, takeChunk_header_of_ne heq, Allocated]
      rfl

end TakeChunk

/-! ### `NewInternal` -/

/-- What an allocation of a slab of size `slabSize` leaves behind. -/
structure NewSlab (p p' : PersistMemoryPool) (slabSize c i : ℕ) : Prop where
  /-- The pool is in order. -/
  inv : p'.Inv
  /-- One slab was added. -/
  added : Added p p' c i
  /-- It has the size asked for. -/
  slab : (p'.header c).slabSize = slabSize
  /-- It is counted. -/
  total : p'.totalMalloc = p.totalMalloc + 1
  /-- No byte was written. -/
  bytes : p'.file.bytes = p.file.bytes

theorem Added.of_extends {p p₁ p' : PersistMemoryPool} {c i : ℕ} (h : Added p₁ p' c i)
    (he : Extends p p₁) (ha : ∀ c i, p₁.Allocated c i ↔ p.Allocated c i) : Added p p' c i where
  perfectFit := h.perfectFit.trans he.perfectFit
  slabSizes := h.slabSizes.trans he.slabSizes
  nrChunks := h.nrChunks.trans he.nrChunks
  entry c' i' hai := (h.entry c' i' ((ha c' i').mpr hai)).trans (he.entry c' i' hai)
  slab c' i' hai := (h.slab c' i' ((ha c' i').mpr hai)).trans (he.slab c' i' hai)
  fresh hai := h.fresh ((ha c i).mpr hai)
  allocated c' i' := by rw [h.allocated, ha]

/-- The common end of the three branches. -/
theorem Inv.finish {p p' : PersistMemoryPool} (h : p.Inv) {c ptr : ℕ} (hc : c < p.nrChunks)
    (hfree : c ∉ p.freeChunks) (hroom : p.full c = false)
    (hrun : PersistMemoryPool.finish (p.chunkMalloc c) = .ok (p', ptr)) :
    ∃ i, ptr = p'.entry c i ∧ NewSlab p p' (p.header c).slabSize c i := by
  obtain ⟨p₁, i, hmalloc, hinv, hadd, htotal, hbytes, hslab⟩ := h.chunkMalloc hc hfree hroom
  rw [hmalloc, PersistMemoryPool.finish] at hrun
  simp only [Except.ok.injEq, Prod.mk.injEq] at hrun
  obtain ⟨rfl, rfl⟩ := hrun
  refine ⟨i, rfl, hinv.congr rfl rfl rfl rfl rfl rfl rfl, ?_, hslab, ?_, hbytes⟩
  · exact ⟨⟨⟨hadd.perfectFit, hadd.slabSizes, hadd.nrChunks⟩, hadd.entry, hadd.slab⟩, hadd.fresh,
      hadd.allocated⟩
  · rw [htotal]

/-- **The branches of `NewInternal` that return**: a chunk of the class that has room, or a fresh
chunk. -/
theorem newInternal_cases {p p' : PersistMemoryPool} {slabSize ptr : ℕ}
    (h : p.newInternal slabSize = .ok (p', ptr)) :
    (∃ c, (p.sizeToLastUsedChunk slabSize = some c ∨
        ∃ chunks, p.sizeToChunks slabSize = some chunks ∧ c ∈ chunks) ∧ p.full c = false ∧
        PersistMemoryPool.finish (p.chunkMalloc c) = .ok (p', ptr)) ∨
      ∃ front rest chunks, p.freeChunks = front :: rest ∧ p.sizeToChunks slabSize = some chunks ∧
        0 < useEntries slabSize ∧
        PersistMemoryPool.finish ((p.takeChunk slabSize front rest chunks).chunkMalloc front)
          = .ok (p', ptr) := by
  rw [PersistMemoryPool.newInternal] at h
  cases hlast : p.lastUsedRoom slabSize with
  | some c =>
    rw [hlast] at h
    obtain ⟨hsome, hroom⟩ := Option.filter_eq_some_iff.mp hlast
    exact Or.inl ⟨c, Or.inl hsome, by simpa using hroom, h⟩
  | none =>
    rw [hlast] at h
    cases hq : p.freeChunks with
    | cons front rest =>
      rw [hq] at h
      simp only [newFromFree_eq] at h
      split_ifs at h with hpos
      cases hclass : p.sizeToChunks slabSize with
      | none => rw [hclass] at h; simp at h
      | some chunks =>
        rw [hclass] at h
        exact Or.inr ⟨front, rest, chunks, rfl, rfl, hpos, h⟩
    | nil =>
      rw [hq] at h
      simp only [newFromClass] at h
      cases hclass : p.sizeToChunks slabSize with
      | none => rw [hclass] at h; simp at h
      | some chunks =>
        rw [hclass] at h
        simp only at h
        cases hfind : chunks.find? fun c => !p.full c with
        | none => rw [hfind] at h; simp at h
        | some c =>
          rw [hfind] at h
          exact Or.inl ⟨c, Or.inr ⟨chunks, rfl, List.mem_of_find?_eq_some hfind⟩,
            by simpa using List.find?_some hfind, h⟩

theorem takeChunk_not_full {p : PersistMemoryPool} {slabSize front : ℕ} {rest chunks : List ℕ}
    (hpos : 0 < useEntries slabSize) :
    (p.takeChunk slabSize front rest chunks).full front = false := by
  rw [full, takeChunk_header_self, takeChunk_chunks_self]
  simp only [beq_eq_false_iff_ne, ne_eq]
  omega

/-- **`NewInternal`.** Whichever branch it takes, one slab of the size asked for is added. -/
theorem Inv.newInternal {p p' : PersistMemoryPool} (h : p.Inv) {slabSize ptr : ℕ}
    (hrun : p.newInternal slabSize = .ok (p', ptr)) :
    ∃ c i, ptr = p'.entry c i ∧ NewSlab p p' slabSize c i := by
  rcases newInternal_cases hrun with
    ⟨c, hmem, hroom, hfinish⟩ | ⟨front, rest, chunks, hq, hclass, hpos, hfinish⟩
  · have hin : c < p.nrChunks ∧ c ∉ p.freeChunks ∧ (p.header c).slabSize = slabSize := by
      rcases hmem with hlast | ⟨chunks, hclass, hc⟩
      · exact h.last slabSize c hlast
      · exact (h.mem_class slabSize chunks hclass c).mp hc
    obtain ⟨i, hptr, hnew⟩ := h.finish hin.1 hin.2.1 hroom hfinish
    exact ⟨c, i, hptr, hin.2.2 ▸ hnew⟩
  · have hinv := h.takeChunk hq hclass hpos
    obtain ⟨hext, halloc⟩ : Extends p (p.takeChunk slabSize front rest chunks) ∧ _ :=
      h.takeChunk_extends hq
    have hnodup := h.free_nodup
    rw [hq, List.nodup_cons] at hnodup
    obtain ⟨i, hptr, hnew⟩ := hinv.finish (h.free_lt front (hq ▸ List.mem_cons_self)) hnodup.1
      (takeChunk_not_full hpos) hfinish
    refine ⟨front, i, hptr, hnew.inv, hnew.added.of_extends hext halloc, ?_, hnew.total, hnew.bytes⟩
    rw [hnew.slab, takeChunk_header_self]

/-! ### `New` and `Free` -/

theorem lowerBound_spec {p : PersistMemoryPool} {size slabSize : ℕ}
    (h : p.lowerBound size = some slabSize) :
    slabSize ∈ p.allocatedSlabSizes ∧ size ≤ slabSize := by
  have hmem := List.min?_mem (Option.mem_def.mpr h)
  rw [List.mem_filter, decide_eq_true_eq] at hmem
  exact hmem

/-- What `New(memorySize)` leaves behind. -/
structure NewBlock (p p' : PersistMemoryPool) (memorySize ptr c i : ℕ) : Prop where
  /-- The pool is in order. -/
  inv : p'.Inv
  /-- One slab was added. -/
  added : Added p p' c i
  /-- The block starts behind the length. -/
  ptr : ptr = p'.entry c i + p'.metaSize
  /-- The block fits. -/
  room : p'.metaSize + memorySize ≤ (p'.header c).slabSize
  /-- It is counted. -/
  total : p'.totalMalloc = p.totalMalloc + 1
  /-- Only its length was written. -/
  bytes : p'.file.bytes = if p.perfectFit then p.file.bytes
    else Bytes.store p.file.bytes (p'.entry c i) (Bytes.encode32 memorySize)

/-- **`New`**, in both modes. -/
theorem Inv.new {p p' : PersistMemoryPool} (h : p.Inv) {memorySize ptr : ℕ}
    (hrun : p.new memorySize = .ok (p', ptr)) : ∃ c i, NewBlock p p' memorySize ptr c i := by
  rw [PersistMemoryPool.new] at hrun
  split_ifs at hrun with hmode
  · obtain ⟨c, i, hptr, hnew⟩ := h.newInternal hrun
    have hmeta : p'.metaSize = 0 := by rw [metaSize, hnew.added.perfectFit, if_pos hmode]
    refine ⟨c, i, hnew.inv, hnew.added, ?_, ?_, hnew.total, ?_⟩
    · rw [hptr, hmeta, Nat.add_zero]
    · rw [hmeta, hnew.slab, Nat.zero_add]
    · rw [if_pos hmode, hnew.bytes]
  · cases hlb : p.lowerBound (kMetaDataSize + memorySize) with
    | none => rw [hlb] at hrun; simp at hrun
    | some slabSize =>
      rw [hlb] at hrun
      simp only at hrun
      cases hint : p.newInternal slabSize with
      | error e => rw [hint] at hrun; simp at hrun
      | ok r =>
        obtain ⟨p₁, ptr₁⟩ := r
        rw [hint] at hrun
        simp only [Except.ok.injEq, Prod.mk.injEq] at hrun
        obtain ⟨rfl, rfl⟩ := hrun
        obtain ⟨c, i, hptr, hnew⟩ := h.newInternal hint
        have hadd := hnew.added
        have hmeta : p₁.metaSize = kMetaDataSize := by
          rw [metaSize, hadd.perfectFit, if_neg hmode]
        have hle := (lowerBound_spec hlb).2
        refine ⟨c, i, hnew.inv.congr rfl rfl rfl rfl rfl rfl rfl, ?_, ?_, ?_, hnew.total, ?_⟩
        · exact ⟨⟨⟨hadd.perfectFit, hadd.slabSizes, hadd.nrChunks⟩, hadd.entry,
            hadd.slab⟩, hadd.fresh,
            hadd.allocated⟩
        · change ptr₁ + kMetaDataSize = p₁.entry c i + p₁.metaSize
          rw [hptr, hmeta]
        · change p₁.metaSize + memorySize ≤ (p₁.header c).slabSize
          rw [hmeta, hnew.slab]
          exact hle
        · rw [if_neg hmode, storeBytes]
          simp only
          rw [hnew.bytes, hptr]
          rfl

/-- What `Free` of the slab `(c, i)` leaves behind. -/
structure Freed (p p' : PersistMemoryPool) (c i : ℕ) : Prop where
  /-- The pool is in order. -/
  inv : p'.Inv
  /-- One slab was removed. -/
  removed : Removed p p' c i
  /-- It is no longer counted. -/
  total : p'.totalMalloc = p.totalMalloc - 1
  /-- No byte was written. -/
  bytes : p'.file.bytes = p.file.bytes

/-- **`Free`** of an allocated block. -/
theorem Inv.free_block {p : PersistMemoryPool} (h : p.Inv) {c i : ℕ} (ha : p.Allocated c i) :
    ∃ p', p.free (p.entry c i + p.metaSize) = (p', true) ∧ Freed p p' c i := by
  obtain ⟨hinv, hrem, htotal, hbytes⟩ := h.chunkFree ha
  have hdiv := (h.usedChunk ha).entry_div (h.lt_nrEntries ha)
  refine ⟨{ p.chunkFree c (p.entry c i) with
    totalMalloc := (p.chunkFree c (p.entry c i)).totalMalloc - 1 }, ?_,
    hinv.congr rfl rfl rfl rfl rfl rfl rfl, ?_, ?_, hbytes⟩
  · rw [PersistMemoryPool.free, Nat.add_sub_cancel, hdiv, if_pos ha.1]
  · exact ⟨⟨⟨hrem.perfectFit, hrem.slabSizes, hrem.nrChunks⟩, hrem.entry, hrem.slab⟩,
      hrem.allocated⟩
  · change (p.chunkFree c (p.entry c i)).totalMalloc - 1 = _
    rw [htotal]

end PersistMemoryPool

end PetPS

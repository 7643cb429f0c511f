import PetPS.Lib.Run
import PetPS.Memory.PoolOps

/-!
# Runs of the pool

A run keeps, next to the pool, the list of blocks it has been given and not yet freed. `Live` ties
that list to the allocated slabs, and everything the pool promises about its blocks follows from it
and from the invariant.

## Main results

* `Inv.getMallocsAppend` — the listing is the set of allocated slabs, each once
* `pool_run_exact` — after any run of `New` and `Free` on a new pool, in both modes
-/

namespace PetPS

namespace PersistMemoryPool

/-! ### The listing -/

theorem Inv.getMallocedData {p : PersistMemoryPool} (h : p.Inv) {c : ℕ} (hc : c < p.nrChunks) :
    ∃ data, p.getMallocedData c = .ok data ∧ data.Nodup ∧
      ∀ a, a ∈ data ↔ ∃ i, p.Allocated c i ∧ a = p.entry c i := by
  have hids : ∀ i, i ∈ (List.range (p.header c).nrEntries).filter (p.header c).bitmap.get ↔
      i ∈ (p.header c).bitmap.ones := fun i => by
    rw [List.mem_filter, List.mem_range, BitMap.mem_ones]
    by_cases hfree : c ∈ p.freeChunks
    · rw [(h.free c hfree).bits, (h.free c hfree).entries]
    · rw [(h.used c hc hfree).bits]
  have hnodup : ((List.range (p.header c).nrEntries).filter (p.header c).bitmap.get).Nodup :=
    List.nodup_range.filter _
  have hlen : ((List.range (p.header c).nrEntries).filter (p.header c).bitmap.get).length
      = (p.header c).bitmap.ones.card := by
    rw [← List.toFinset_card_of_nodup hnodup]
    refine congrArg Finset.card (Finset.ext fun i => ?_)
    rw [List.mem_toFinset, hids]
  refine ⟨((List.range (p.header c).nrEntries).filter (p.header c).bitmap.get).map (p.entry c), ?_,
    ?_, fun a => ?_⟩
  · rw [PersistMemoryPool.getMallocedData]
    simp only [List.length_map, hlen, h.count hc, if_true]
  · refine List.Nodup.map_on (fun i hi j hj hij => ?_) hnodup
    exact (h.entry_inj ⟨hc, (hids i).mp hi⟩ ⟨hc, (hids j).mp hj⟩ hij).2
  · rw [List.mem_map]
    constructor
    · rintro ⟨i, hi, rfl⟩
      exact ⟨i, ⟨hc, (hids i).mp hi⟩, rfl⟩
    · rintro ⟨i, ha, rfl⟩
      exact ⟨i, (hids i).mpr ha.2, rfl⟩

theorem Inv.getMallocsLoop {p : PersistMemoryPool} (h : p.Inv) : ∀ {cs : List ℕ}, cs.Nodup →
    (∀ c ∈ cs, c < p.nrChunks) →
    ∃ l, p.getMallocsLoop cs = .ok l ∧ l.Nodup ∧
      ∀ a, a ∈ l ↔ ∃ c ∈ cs, ∃ i, p.Allocated c i ∧ a = p.entry c i + p.metaSize := by
  intro cs
  induction cs with
  | nil => exact fun _ _ => ⟨[], rfl, List.nodup_nil, fun a => by simp⟩
  | cons c cs ih =>
    intro hnodup hlt
    obtain ⟨hnotin, hnodup'⟩ := List.nodup_cons.mp hnodup
    obtain ⟨data, hdata, hdn, hdmem⟩ := h.getMallocedData (hlt c List.mem_cons_self)
    obtain ⟨rest, hrest, hrn, hrmem⟩ := ih hnodup' fun c' hc' => hlt c' (List.mem_cons_of_mem c hc')
    refine ⟨data.map (· + p.metaSize) ++ rest, ?_, ?_, fun a => ?_⟩
    · simp only [PersistMemoryPool.getMallocsLoop, hdata, hrest]
    · refine List.nodup_append.mpr ⟨hdn.map fun a b hab => Nat.add_right_cancel hab, hrn, ?_⟩
      rintro a ha b hb rfl
      obtain ⟨x, hx, rfl⟩ := List.mem_map.mp ha
      obtain ⟨i, hai, rfl⟩ := (hdmem x).mp hx
      obtain ⟨c', hc', i', hai', heq⟩ := (hrmem _).mp hb
      exact hnotin ((h.entry_inj hai hai' (Nat.add_right_cancel heq)).1 ▸ hc')
    · rw [List.mem_append, List.mem_map, hrmem]
      constructor
      · rintro (⟨x, hx, rfl⟩ | ⟨c', hc', i, hai, rfl⟩)
        · obtain ⟨i, hai, rfl⟩ := (hdmem x).mp hx
          exact ⟨c, List.mem_cons_self, i, hai, rfl⟩
        · exact ⟨c', List.mem_cons_of_mem c hc', i, hai, rfl⟩
      · rintro ⟨c', hc', i, hai, rfl⟩
        rcases List.mem_cons.mp hc' with rfl | hc'
        · exact Or.inl ⟨_, (hdmem _).mpr ⟨i, hai, rfl⟩, rfl⟩
        · exact Or.inr ⟨c', hc', i, hai, rfl⟩

/-- **`GetMallocsAppend`** lists the allocated slabs, each once; none of its checks fails. -/
theorem Inv.getMallocsAppend {p : PersistMemoryPool} (h : p.Inv) :
    ∃ l, p.getMallocsAppend = .ok l ∧ l.Nodup ∧
      ∀ a, a ∈ l ↔ ∃ c i, p.Allocated c i ∧ a = p.entry c i + p.metaSize := by
  obtain ⟨l, hl, hnodup, hmem⟩ := h.getMallocsLoop List.nodup_range fun c hc => List.mem_range.mp hc
  refine ⟨l, hl, hnodup, fun a => (hmem a).trans ?_⟩
  constructor
  · rintro ⟨c, -, i, hai, rfl⟩
    exact ⟨c, i, hai, rfl⟩
  · rintro ⟨c, i, hai, rfl⟩
    exact ⟨c, List.mem_range.mpr hai.1, i, hai, rfl⟩

/-! ### A new pool -/

/-- A pool as its constructor leaves it. -/
structure Created (perfectFit : Bool) (memorySize : ℕ) (slabSizes : List ℕ)
    (p : PersistMemoryPool) :
    Prop where
  inv : p.Inv
  nrChunks : p.nrChunks = memorySize / kChunkSize
  mode : p.perfectFit = perfectFit
  slabs : p.allocatedSlabSizes = slabSizes
  /-- The mapping has succeeded. -/
  space : memorySize ≤ userSpace
  /-- There is a chunk for each slab size. -/
  room : slabSizes.length ≤ memorySize / kChunkSize
  total : p.totalMalloc = 0
  empty : ∀ c i, ¬ p.Allocated c i

theorem create_inv {perfectFit : Bool} {memorySize : ℕ} {slabSizes : List ℕ} {p : PersistMemoryPool}
    (h : create perfectFit memorySize slabSizes = .ok p) :
    Created perfectFit memorySize slabSizes p := by
  rw [create, construct] at h
  by_cases hspace : userSpace < memorySize
  · simp [hspace] at h
  by_cases hroom : memorySize / kChunkSize < slabSizes.length
  · simp [hspace, hroom] at h
  simp only [if_neg hspace, if_neg hroom, Except.ok.injEq] at h
  subst h
  have hfree : ∀ c < memorySize / kChunkSize, c ∈ List.range (memorySize / kChunkSize) :=
    fun c hc => List.mem_range.mpr hc
  refine ⟨⟨List.nodup_range, fun c hc => List.mem_range.mp hc, fun c hc => ?_, fun c hc hn => ?_,
    fun s cs hs => ?_, fun s cs hs c => ?_, fun c hc hn => ?_,
      fun s hs => ?_, fun s c hs => ?_⟩, rfl,
    rfl, rfl, not_lt.mp hspace, not_lt.mp hroom, rfl, ?_⟩
  · have hlt := List.mem_range.mp hc
    refine ⟨?_, ?_, ?_, rfl⟩ <;>
      simp [header, initializeChunks, PoolFile.zeroed]
  · exact absurd (hfree c hc) hn
  · simp only [initializeChunks] at hs
    split_ifs at hs
    obtain rfl := Option.some.inj hs
    exact List.nodup_nil
  · simp only [initializeChunks] at hs
    split_ifs at hs
    obtain rfl := Option.some.inj hs
    refine iff_of_false List.not_mem_nil fun hx => hx.2.1 ?_
    exact hfree c hx.1
  · exact absurd (hfree c hc) hn
  · simp only [initializeChunks] at hs
    split_ifs at hs with hmem
    · exact hmem
    · cases hs
  · simp [initializeChunks] at hs
  · rintro c i ⟨hc, hi⟩
    simp [header, initializeChunks, PoolFile.zeroed, BitMap.mem_ones] at hi

/-! ### Runs -/

/-- The blocks handed out and not yet freed. -/
structure Live (p : PersistMemoryPool) (live : List ℕ) : Prop where
  /-- No block is handed out twice. -/
  nodup : live.Nodup
  /-- They are the blocks of the allocated slabs. -/
  mem : ∀ ptr, ptr ∈ live ↔ ∃ c i, p.Allocated c i ∧ ptr = p.entry c i + p.metaSize
  /-- `total_malloc` counts them. -/
  total : p.totalMalloc = live.length

theorem Extends.metaSize {p p' : PersistMemoryPool} (h : Extends p p') :
    p'.metaSize = p.metaSize := by
  rw [PersistMemoryPool.metaSize, h.perfectFit, PersistMemoryPool.metaSize]

/-- One more block. -/
theorem Live.added {p p' : PersistMemoryPool} {live : List ℕ} {c i : ℕ} (h : p.Live live)
    (hinv : p'.Inv) (hadd : Added p p' c i) (htotal : p'.totalMalloc = p.totalMalloc + 1) :
    p'.Live ((p'.entry c i + p'.metaSize) :: live) := by
  have hself : p'.Allocated c i := (hadd.allocated c i).mpr (Or.inr ⟨rfl, rfl⟩)
  have hold : ∀ a, a ∈ live ↔ ∃ c' i', p.Allocated c' i' ∧ a = p'.entry c' i' + p'.metaSize :=
    fun a => by
      rw [h.mem]
      constructor
      · rintro ⟨c', i', ha, rfl⟩
        exact ⟨c', i', ha, by rw [hadd.entry c' i' ha, hadd.metaSize]⟩
      · rintro ⟨c', i', ha, rfl⟩
        exact ⟨c', i', ha, by rw [hadd.entry c' i' ha, hadd.metaSize]⟩
  refine ⟨List.nodup_cons.mpr ⟨fun hin => ?_, h.nodup⟩, fun a => ?_, ?_⟩
  · obtain ⟨c', i', ha, heq⟩ := (hold _).mp hin
    obtain ⟨rfl, rfl⟩ := hinv.entry_inj hself ((hadd.allocated c' i').mpr (Or.inl ha))
      (Nat.add_right_cancel heq)
    exact hadd.fresh ha
  · rw [List.mem_cons, hold]
    constructor
    · rintro (rfl | ⟨c', i', ha, rfl⟩)
      · exact ⟨c, i, hself, rfl⟩
      · exact ⟨c', i', (hadd.allocated c' i').mpr (Or.inl ha), rfl⟩
    · rintro ⟨c', i', ha, rfl⟩
      rcases (hadd.allocated c' i').mp ha with ha | ⟨rfl, rfl⟩
      · exact Or.inr ⟨c', i', ha, rfl⟩
      · exact Or.inl rfl
  · rw [htotal, h.total, List.length_cons]
    rfl

theorem Live.new {p p' : PersistMemoryPool} {live : List ℕ} {memorySize ptr c i : ℕ}
    (h : p.Live live) (hn : NewBlock p p' memorySize ptr c i) : p'.Live (ptr :: live) :=
  hn.ptr ▸ h.added hn.inv hn.added hn.total

theorem Live.free {p p' : PersistMemoryPool} {live : List ℕ} {c i : ℕ} (hp : p.Inv)
    (h : p.Live live) (ha : p.Allocated c i) (hf : Freed p p' c i) :
    p'.Live (live.erase (p.entry c i + p.metaSize)) := by
  have hin : p.entry c i + p.metaSize ∈ live := (h.mem _).mpr ⟨c, i, ha, rfl⟩
  refine ⟨h.nodup.erase _, fun a => ?_, ?_⟩
  · rw [h.nodup.mem_erase_iff, h.mem]
    constructor
    · rintro ⟨hne, c', i', ha', rfl⟩
      refine ⟨c', i', (hf.removed.allocated c' i').mpr ⟨ha', ?_⟩, ?_⟩
      · rintro ⟨rfl, rfl⟩
        exact hne rfl
      · rw [hf.removed.entry c' i' ha', hf.removed.metaSize]
    · rintro ⟨c', i', ha', rfl⟩
      obtain ⟨hold, hne⟩ := (hf.removed.allocated c' i').mp ha'
      rw [hf.removed.entry c' i' hold, hf.removed.metaSize]
      exact ⟨fun heq => hne (hp.entry_inj hold ha (Nat.add_right_cancel heq)), c', i', hold, rfl⟩
  · rw [hf.total, h.total, List.length_erase_of_mem hin]
    have hpos : 0 < live.length := List.length_pos_of_mem hin
    omega

/-- A call on the pool. -/
inductive Op
  /-- `New`. -/
  | new (memorySize : ℕ)
  /-- `Free`. -/
  | free (memoryData : ℕ)

/-- One call. A run frees only blocks it holds; a call that does not return ends it. -/
def step (s : PersistMemoryPool × List ℕ) : Op → Option (PersistMemoryPool × List ℕ)
  | .new memorySize =>
    match s.1.new memorySize with
    | .ok (p, ptr) => some (p, ptr :: s.2)
    | .error _ => none
  | .free memoryData =>
    if memoryData ∈ s.2 then some ((s.1.free memoryData).1, s.2.erase memoryData) else none

/-- The invariant of runs. -/
structure RunInv (nrChunks : ℕ) (s : PersistMemoryPool × List ℕ) : Prop where
  /-- The pool is in order. -/
  inv : s.1.Inv
  /-- The blocks held are the allocated ones. -/
  live : s.1.Live s.2
  /-- The file has not changed its size. -/
  nrChunks : s.1.nrChunks = nrChunks

/-- **One call.** What is allocated stays where it is until it is freed. -/
theorem RunInv.step {n : ℕ} {s s' : PersistMemoryPool × List ℕ} {op : Op} (h : RunInv n s)
    (hstep : PersistMemoryPool.step s op = some s') :
    RunInv n s' ∧ Extends s.1 s'.1 ∧ ∀ c i, s.1.Allocated c i →
      op ≠ .free (s.1.entry c i + s.1.metaSize) → s'.1.Allocated c i := by
  cases op with
  | new memorySize =>
    simp only [PersistMemoryPool.step] at hstep
    cases hnew : s.1.new memorySize with
    | error e => rw [hnew] at hstep; simp at hstep
    | ok r =>
      obtain ⟨p, ptr⟩ := r
      rw [hnew] at hstep
      simp only [Option.some.injEq] at hstep
      subst hstep
      obtain ⟨c, i, hn⟩ := h.inv.new hnew
      exact ⟨⟨hn.inv, h.live.new hn, hn.added.nrChunks.trans h.nrChunks⟩, hn.added.toExtends,
        fun c' i' ha _ => (hn.added.allocated c' i').mpr (Or.inl ha)⟩
  | free memoryData =>
    simp only [PersistMemoryPool.step] at hstep
    split_ifs at hstep with hin
    simp only [Option.some.injEq] at hstep
    subst hstep
    obtain ⟨c, i, ha, rfl⟩ := (h.live.mem memoryData).mp hin
    obtain ⟨p', hfree, hf⟩ := h.inv.free_block ha
    rw [hfree]
    refine ⟨⟨hf.inv, h.live.free h.inv ha hf, hf.removed.nrChunks.trans h.nrChunks⟩,
      hf.removed.toExtends, fun c' i' ha' hne => (hf.removed.allocated c' i').mpr ⟨ha', ?_⟩⟩
    rintro ⟨rfl, rfl⟩
    exact hne rfl

/-- The first byte of the slab of a block. -/
def slabStart (p : PersistMemoryPool) (ptr : ℕ) : ℕ := ptr - p.metaSize

/-- The chunk of a block. -/
def chunkOf (p : PersistMemoryPool) (ptr : ℕ) : ℕ := p.slabStart ptr / kChunkSize

/-- The end of the slab of a block. -/
def slabEnd (p : PersistMemoryPool) (ptr : ℕ) : ℕ :=
  p.slabStart ptr + (p.header (p.chunkOf ptr)).slabSize

theorem Inv.chunkOf_block {p : PersistMemoryPool} (h : p.Inv) {c i : ℕ} (ha : p.Allocated c i) :
    p.slabStart (p.entry c i + p.metaSize) = p.entry c i ∧
      p.chunkOf (p.entry c i + p.metaSize) = c := by
  have hstart : p.slabStart (p.entry c i + p.metaSize) = p.entry c i := Nat.add_sub_cancel _ _
  rw [chunkOf, hstart]
  exact ⟨rfl, (h.usedChunk ha).entry_div (h.lt_nrEntries ha)⟩

/-- **A chunk is free or in exactly one class.** -/
theorem Inv.chunk_partition {p : PersistMemoryPool} (h : p.Inv) {c : ℕ} (hc : c < p.nrChunks) :
    (c ∈ p.freeChunks ∧ ∀ s cs, p.sizeToChunks s = some cs → c ∉ cs) ∨
      (c ∉ p.freeChunks ∧ ∃! s, ∃ cs, p.sizeToChunks s = some cs ∧ c ∈ cs) := by
  by_cases hfree : c ∈ p.freeChunks
  · exact Or.inl ⟨hfree, fun s cs hs hin => ((h.mem_class s cs hs c).mp hin).2.1 hfree⟩
  · obtain ⟨cs, hcs⟩ := Option.isSome_iff_exists.mp (h.class_some c hc hfree)
    refine Or.inr ⟨hfree, (p.header c).slabSize, ⟨cs, hcs, ?_⟩, ?_⟩
    · exact (h.mem_class _ cs hcs c).mpr ⟨hc, hfree, rfl⟩
    · rintro s ⟨cs', hcs', hin⟩
      exact ((h.mem_class s cs' hcs' c).mp hin).2.2.symm

/-- `GetMallocsAppend` lists the blocks held. -/
theorem Live.getMallocsAppend {p : PersistMemoryPool} {live : List ℕ} (h : p.Live live)
    (hp : p.Inv) :
    ∃ l, p.getMallocsAppend = .ok l ∧ l.Nodup ∧ l.Perm live := by
  obtain ⟨l, hl, hnodup, hmem⟩ := hp.getMallocsAppend
  refine ⟨l, hl, hnodup, (List.perm_ext_iff_of_nodup hnodup h.nodup).mpr fun a => ?_⟩
  rw [hmem, h.mem]

/-- The blocks held are disjoint. -/
theorem RunInv.pairwise {n : ℕ} {p : PersistMemoryPool} {live : List ℕ} (h : RunInv n (p, live)) :
    live.Pairwise fun a b => p.slabEnd a ≤ p.slabStart b ∨ p.slabEnd b ≤ p.slabStart a := by
  refine h.live.nodup.imp_of_mem fun {a b} ha hb hne => ?_
  obtain ⟨c, i, hai, rfl⟩ := (h.live.mem a).mp ha
  obtain ⟨c', i', hai', rfl⟩ := (h.live.mem b).mp hb
  obtain ⟨hs, hc⟩ := h.inv.chunkOf_block hai
  obtain ⟨hs', hc'⟩ := h.inv.chunkOf_block hai'
  rw [slabEnd, slabEnd, hs, hs', hc, hc']
  refine h.inv.slabs_disjoint hai hai' fun heq => hne ?_
  obtain ⟨rfl, rfl⟩ := Prod.mk.inj heq
  rfl

theorem create_runInv {perfectFit : Bool} {memorySize : ℕ} {slabSizes : List ℕ}
    {p : PersistMemoryPool} (h : create perfectFit memorySize slabSizes = .ok p) :
    RunInv (memorySize / kChunkSize) (p, []) := by
  have hc := create_inv h
  refine ⟨hc.inv, ⟨List.nodup_nil, fun a => ?_, hc.total⟩, hc.nrChunks⟩
  refine iff_of_false List.not_mem_nil ?_
  rintro ⟨c, i, ha, -⟩
  exact hc.empty c i ha

/-- **The pool never hands out overlapping memory and counts exactly.** -/
theorem pool_run_exact {perfectFit : Bool} {memorySize : ℕ} {slabSizes : List ℕ}
    {p₀ p : PersistMemoryPool} (hcreate : create perfectFit memorySize slabSizes = .ok p₀)
    {ops : List Op} {live : List ℕ} (hrun : Run.run step (p₀, []) ops = some (p, live)) :
    live.Pairwise (fun a b => p.slabEnd a ≤ p.slabStart b ∨ p.slabEnd b ≤ p.slabStart a) ∧
      (∀ a ∈ live, p.chunkOf a < p.nrChunks ∧
        p.chunkOf a * kChunkSize + ChunkHeader.headerSize (p.header (p.chunkOf a)).nrEntries
          ≤ p.slabStart a ∧
        p.slabEnd a ≤ (p.chunkOf a + 1) * kChunkSize ∧
        (p.chunkOf a + 1) * kChunkSize ≤ memorySize) ∧
      (p.freeChunks.Nodup ∧ (∀ s cs, p.sizeToChunks s = some cs → cs.Nodup) ∧
        ∀ c < p.nrChunks, (c ∈ p.freeChunks ∧ ∀ s cs, p.sizeToChunks s = some cs → c ∉ cs) ∨
          (c ∉ p.freeChunks ∧ ∃! s, ∃ cs, p.sizeToChunks s = some cs ∧ c ∈ cs)) ∧
      (∀ c < p.nrChunks, (p.chunks c).allocatedEntries = (p.header c).bitmap.numberOfOnes) ∧
      p.totalMalloc = live.length ∧
      ∃ l, p.getMallocsAppend = .ok l ∧ l.Nodup ∧ l.Perm live := by
  have hr : RunInv (memorySize / kChunkSize) (p, live) :=
    Run.run_invariant (fun _ _ _ h hs => (h.step hs).1) (create_runInv hcreate) hrun
  have hpairwise := hr.pairwise
  obtain ⟨hinv, hlive, hN⟩ := hr
  refine ⟨hpairwise, fun a ha => ?_, ⟨hinv.free_nodup, hinv.class_nodup, fun c hc =>
    hinv.chunk_partition hc⟩, fun c hc => ?_, hlive.total, ?_⟩
  · obtain ⟨c, i, hai, rfl⟩ := (hlive.mem a).mp ha
    obtain ⟨hs, hc⟩ := hinv.chunkOf_block hai
    obtain ⟨hlo, hhi⟩ := (hinv.usedChunk hai).slab_in_chunk (hinv.lt_nrEntries hai)
    rw [slabEnd, hs, hc]
    refine ⟨hai.1, hlo, hhi, ?_⟩
    have hlt : c + 1 ≤ memorySize / kChunkSize := hN ▸ hai.1
    exact (Nat.mul_le_mul_right _ hlt).trans (Nat.div_mul_le_self _ _)
  · rw [hinv.count hc, BitMap.numberOfOnes_eq]
  · exact hlive.getMallocsAppend hinv

theorem pool_run_exact_two_slabs :
    ∃ p₀ p live, create false (4 * kChunkSize) [40, 72] = .ok p₀ ∧
      Run.run step (p₀, []) [.new 30, .new 60, .new 32, .free 6560] = some (p, live) ∧
      live.length = 2 ∧ p.totalMalloc = 2 := by
  have heval : ((create false (4 * kChunkSize) [40, 72]).toOption.any fun p₀ =>
      (Run.run step (p₀, []) [.new 30, .new 60, .new 32, .free 6560]).any fun s =>
        decide (s.2.length = 2)) = true := by
    decide +kernel
  simp only [Option.any_eq_true, decide_eq_true_eq] at heval
  obtain ⟨p₀, hcreate, ⟨p, live⟩, hrun, hlen⟩ := heval
  obtain ⟨-, -, -, -, htotal, -⟩ := pool_run_exact (eq_ok_of_toOption hcreate) hrun
  exact ⟨p₀, p, live, eq_ok_of_toOption hcreate, hrun, hlen, by rw [htotal, hlen]; rfl⟩

end PersistMemoryPool

end PetPS

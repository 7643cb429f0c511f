import Mathlib.Algebra.BigOperators.Group.Finset.Sigma
import Mathlib.Order.Interval.Finset.Nat
import PetPS.Memory.PoolRun

/-!
# Opening an existing pool

Everything volatile is computed from the headers. `recovered p done` is the pool after the
constructor has gone through the chunks `done`; the loop is then one equation per chunk. A pool that
is closed and opened again has the same allocated slabs at the same addresses.

## Main results

* `reopen_eq` — what the constructor makes of a file
* `Inv.reopened`, `Live.reopened` — a pool in order is opened in order, with the same blocks
* `pool_reopen_exact` — closing and opening after any run, and any run after that
-/

namespace PetPS

/-- The number of slabs that recovery finds in a chunk. -/
def PoolFile.usedBits (file : PoolFile) (c : ℕ) : ℕ :=
  if (file.header c).isUsed then (file.header c).bitmap.numberOfOnes else 0

/-- Every chunk in use has one of the slab sizes. -/
def PoolFile.Classed (file : PoolFile) (nrChunks : ℕ) (slabSizes : List ℕ) : Prop :=
  ∀ c < nrChunks, (file.header c).isUsed = true → (file.header c).slabSize ∈ slabSizes

namespace PersistMemoryPool

/-! ### The recovery loop -/

/-- The pool `p` after the recovery of the chunks `done`. -/
def recovered (p : PersistMemoryPool) (done : List ℕ) : PersistMemoryPool :=
  { p with
    chunks := fun c =>
      if c ∈ done ∧ (p.header c).isUsed = true then
        ⟨c * kChunkSize + ChunkHeader.headerSize (p.header c).nrEntries, true,
          (p.header c).bitmap.numberOfOnes⟩
      else p.chunks c
    freeChunks := p.freeChunks ++ done.filter fun c => !(p.header c).isUsed
    sizeToChunks := fun s => (p.sizeToChunks s).map fun cs =>
      cs ++ done.filter fun c => (p.header c).isUsed && (p.header c).slabSize == s
    totalMalloc := p.totalMalloc + (done.map p.file.usedBits).sum }

theorem recovered_nil (p : PersistMemoryPool) : p.recovered [] = p := by
  simp [recovered]

/-- A chunk in no class goes to the queue. -/
theorem recovered_unused {p : PersistMemoryPool} {done : List ℕ} {c : ℕ}
    (hu : (p.header c).isUsed = false) :
    ({ p.recovered done with freeChunks := (p.recovered done).freeChunks ++ [c] } :
      PersistMemoryPool)
      = p.recovered (done ++ [c]) := by
  have hchunks : ∀ c', ((c' ∈ done ∨ c' = c) ∧ (p.header c').isUsed = true) ↔
      (c' ∈ done ∧ (p.header c').isUsed = true) := fun c' => by
    constructor
    · rintro ⟨hc | rfl, hu'⟩
      · exact ⟨hc, hu'⟩
      · rw [hu] at hu'
        cases hu'
    · exact fun hc => ⟨Or.inl hc.1, hc.2⟩
  have hbits : p.file.usedBits c = 0 := if_neg (by rw [header] at hu; simp [hu])
  simp [recovered, hu, hchunks, List.filter_append, hbits]

/-- A chunk in a class goes to the class and is counted. -/
theorem recovered_used {p : PersistMemoryPool} {done chunks : List ℕ} {c : ℕ}
    (hu : (p.header c).isUsed = true) (hc : c ∉ done) (hk : (p.chunks c).isRecovered = false)
    (hclass : (p.recovered done).sizeToChunks (p.header c).slabSize = some chunks) :
    let q : PersistMemoryPool := { p.recovered done with
      sizeToChunks := Function.update (p.recovered done).sizeToChunks (p.header c).slabSize
        (some (chunks ++ [c])) }
    ({ q.recovery c with
        totalMalloc := (q.recovery c).totalMalloc + ((q.recovery c).chunks c).allocatedEntries } :
          PersistMemoryPool)
      = p.recovered (done ++ [c]) := by
  intro q
  have hk' : q.chunks c = p.chunks c := if_neg fun h => hc h.1
  have hrec : q.recovery c = q.setChunk c
      ⟨c * kChunkSize + ChunkHeader.headerSize (p.header c).nrEntries, true,
        (p.header c).bitmap.numberOfOnes⟩ := by
    rw [recovery, hk', hk]
    rfl
  have hbits : p.file.usedBits c = (p.header c).bitmap.numberOfOnes := if_pos hu
  have hchunks : Function.update (p.recovered done).chunks c
      ⟨c * kChunkSize + ChunkHeader.headerSize (p.header c).nrEntries, true,
        (p.header c).bitmap.numberOfOnes⟩ = (p.recovered (done ++ [c])).chunks := by
    funext c'
    by_cases hne : c' = c
    · subst hne
      simp [recovered, hu]
    · simp [recovered, hne]
  have hclasses : q.sizeToChunks = (p.recovered (done ++ [c])).sizeToChunks := by
    funext s
    by_cases hs : s = (p.header c).slabSize
    · subst hs
      simp only [recovered, Option.map_eq_some_iff] at hclass
      obtain ⟨cs, hcs, rfl⟩ := hclass
      simp [q, recovered, hcs, hu, List.filter_append]
    · have hs' : ((p.header c).slabSize == s) = false := beq_false_of_ne (Ne.symm hs)
      simp [q, recovered, hs, hs', List.filter_append]
  have hfree : (p.recovered done).freeChunks = (p.recovered (done ++ [c])).freeChunks := by
    simp [recovered, List.filter_append, hu]
  rw [hrec]
  refine PersistMemoryPool.ext rfl rfl rfl rfl hchunks hfree hclasses rfl ?_
  simp only [setChunk, Function.update_self]
  simp only [q, recovered, List.map_append, List.map_singleton, List.sum_append, List.sum_singleton,
    hbits]
  omega

/-- **The recovery loop.** -/
theorem recoverLoop_eq {p : PersistMemoryPool} : ∀ (cs done : List ℕ), (done ++ cs).Nodup →
    (∀ c ∈ cs, (p.chunks c).isRecovered = false) →
    (∀ c ∈ cs, (p.header c).isUsed = true → (p.sizeToChunks (p.header c).slabSize).isSome = true) →
      (p.recovered done).recoverLoop cs = .ok (p.recovered (done ++ cs)) := by
  intro cs
  induction cs with
  | nil => intro done _ _ _; rw [List.append_nil]; rfl
  | cons c cs ih =>
    intro done hnodup hk hclass
    have hc : c ∉ done := fun hin =>
      (List.nodup_append.mp hnodup).2.2 c hin c List.mem_cons_self rfl
    have hnext : (p.recovered (done ++ [c])).recoverLoop cs =
      .ok (p.recovered (done ++ c :: cs)) := by
      have := ih (done ++ [c]) (by rwa [List.append_assoc, List.singleton_append])
        (fun c' hc' => hk c' (List.mem_cons_of_mem c hc'))
        (fun c' hc' => hclass c' (List.mem_cons_of_mem c hc'))
      rwa [List.append_assoc, List.singleton_append] at this
    have hheader : (p.recovered done).header = p.header := rfl
    rw [recoverLoop, hheader]
    by_cases hu : (p.header c).isUsed = true
    · rw [if_pos hu]
      obtain ⟨cs₀, hcs₀⟩ := Option.isSome_iff_exists.mp (hclass c List.mem_cons_self hu)
      cases hcls : (p.recovered done).sizeToChunks (p.header c).slabSize with
      | none => simp [recovered, hcs₀] at hcls
      | some chunks =>
        have hstep := recovered_used hu hc (hk c List.mem_cons_self) hcls
        simp only at hstep ⊢
        rw [hstep, hnext]
    · rw [if_neg hu, recovered_unused (by simpa using hu), hnext]

/-! ### The constructor -/

/-- The pool before the recovery of the chunks. -/
def unrecovered (perfectFit : Bool) (file : PoolFile) (nrChunks : ℕ) (slabSizes : List ℕ) :
    PersistMemoryPool where
  perfectFit := perfectFit
  allocatedSlabSizes := slabSizes
  nrChunks := nrChunks
  file := file
  chunks _ := ⟨0, false, 0⟩
  freeChunks := []
  sizeToChunks s := if s ∈ slabSizes then some [] else none
  sizeToLastUsedChunk _ := none
  totalMalloc := 0

/-- The constructor on a file that did not exist. -/
theorem create_eq {perfectFit : Bool} {memorySize : ℕ} {slabSizes : List ℕ} {p : PersistMemoryPool}
    (h : create perfectFit memorySize slabSizes = .ok p) :
    p = (unrecovered perfectFit PoolFile.zeroed
      (memorySize / kChunkSize) slabSizes).initializeChunks := by
  have hcreated := create_inv h
  rw [create, construct] at h
  simp only [if_neg (not_lt.mpr hcreated.space), if_neg (not_lt.mpr hcreated.room),
    Except.ok.injEq] at h
  exact h.symm

/-- **The constructor on an existing file** completes when every chunk in use has a class. -/
theorem reopen_eq {perfectFit : Bool} {file : PoolFile} {memorySize : ℕ} {slabSizes : List ℕ}
    (hspace : memorySize ≤ userSpace) (hroom : slabSizes.length ≤ memorySize / kChunkSize)
    (hclass : file.Classed (memorySize / kChunkSize) slabSizes) :
    reopen perfectFit file memorySize slabSizes =
      .ok ((unrecovered perfectFit file (memorySize / kChunkSize) slabSizes).recovered
        (List.range (memorySize / kChunkSize))) := by
  rw [reopen, construct]
  simp only [if_neg (not_lt.mpr hspace), if_neg (not_lt.mpr hroom)]
  have hloop := recoverLoop_eq
    (p := unrecovered perfectFit file (memorySize / kChunkSize) slabSizes)
    (List.range (memorySize / kChunkSize)) [] List.nodup_range (fun _ _ => rfl)
    fun c hc hu => by
      have hmem : (file.header c).slabSize ∈ slabSizes := hclass c (List.mem_range.mp hc) hu
      simp [unrecovered, header, hmem]
  rw [recovered_nil, List.nil_append] at hloop
  exact hloop

/-- The number of blocks that the constructor counts. -/
theorem recovered_totalMalloc (perfectFit : Bool) (file : PoolFile) (nrChunks : ℕ)
    (slabSizes : List ℕ) :
    ((unrecovered perfectFit file nrChunks slabSizes).recovered (List.range nrChunks)).totalMalloc
      = ((∑ c ∈ Finset.range nrChunks, file.usedBits c : ℕ) : ℤ) := by
  rw [recovered, ← List.toFinset_range, List.sum_toFinset _ List.nodup_range]
  exact Int.zero_add _

/-! ### Closing and opening -/

section Reopen

variable {p : PersistMemoryPool}

theorem Inv.classed (h : p.Inv) :
    p.file.Classed p.nrChunks p.allocatedSlabSizes := fun c hc hu => by
  refine h.class_mem _ (h.class_some c hc fun hfree => ?_)
  have := (h.free c hfree).unused
  rw [header, hu] at this
  cases this

/-- The bits that recovery counts are the allocated slabs. -/
theorem Inv.usedBits (h : p.Inv) {c : ℕ} (hc : c < p.nrChunks) :
    p.file.usedBits c = (p.header c).bitmap.ones.card := by
  rw [PoolFile.usedBits, ← header]
  by_cases hfree : c ∈ p.freeChunks
  · rw [(h.free c hfree).unused, (h.free c hfree).ones]
    rfl
  · rw [(h.used c hc hfree).used, if_pos rfl, BitMap.numberOfOnes_eq]

/-- **The blocks of a pool in order**, counted by their bits. -/
theorem Live.length_eq {live : List ℕ} (hlive : p.Live live) (h : p.Inv) :
    live.length = ∑ c ∈ Finset.range p.nrChunks, p.file.usedBits c := by
  have himage : live.toFinset = ((Finset.range p.nrChunks).sigma fun c =>
      (p.header c).bitmap.ones).image fun x => p.entry x.1 x.2 + p.metaSize := by
    ext a
    rw [List.mem_toFinset, hlive.mem, Finset.mem_image]
    constructor
    · rintro ⟨c, i, ha, rfl⟩
      exact ⟨⟨c, i⟩, Finset.mem_sigma.mpr ⟨Finset.mem_range.mpr ha.1, ha.2⟩, rfl⟩
    · rintro ⟨⟨c, i⟩, hx, rfl⟩
      obtain ⟨hc, hi⟩ := Finset.mem_sigma.mp hx
      exact ⟨c, i, ⟨Finset.mem_range.mp hc, hi⟩, rfl⟩
  rw [← List.toFinset_card_of_nodup hlive.nodup, himage, Finset.card_image_of_injOn,
    Finset.card_sigma]
  · exact Finset.sum_congr rfl fun c hc => (h.usedBits (Finset.mem_range.mp hc)).symm
  · rintro ⟨c, i⟩ hx ⟨c', i'⟩ hx' heq
    obtain ⟨hc, hi⟩ := Finset.mem_sigma.mp hx
    obtain ⟨hc', hi'⟩ := Finset.mem_sigma.mp hx'
    obtain ⟨rfl, rfl⟩ := h.entry_inj ⟨Finset.mem_range.mp hc, hi⟩ ⟨Finset.mem_range.mp hc', hi'⟩
      (Nat.add_right_cancel heq)
    rfl

/-- The pool, closed and opened again. -/
def reopened (p : PersistMemoryPool) : PersistMemoryPool :=
  (unrecovered p.perfectFit p.file p.nrChunks p.allocatedSlabSizes).recovered
    (List.range p.nrChunks)

theorem Inv.isUsed_iff (h : p.Inv) {c : ℕ} (hc : c < p.nrChunks) :
    c ∉ p.freeChunks ↔ (p.header c).isUsed = true := by
  constructor
  · exact fun hf => (h.used c hc hf).used
  · intro hu hf
    rw [(h.free c hf).unused] at hu
    cases hu

theorem Inv.mem_freeChunks_reopened (h : p.Inv) {c : ℕ} :
    c ∈ p.reopened.freeChunks ↔ c ∈ p.freeChunks := by
  change c ∈ [] ++ (List.range p.nrChunks).filter (fun c => !(p.header c).isUsed) ↔ _
  rw [List.nil_append, List.mem_filter, List.mem_range, Bool.not_eq_true']
  constructor
  · rintro ⟨hc, hu⟩
    by_contra hf
    rw [(h.isUsed_iff hc).mp hf] at hu
    cases hu
  · exact fun hf => ⟨h.free_lt c hf, (h.free c hf).unused⟩

/-- The chunks in use are recovered, the others are not. -/
theorem Inv.chunks_reopened (h : p.Inv) {c : ℕ} (hc : c < p.nrChunks) :
    (c ∉ p.freeChunks → p.reopened.chunks c =
        ⟨c * kChunkSize + ChunkHeader.headerSize (p.header c).nrEntries, true,
          (p.header c).bitmap.numberOfOnes⟩) ∧
      (c ∈ p.freeChunks → p.reopened.chunks c = ⟨0, false, 0⟩) := by
  constructor
  · exact fun hf => if_pos ⟨List.mem_range.mpr hc, (h.isUsed_iff hc).mp hf⟩
  · exact fun hf => if_neg fun hx => (h.isUsed_iff hc).mpr hx.2 hf

theorem Inv.sizeToChunks_reopened (h : p.Inv) {s : ℕ} {cs : List ℕ}
    (hs : p.reopened.sizeToChunks s = some cs) :
    cs.Nodup ∧ ∀ c, c ∈ cs ↔ c < p.nrChunks ∧ c ∉ p.freeChunks ∧ (p.header c).slabSize = s := by
  simp only [reopened, recovered, Option.map_eq_some_iff] at hs
  obtain ⟨cs₀, hcs₀, rfl⟩ := hs
  have hnil : cs₀ = [] := by
    simp only [unrecovered] at hcs₀
    split_ifs at hcs₀
    exact (Option.some.inj hcs₀).symm
  subst hnil
  rw [List.nil_append]
  refine ⟨List.nodup_range.filter _, fun c => ?_⟩
  rw [List.mem_filter, List.mem_range, Bool.and_eq_true, beq_iff_eq]
  exact and_congr_right fun hc => and_congr_left fun _ => (h.isUsed_iff hc).symm

theorem isSome_sizeToChunks_reopened (p : PersistMemoryPool) (s : ℕ) :
    (p.reopened.sizeToChunks s).isSome = true ↔ s ∈ p.allocatedSlabSizes := by
  simp only [reopened, recovered, unrecovered, Option.isSome_map]
  split_ifs with hmem
  · exact iff_of_true rfl hmem
  · exact iff_of_false (by simp) hmem

/-- **A pool in order is opened in order.** -/
theorem Inv.reopened (h : p.Inv) : p.reopened.Inv := by
  have hheader : p.reopened.header = p.header := rfl
  refine ⟨List.nodup_range.filter _, fun c hc => h.free_lt c (h.mem_freeChunks_reopened.mp hc),
    fun c hc => ?_, fun c hc hn => ?_, fun s cs hs => (h.sizeToChunks_reopened hs).1,
    fun s cs hs c => ?_, fun c hc hn => ?_,
    fun s hs => (isSome_sizeToChunks_reopened p s).mp hs, fun s c hs => ?_⟩
  · have hf := h.mem_freeChunks_reopened.mp hc
    have hfree := h.free c hf
    refine ⟨hfree.unused, hfree.entries, hfree.bits, ?_⟩
    rw [(h.chunks_reopened (h.free_lt c hf)).2 hf]
  · rw [h.mem_freeChunks_reopened] at hn
    have hu := h.used c hc hn
    refine ⟨?_, ?_, ?_, ?_, ?_, ?_, ?_, ?_⟩ <;>
      simp only [hheader, (h.chunks_reopened hc).1 hn]
    exacts [hu.used, hu.align, hu.slab_pos, hu.fits, hu.bits, by rw [BitMap.numberOfOnes_eq]]
  · rw [(h.sizeToChunks_reopened hs).2, h.mem_freeChunks_reopened]
    rfl
  · rw [h.mem_freeChunks_reopened] at hn
    exact (isSome_sizeToChunks_reopened p _).mpr (h.class_mem _ (h.class_some c hc hn))
  · cases hs

/-- **Its slabs are where they were.** -/
theorem Inv.extends_reopened (h : p.Inv) : Extends p p.reopened := by
  refine ⟨⟨rfl, rfl, rfl⟩, fun c i ha => ?_, fun _ _ _ => rfl⟩
  have hu := h.usedChunk ha
  rw [entry, entry, (h.chunks_reopened ha.1).1 ((h.isUsed_iff ha.1).mpr hu.used), hu.data]
  rfl

theorem Live.reopened {live : List ℕ} (hlive : p.Live live) (h : p.Inv) : p.reopened.Live live := by
  refine ⟨hlive.nodup, fun a => ?_, ?_⟩
  · rw [hlive.mem]
    refine exists_congr fun c => exists_congr fun i => and_congr_right fun ha => ?_
    rw [h.extends_reopened.entry c i ha]
    rfl
  · rw [PersistMemoryPool.reopened, recovered_totalMalloc, hlive.length_eq h]

end Reopen

/-! ### Runs across a restart -/

/-- The slab of a block that is allocated before and after. -/
theorem Extends.slab_eq {p p' : PersistMemoryPool} (h : Extends p p') (hp : p.Inv) (hp' : p'.Inv)
    {a c i : ℕ} (ha : p.Allocated c i) (ha' : p'.Allocated c i)
    (heq : a = p.entry c i + p.metaSize) :
    p'.slabStart a = p.slabStart a ∧ p'.slabEnd a = p.slabEnd a := by
  have heq' : a = p'.entry c i + p'.metaSize := by rw [heq, h.entry c i ha, h.metaSize]
  have hold := hp.chunkOf_block ha
  have hnew := hp'.chunkOf_block ha'
  rw [← heq] at hold
  rw [← heq'] at hnew
  refine ⟨?_, ?_⟩
  · rw [hnew.1, hold.1, h.entry c i ha]
  · rw [slabEnd, slabEnd, hnew.1, hnew.2, hold.1, hold.2, h.entry c i ha, h.slab c i ha]

/-- What is known of the blocks held in `s₀`, some calls later. -/
structure Keeps (n : ℕ) (s₀ : PersistMemoryPool × List ℕ) (ops : List Op)
    (s : PersistMemoryPool × List ℕ) : Prop where
  run : RunInv n s
  layout : SameLayout s₀.1 s.1
  /-- A block that has not been freed is held, and its slab is where it was. -/
  held : ∀ a ∈ s₀.2, .free a ∉ ops →
    a ∈ s.2 ∧ s.1.slabStart a = s₀.1.slabStart a ∧ s.1.slabEnd a = s₀.1.slabEnd a

theorem RunInv.keeps {n : ℕ} {s : PersistMemoryPool × List ℕ} (h : RunInv n s) : Keeps n s [] s :=
  ⟨h, ⟨rfl, rfl, rfl⟩, fun _ ha _ => ⟨ha, rfl, rfl⟩⟩

theorem Keeps.step {n : ℕ} {s₀ s s' : PersistMemoryPool × List ℕ} {ops : List Op} {op : Op}
    (h : Keeps n s₀ ops s) (hstep : PersistMemoryPool.step s op = some s') :
    Keeps n s₀ (ops ++ [op]) s' := by
  obtain ⟨hrun, hext, hheld⟩ := h.run.step hstep
  refine ⟨hrun, h.layout.trans hext.toSameLayout, fun a ha hfree => ?_⟩
  rw [List.mem_append, List.mem_singleton, not_or] at hfree
  obtain ⟨hin, hstart, hend⟩ := h.held a ha hfree.1
  obtain ⟨c, i, hai, heq⟩ := (h.run.live.mem a).mp hin
  have hai' := hheld c i hai (heq ▸ Ne.symm hfree.2)
  obtain ⟨hs, he⟩ := hext.slab_eq h.run.inv hrun.inv hai hai' heq
  refine ⟨(hrun.live.mem a).mpr ⟨c, i, hai', ?_⟩, hs.trans hstart, he.trans hend⟩
  rw [heq, hext.entry c i hai, hext.metaSize]

/-- The blocks held when a run ends. -/
theorem RunInv.keeps_run {n : ℕ} {s s' : PersistMemoryPool × List ℕ} {ops : List Op}
    (h : RunInv n s) (hrun : Run.run PersistMemoryPool.step s ops = some s') : Keeps n s ops s' :=
  Run.run_history (P := Keeps n s) (G := fun _ _ => True) (fun _ _ _ _ hk _ hs => hk.step hs) []
    h.keeps (Run.guarded_of_forall (fun _ _ => trivial) s ops) hrun

/-- **A pool survives a restart.** The new object finds the blocks of the old one, and what it hands
out later does not touch those that have not been freed. -/
theorem pool_reopen_exact {perfectFit : Bool} {memorySize : ℕ} {slabSizes : List ℕ}
    {p₀ p : PersistMemoryPool} (hcreate : create perfectFit memorySize slabSizes = .ok p₀)
    {ops : List Op} {live : List ℕ} (hrun : Run.run step (p₀, []) ops = some (p, live)) :
    ∃ p₁, reopen perfectFit p.file memorySize slabSizes = .ok p₁ ∧
      (∃ l l₁, p.getMallocsAppend = .ok l ∧ p₁.getMallocsAppend = .ok l₁ ∧ l.Perm live ∧
        l₁.Perm live ∧ l₁.Nodup) ∧
      p₁.totalMalloc = p.totalMalloc ∧
      (∀ a ∈ live, p₁.getMallocSize a = p.getMallocSize a) ∧
      ∀ (ops₁ : List Op) (p₂ : PersistMemoryPool) (live₂ : List ℕ),
        Run.run step (p₁, live) ops₁ = some (p₂, live₂) →
        live₂.Pairwise (fun a b => p₂.slabEnd a ≤ p₂.slabStart b ∨ p₂.slabEnd b ≤ p₂.slabStart a) ∧
        ∀ a ∈ live, .free a ∉ ops₁ →
          a ∈ live₂ ∧ p₂.slabStart a = p.slabStart a ∧ p₂.slabEnd a = p.slabEnd a := by
  have hc := create_inv hcreate
  have hk := (create_runInv hcreate).keeps_run hrun
  obtain ⟨hinv, hlive, hN⟩ := hk.run
  have hmode : p.perfectFit = perfectFit := hk.layout.perfectFit.trans hc.mode
  have hslabs : p.allocatedSlabSizes = slabSizes := hk.layout.slabSizes.trans hc.slabs
  have hopen : reopen perfectFit p.file memorySize slabSizes = .ok p.reopened := by
    have hclass := hinv.classed
    rw [hN, hslabs] at hclass
    rw [reopen_eq hc.space hc.room hclass, PersistMemoryPool.reopened, hmode, hslabs, hN]
  have hlive₁ := hlive.reopened hinv
  obtain ⟨l, hl, -, hperm⟩ := hlive.getMallocsAppend hinv
  obtain ⟨l₁, hl₁, hnodup₁, hperm₁⟩ := hlive₁.getMallocsAppend hinv.reopened
  refine ⟨p.reopened, hopen, ⟨l, l₁, hl, hl₁, hperm, hperm₁, hnodup₁⟩,
    hlive₁.total.trans hlive.total.symm, fun _ _ => rfl, fun ops₁ p₂ live₂ hrun₁ => ?_⟩
  have hopened : RunInv (memorySize / kChunkSize) (p.reopened, live) := ⟨hinv.reopened, hlive₁, hN⟩
  have hk₁ := hopened.keeps_run hrun₁
  -- the file is the same, so the slabs of the opened pool are those of the old one
  exact ⟨hk₁.run.pairwise, fun a ha hfree => hk₁.held a ha hfree⟩

theorem pool_reopen_exact_two_slabs :
    ∃ p₀ p live p₁, create false (4 * kChunkSize) [40, 72] = .ok p₀ ∧
      Run.run step (p₀, []) [.new 30, .new 60, .new 32] = some (p, live) ∧
      reopen false p.file (4 * kChunkSize) [40, 72] = .ok p₁ ∧ p₁.totalMalloc = 3 := by
  have heval : ((create false (4 * kChunkSize) [40, 72]).toOption.any fun p₀ =>
      (Run.run step (p₀, []) [.new 30, .new 60, .new 32]).any fun s =>
        decide (s.1.totalMalloc = 3)) = true := by
    decide +kernel
  simp only [Option.any_eq_true, decide_eq_true_eq] at heval
  obtain ⟨p₀, hcreate, ⟨p, live⟩, hrun, htotal⟩ := heval
  obtain ⟨p₁, hopen, -, htotal₁, -⟩ := pool_reopen_exact (eq_ok_of_toOption hcreate) hrun
  exact ⟨p₀, p, live, p₁, eq_ok_of_toOption hcreate, hrun, hopen, htotal₁.trans htotal⟩

end PersistMemoryPool

end PetPS

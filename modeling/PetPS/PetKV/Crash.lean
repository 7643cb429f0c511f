import PetPS.PetKV.Stores

/-!
# Killing the process during an `Update`

The mapped files keep the stores made so far, so a kill leaves the image after a first part of the
stores of one `Update`. The constructor counts the bits of the pool and the keys of the
dictionary; it completes only when they agree. Whether they do depends on where the `Update`
was cut:

* before the bit of the new block is set, the files are those between two calls, and the blocks that
  wait in the recycling queue are counted against the store;
* an `Update` of a new key is one block ahead until the size of the dictionary is stored;
* an `Update` of a key that is there is one block ahead until the recycler has freed every block of
  its queue, the old block last.

## Main results

* `crash_recovers_iff` — at which cuts the store is recovered
-/

namespace PetPS

namespace PetKV

open Cut PersistMemoryPool

/-! ### Statements -/

/-- The store makes a block. -/
def Store.allocates : Store → Bool
  | .pool a => a.allocates
  | .dict _ => false

/-- The store frees a block. -/
def Store.frees : Store → Bool
  | .pool a => a.frees
  | .dict _ => false

/-- The store is to the size of the dictionary. -/
def Store.counts : Store → Bool
  | .pool _ => false
  | .dict a => a.counts

/-- Opening the files after `calls` and a part of `c`: the constructor completes, every other
key has its last value, and the key of `c` its old or its new one. -/
def Recovers (memorySize capacity : ℕ) (calls : List Call) (c : Call) (im : Image) : Prop :=
  ∃ s', reopen memorySize capacity im = .ok s' ∧
    (∀ key, key ≠ c.key → s'.read key = .ok (lastLog calls key)) ∧
    (s'.read c.key = .ok (lastLog calls c.key) ∨ s'.read c.key = .ok (some c.log))

/-- The condition on the store before the call and on the stores made: no entry has the key
`-1`; and no block had been made and none was waiting; or the key is new, not `-1`, evicts nothing,
no block was waiting, and the size has been stored; or the key is there and every block that was
waiting has been freed, and the old one too. -/
def CutSafe (s : PetKV) (c : Call) (done : List Store) : Prop :=
  s.dict.Absent emptyKey ∧
    ((done.any Store.allocates = false ∧ s.pool.totalMalloc = s.dict.size) ∨
      (s.dict.Absent c.key ∧ ¬ s.dict.Crowded c.key ∧ c.key ≠ emptyKey ∧
        s.pool.totalMalloc = s.dict.size ∧ done.any Store.counts = true) ∨
      (¬ s.dict.Absent c.key ∧
        (done.countP Store.frees : ℤ) = s.pool.totalMalloc - s.dict.size + 1))

/-! ### What the constructor makes of an image -/

/-- The entries lead to what `spec` says. -/
structure Legible (entries : Multiset (EntryT PetKVData)) (m : Bytes.Mem)
    (spec : UInt64 → Option (List UInt8)) : Prop where
  stored : ∀ key v, ⟨key, v⟩ ∈ entries → ∃ log, spec key = some log ∧ Holds m (blockOf ⟨key, v⟩) log
  absent : ∀ key, (∀ v, ⟨key, v⟩ ∉ entries) → spec key = none

theorem Legible.read {s : PetKV} {spec : UInt64 → Option (List UInt8)} (hdict : s.dict.Inv)
    (hmode : s.pool.perfectFit = false) (h : Legible s.dict.entries s.pool.file.bytes spec)
    (key : UInt64) : s.read key = .ok (spec key) := by
  by_cases habs : s.dict.Absent key
  · rw [read_of_absent hdict habs, h.absent key habs]
  · rw [PetHash.Absent] at habs
    push Not at habs
    obtain ⟨v, hv⟩ := habs
    obtain ⟨log, hspec, hholds⟩ := h.stored key v hv
    rw [read_of_holds hdict hmode hv hholds, hspec]

section Opening

variable {memorySize capacity : ℕ} {im : Image} {calls : List Call} {c : Call}

/-- Too few keys, or a dictionary that is discarded. -/
theorem Openable.not_recovers_of_torn (h : Openable memorySize capacity im) {n : ℕ}
    (ht : im.dict.Torn n) (hb : n < im.blocks memorySize) :
    ¬ Recovers memorySize capacity calls c im := by
  rintro ⟨s', hs', -⟩
  rcases h.blocks_of_reopen hs' with ⟨hvalid, hcount⟩ | ⟨-, hzero⟩
  · rcases ht with hle | hinvalid
    · omega
    · exact hinvalid _ hvalid
  · omega

/-- **A dictionary in order** with `k` fewer entries than there are blocks. -/
theorem Openable.recovers_iff (h : Openable memorySize capacity im) (hinv : im.dict.Inv) {k : ℕ}
    (hb : im.blocks memorySize = im.dict.entries.card + k)
    (hlegible : k = 0 → Legible im.dict.entries im.file.bytes (lastLog calls) ∨
      Legible im.dict.entries im.file.bytes (lastLog (calls ++ [c]))) :
    Recovers memorySize capacity calls c im ↔ im.dict.Absent emptyKey ∧ k = 0 := by
  constructor
  · rintro ⟨s', hs', -⟩
    obtain ⟨hle, habsent⟩ := hinv.shape.card_keyedEntries_le
    rcases h.blocks_of_reopen hs' with ⟨-, hcount⟩ | ⟨hinvalid, -⟩
    · exact ⟨habsent (by omega), by omega⟩
    · rw [h.valid hinv] at hinvalid
      cases hinvalid
  · rintro ⟨habs, rfl⟩
    obtain ⟨hre, hkeyed⟩ := hinv.reloadable habs
    obtain ⟨dict, hdict, hent, -, hrun⟩ := h.reopen_eq (h.valid hinv) hre (by rw [hkeyed, hb]; rfl)
    rw [hkeyed] at hent
    refine ⟨_, hrun, ?_⟩
    rcases hlegible rfl with hl | hl
    · have hread := Legible.read (s := ⟨dict, (unrecovered false im.file (memorySize / kChunkSize)
        slabSizes).recovered (List.range (memorySize / kChunkSize)), []⟩) hdict rfl
        (by rw [hent]; exact hl)
      exact ⟨fun key _ => hread key, Or.inl (hread c.key)⟩
    · have hread := Legible.read (s := ⟨dict, (unrecovered false im.file (memorySize / kChunkSize)
        slabSizes).recovered (List.range (memorySize / kChunkSize)), []⟩) hdict rfl
        (by rw [hent]; exact hl)
      refine ⟨fun key hne => ?_, Or.inr ?_⟩
      · rw [hread key, lastLog_concat, if_neg hne.symm]
      · rw [hread c.key, lastLog_concat, if_pos rfl]

end Opening

/-! ### The store before the call -/

/-- The store before the call that is cut. -/
structure Before (memorySize capacity : ℕ) (s₀ : PetKV) (calls : List Call) (s : PetKV)
    (leaked : Multiset ℕ) : Prop where
  follows : Follows s₀ calls s
  inv : s.Inv leaked
  calm : leaked = 0 → Run.Guarded PetKV.step Calm s₀ calls
  sized : Sized memorySize capacity s
  int : capacity < 2 ^ 31

section Before

variable {memorySize capacity : ℕ} {s₀ s : PetKV} {calls : List Call}
    {leaked : Multiset ℕ} {c : Call}

theorem Before.openable (h : Before memorySize capacity s₀ calls s leaked)
    {dict : PetHash PetKVData} {file : PoolFile} (hN : dict.chunkNum = s.dict.chunkNum)
    (hcap : dict.capacity = s.dict.capacity)
    (hclassed : file.Classed s.pool.nrChunks s.pool.allocatedSlabSizes) :
    Openable memorySize capacity ⟨dict, file⟩ := by
  refine ⟨h.sized.space, h.sized.room, ?_, h.int, hN.trans h.sized.chunkNum, ?_⟩
  · rwa [h.sized.nrChunks, h.inv.slabs] at hclassed
  · change dict.capacity = dict.chunkNum * 14
    rw [hcap, hN, h.inv.dict.shape.capacity]

theorem Before.chunkNum_le (h : Before memorySize capacity s₀ calls s leaked) :
    s.dict.chunkNum ≤ 2 ^ 31 :=
  (h.openable rfl rfl h.inv.account.inv.classed).chunkNum_le

/-- The blocks of an image whose pool is accounted for. -/
theorem Before.blocks (h : Before memorySize capacity s₀ calls s leaked) {dict : PetHash PetKVData}
    {pool : PersistMemoryPool} {file : PoolFile} {kept : Multiset ℕ} {queue : List (ℕ × ℕ)}
    (hacc : Account pool kept queue) (hlayout : SameLayout s.pool pool)
    (hheader : file.header = pool.file.header) :
    Image.blocks ⟨dict, file⟩ memorySize = kept.card + queue.length := by
  rw [← hacc.blocks, hlayout.nrChunks, h.sized.nrChunks, Image.blocks]
  exact Finset.sum_congr rfl fun c _ => by rw [PoolFile.usedBits, PoolFile.usedBits, hheader]

theorem classed_of_header {pool : PersistMemoryPool} {file : PoolFile} (hinv : pool.Inv)
    (hlayout : SameLayout s.pool pool)
    (hheader : file.header = pool.file.header) :
    file.Classed s.pool.nrChunks s.pool.allocatedSlabSizes := by
  have hclassed := hinv.classed
  rw [hlayout.nrChunks, hlayout.slabSizes] at hclassed
  intro c hc hu
  rw [hheader] at hu ⊢
  exact hclassed c hc hu

theorem Before.legible (h : Before memorySize capacity s₀ calls s leaked) (hleak : leaked = 0) :
    Legible s.dict.entries s.pool.file.bytes (lastLog calls) := by
  refine ⟨fun key v hv => ?_, fun key habs => ?_⟩
  · obtain ⟨log, hlast, hc⟩ := h.follows.stored key v hv
    exact ⟨log, hlast, hc.holds⟩
  · exact (h.follows.absent key habs).resolve_right (not_evictedSince (h.calm hleak) key)

/-- The entries lead to the same bytes where blocks keep their contents. -/
theorem Before.legible_old (h : Before memorySize capacity s₀ calls s leaked) (hleak : leaked = 0)
    {m : Bytes.Mem}
    (hold : ∀ ptr bs, Contains s.pool ptr bs → Holds m ptr bs) :
    Legible s.dict.entries m (lastLog calls) := by
  refine ⟨fun key v hv => ?_, (h.legible hleak).absent⟩
  obtain ⟨log, hlast, hc⟩ := h.follows.stored key v hv
  exact ⟨log, hlast, hold _ _ hc⟩

theorem Before.legible_updated (h : Before memorySize capacity s₀ calls s leaked)
    (hleak : leaked = 0) {s' : PetKV} (hup : Updated s s' c.key c.log) (hdict : s'.dict.Inv)
    (hev : s.evicts c.key = none) :
    Legible s'.dict.entries s'.pool.file.bytes (lastLog (calls ++ [c])) := by
  obtain ⟨hstored, habsent⟩ := h.follows.updated hup hdict
  have hcalm : Run.Guarded PetKV.step Calm s₀ (calls ++ [c]) :=
    (Run.guarded_concat h.follows.run c).mpr ⟨h.calm hleak, hev⟩
  refine ⟨fun key v hv => ?_, fun key habs => ?_⟩
  · obtain ⟨log, hlast, hc⟩ := hstored key v hv
    exact ⟨log, hlast, hc.holds⟩
  · exact (habsent key habs).resolve_right (not_evictedSince hcalm key)

/-! ### The verdict at a cut -/

/-- **Before the bit is set.** -/
theorem Before.recovers_early (h : Before memorySize capacity s₀ calls s leaked) {file : PoolFile}
    (hq : Quiet s.pool.allocatedSlabSizes s.pool.file file) {done : List Store}
    (halloc : done.any Store.allocates = false) (hfrees : done.countP Store.frees = 0)
    (hcounts : done.any Store.counts = false) :
    Recovers memorySize capacity calls c ⟨s.dict, file⟩ ↔ CutSafe s c done := by
  have htotal := h.inv.total
  have hsize := h.inv.dict.size
  have hopen : Openable memorySize capacity ⟨s.dict, file⟩ :=
    h.openable rfl rfl (hq.classed _ h.inv.account.inv.classed)
  have hblocks : Image.blocks ⟨s.dict, file⟩ memorySize =
      s.dict.entries.card + (leaked.card + s.recyclePtr.length) := by
    have hb := h.inv.account.blocks
    rw [Multiset.card_add, Multiset.card_map, h.sized.nrChunks, Nat.add_assoc] at hb
    rw [← hb, Image.blocks]
    exact Finset.sum_congr rfl fun c _ => hq.usedBits c
  rw [hopen.recovers_iff h.inv.dict hblocks fun hk => Or.inl ?_, CutSafe, halloc, hfrees, hcounts]
  · refine and_congr_right fun _ => ⟨fun hk => Or.inl ⟨rfl, by rw [htotal, hk, hsize]; rfl⟩, ?_⟩
    rintro (⟨-, heq⟩ | ⟨-, -, -, -, hfalse⟩ | ⟨-, heq⟩)
    · omega
    · cases hfalse
    · omega
  · change Legible s.dict.entries file.bytes (lastLog calls)
    rw [hq.bytes]
    exact h.legible (Multiset.card_eq_zero.mp (by omega))

/-- **One block ahead**, with a dictionary that has no more keys than before or is discarded. -/
theorem Before.recovers_torn (h : Before memorySize capacity s₀ calls s leaked)
    {pool : PersistMemoryPool} {ptr : ℕ}
    (hacc : Account pool (ptr ::ₘ (s.dict.entries.map blockOf + leaked)) s.recyclePtr)
    (hlayout : SameLayout s.pool pool) {dict : PetHash PetKVData} {file : PoolFile}
    (hheader : file.header = pool.file.header) (hN : dict.chunkNum = s.dict.chunkNum)
    (hcap : dict.capacity = s.dict.capacity) (ht : dict.Torn s.dict.entries.card)
    {done : List Store}
    (halloc : done.any Store.allocates = true) (hfrees : done.countP Store.frees = 0)
    (hcounts : s.dict.Absent c.key → ¬ s.dict.Crowded c.key → done.any Store.counts = false) :
    Recovers memorySize capacity calls c ⟨dict, file⟩ ↔ CutSafe s c done := by
  have htotal := h.inv.total
  have hsize := h.inv.dict.size
  have hopen : Openable memorySize capacity ⟨dict, file⟩ :=
    h.openable hN hcap (classed_of_header hacc.inv hlayout hheader)
  refine iff_of_false (hopen.not_recovers_of_torn ht ?_) ?_
  · rw [h.blocks hacc hlayout hheader, Multiset.card_cons, Multiset.card_add, Multiset.card_map]
    omega
  · rw [CutSafe, halloc, hfrees]
    rintro ⟨-, ⟨hfalse, -⟩ | ⟨habs, hcalm, -, -, hcount⟩ | ⟨-, heq⟩⟩
    · cases hfalse
    · rw [hcounts habs hcalm] at hcount
      cases hcount
    · omega

/-- **A new key, once the size is stored.** -/
theorem Before.recovers_new (h : Before memorySize capacity s₀ calls s leaked)
    (habs : s.dict.Absent c.key) (hcalm : ¬ s.dict.Crowded c.key)
    {pool : PersistMemoryPool} {ptr : ℕ}
    (ha : Allocated s leaked pool ptr c.log) {dict : PetHash PetKVData} {v : PetKVData}
    (hdict : dict.Inv) (hent : dict.entries = ⟨c.key, v⟩ ::ₘ s.dict.entries)
    (hv : v.shmMallocOffset = ptr) (hN : dict.chunkNum = s.dict.chunkNum) {done : List Store}
    (halloc : done.any Store.allocates = true) (hcounts : done.any Store.counts = true) :
    Recovers memorySize capacity calls c ⟨dict, pool.file⟩ ↔ CutSafe s c done := by
  have htotal := h.inv.total
  have hsize := h.inv.dict.size
  have hev : s.evicts c.key = none := if_neg fun hx => hcalm hx.2
  have hcap : dict.capacity = s.dict.capacity := by
    rw [hdict.shape.capacity, hN, h.inv.dict.shape.capacity]
  have hopen : Openable memorySize capacity ⟨dict, pool.file⟩ :=
    h.openable hN hcap (classed_of_header ha.account.inv ha.layout rfl)
  obtain ⟨hup, -⟩ := h.inv.land hdict hent hv ha.account ha.contains
    le_rfl (fun k x _ => by simp [hev]) (fun e _ bs => ha.old _ bs) ha.layout hN
  have hblocks : Image.blocks ⟨dict, pool.file⟩ memorySize =
      dict.entries.card + (leaked.card + s.recyclePtr.length) := by
    rw [h.blocks ha.account ha.layout rfl, hent]
    simp only [Multiset.card_cons, Multiset.card_add, Multiset.card_map]
    omega
  have hempty : dict.Absent emptyKey ↔ c.key ≠ emptyKey ∧ s.dict.Absent emptyKey := by
    simp only [PetHash.Absent, hent, Multiset.mem_cons, EntryT.mk.injEq, not_or, not_and]
    constructor
    · exact fun hx => ⟨fun heq => (hx v).1 heq.symm rfl, fun w => (hx w).2⟩
    · exact fun hx w => ⟨fun heq => absurd heq.symm hx.1, hx.2 w⟩
  rw [hopen.recovers_iff hdict hblocks fun hk => Or.inr ?_, CutSafe, halloc, hcounts, hempty]
  · constructor
    · rintro ⟨⟨hne, hno⟩, hk⟩
      exact ⟨hno, Or.inr (Or.inl ⟨habs, hcalm, hne, by rw [htotal, hk, hsize]; rfl, rfl⟩)⟩
    · rintro ⟨hno, ⟨hfalse, -⟩ | ⟨-, -, hne, heq, -⟩ | ⟨hpres, -⟩⟩
      · cases hfalse
      · exact ⟨⟨hne, hno⟩, by omega⟩
      · exact absurd habs hpres
  · exact h.legible_updated (Multiset.card_eq_zero.mp (by omega)) hup hdict hev

/-- **A key that is there**, while the recycler frees blocks and afterwards. -/
theorem Before.recovers_old (h : Before memorySize capacity s₀ calls s leaked)
    (hpres : ¬ s.dict.Absent c.key) {dict : PetHash PetKVData} (hdict : dict.Inv)
    (hN : dict.chunkNum = s.dict.chunkNum)
    (hkeys : dict.entries.map EntryT.first = s.dict.entries.map EntryT.first)
    {pool : PersistMemoryPool} {kept : Multiset ℕ} {queue : List (ℕ × ℕ)}
    (hacc : Account pool kept queue) (hlayout : SameLayout s.pool pool)
    (hkept : kept.card = s.dict.entries.card + leaked.card) {done : List Store}
    (hlegible : leaked = 0 → Legible dict.entries pool.file.bytes (lastLog calls) ∨
      Legible dict.entries pool.file.bytes (lastLog (calls ++ [c])))
    (halloc : done.any Store.allocates = true)
    (hfrees : queue.length + done.countP Store.frees = s.recyclePtr.length + 1) :
    Recovers memorySize capacity calls c ⟨dict, pool.file⟩ ↔ CutSafe s c done := by
  have htotal := h.inv.total
  have hsize := h.inv.dict.size
  have hcap : dict.capacity = s.dict.capacity := by
    rw [hdict.shape.capacity, hN, h.inv.dict.shape.capacity]
  have hopen : Openable memorySize capacity ⟨dict, pool.file⟩ :=
    h.openable hN hcap (classed_of_header hacc.inv hlayout rfl)
  have hcard : dict.entries.card = s.dict.entries.card := by
    rw [← Multiset.card_map EntryT.first, hkeys, Multiset.card_map]
  have hblocks : Image.blocks ⟨dict, pool.file⟩ memorySize =
      dict.entries.card + (leaked.card + queue.length) := by
    rw [h.blocks hacc hlayout rfl, hkept, hcard]
    omega
  have hempty : dict.Absent emptyKey ↔ s.dict.Absent emptyKey := by
    rw [PetHash.absent_iff, hkeys, ← PetHash.absent_iff]
  rw [hopen.recovers_iff hdict hblocks fun hk => ?_, CutSafe, halloc, hempty]
  · refine and_congr_right fun _ => ⟨fun hk => Or.inr (Or.inr ⟨hpres, by omega⟩), ?_⟩
    rintro (⟨hfalse, -⟩ | ⟨habs, -⟩ | ⟨-, heq⟩)
    · cases hfalse
    · exact absurd habs hpres
    · omega
  · exact hlegible (Multiset.card_eq_zero.mp (by omega))

/-! ### The cuts of an `Update` -/

@[simp] theorem any_allocates_pool (as : List PoolStore) :
    (as.map Store.pool).any Store.allocates = as.any PoolStore.allocates := List.any_map

@[simp] theorem countP_frees_pool (as : List PoolStore) :
    (as.map Store.pool).countP Store.frees = as.countP PoolStore.frees := List.countP_map

@[simp] theorem any_counts_pool (as : List PoolStore) :
    (as.map Store.pool).any Store.counts = false := by
  rw [List.any_map]
  exact List.any_eq_false.mpr fun _ _ => Bool.false_ne_true

@[simp] theorem countP_frees_dict (as : List (HashStore PetKVData)) :
    (as.map Store.dict).countP Store.frees = 0 := by
  rw [List.countP_map]
  exact List.countP_eq_zero.mpr fun _ _ => Bool.false_ne_true

@[simp] theorem any_counts_dict (as : List (HashStore PetKVData)) :
    (as.map Store.dict).any Store.counts = as.any HashStore.counts := List.any_map

/-- The pair is as it was stored: nothing more is written. -/
theorem rereadStores_eq {dict : PetHash PetKVData} {pos : ℕ} {id : Slot} {newCache : PetKVData}
    (h : cacheOffset dict pos id = newCache.shmMallocOffset) (pool : PersistMemoryPool)
    (recyclePtr : List (ℕ × ℕ)) (epochs : Epochs) :
    PetKV.rereadStores ⟨dict, pool, recyclePtr⟩ epochs pos id newCache = [] :=
  if_neg (not_not.mpr h)

theorem torn_of_inv {t : PetHash PetKVData} (h : t.Inv) {n : ℕ} (hn : t.entries.card = n) :
    t.Torn n := Or.inl (hn ▸ h.shape.card_keyedEntries_le.1)

section UpdateNew

variable (h : Before memorySize capacity s₀ calls s leaked) {pool : PersistMemoryPool} {ptr : ℕ}
  (ha : Allocated s leaked pool ptr c.log) {before : List Store}
  (halloc : before.any Store.allocates = true) (hfrees : before.countP Store.frees = 0)
  (hcounts : before.any Store.counts = false)
include h ha halloc hfrees hcounts

/-- A part of the insertion that leaves the dictionary torn. -/
theorem Before.recovers_insert_torn {as : List (HashStore PetKVData)}
    (ht : (exec PetHash.apply s.dict as).Torn s.dict.entries.card)
    (has : ¬ s.dict.Crowded c.key → as.any HashStore.counts = false) :
    Recovers memorySize capacity calls c ⟨exec PetHash.apply s.dict as, pool.file⟩ ↔
      CutSafe s c (before ++ as.map .dict) := by
  refine h.recovers_torn ha.account ha.layout rfl (PetHash.exec_chunkNum _ _)
    (PetHash.exec_capacity _ _) ht ?_ ?_ fun _ hcalm => ?_
  · rw [List.any_append, halloc, Bool.true_or]
  · rw [List.countP_append, hfrees, countP_frees_dict]
  · rw [List.any_append, hcounts, any_counts_dict, has hcalm, Bool.false_or]

/-- The insertion evicts: the dictionary is torn to the end, or has exchanged a key for another. -/
theorem Before.updateNew_cut_crowded (habs : s.dict.Absent c.key) (hcrowd : s.dict.Crowded c.key) :
    Always Image.apply (fun done im => Recovers memorySize capacity calls c im ↔
      CutSafe s c (before ++ done)) ⟨s.dict, pool.file⟩
      (({ s with pool } : PetKV).updateNewStores c.epochs' c.key (PetKVData.ofOffset ptr)) := by
  have hoff := ha.shmMallocOffset
  have htorn : ∀ as : List (HashStore PetKVData), (exec PetHash.apply s.dict as).Torn
      s.dict.entries.card → _ := fun as ht =>
    h.recovers_insert_torn ha halloc hfrees hcounts ht fun hcalm => absurd hcrowd hcalm
  have hcut := h.inv.dict.insertStores_crowded habs hcrowd (PetKVData.ofOffset ptr)
  have hend := hcut _ (List.prefix_refl _)
  rw [updateNewStores]
  refine always_append.mpr ⟨always_map (g := fun dict => (⟨dict, pool.file⟩ : Image))
    (fun _ _ => rfl) fun done hd => htorn done (hcut done hd), ?_⟩
  rw [exec_dict]
  by_cases hone : s.dict.chunkNum = 1
  · simp only [(h.inv.dict.insert_fatal habs hcrowd _).2 hone]
    refine always_nil.mpr ?_
    rw [List.append_nil]
    exact htorn _ hend
  · have hN : 1 < s.dict.chunkNum := by
      have := h.inv.dict.shape.chunkNum_pos
      omega
    obtain ⟨dict, pos, id, w, rest, hins, hinv, hchunk, hpos, hslot, hent, hent'⟩ :=
      h.inv.dict.insert_evict habs hcrowd hN (PetKVData.ofOffset ptr)
    obtain ⟨v, rest', hinv', -, hcache, hrest, hent''⟩ :=
      setOffset_spec hinv (hchunk ▸ hpos) hslot ha.aligned ha.le
    have hexec : exec PetHash.apply s.dict (s.dict.insertStores c.key (PetKVData.ofOffset ptr)
        true) = dict := PetHash.exec_insertLoopStores _ _ _ hins
    have hcard : (setOffset dict pos id ptr).entries.card = s.dict.entries.card := by
      rw [hent', Multiset.cons_inj_right] at hrest
      rw [hent'', hent, ← hrest, Multiset.card_cons, Multiset.card_cons]
    simp only [hins, hoff, rereadStores_eq (hcache.trans hoff.symm)]
    refine always_cons.mpr ⟨?_, always_nil.mpr ?_⟩
    · rw [List.append_nil]
      exact htorn _ hend
    · -- the last store is of the offset, and the number of keys is the old one
      have hstep := htorn (s.dict.insertStores c.key (PetKVData.ofOffset ptr) true ++
        [.value pos id (((dict.chunkTable pos).value id).second.setShmMallocOffset ptr)]) ?_
      · rw [exec_append, hexec, List.map_append] at hstep
        rw [hexec]
        exact hstep
      · rw [exec_append, hexec]
        exact torn_of_inv hinv' hcard

/-- The insertion finds room: the dictionary is torn until the size is stored, and then has the
key. -/
theorem Before.updateNew_cut_plain (habs : s.dict.Absent c.key) (hcalm : ¬ s.dict.Crowded c.key) :
    Always Image.apply (fun done im => Recovers memorySize capacity calls c im ↔
      CutSafe s c (before ++ done)) ⟨s.dict, pool.file⟩
      (({ s with pool } : PetKV).updateNewStores c.epochs' c.key (PetKVData.ofOffset ptr)) := by
  have hoff := ha.shmMallocOffset
  obtain ⟨pre, m, hstores, hpre, hcut⟩ :=
    h.inv.dict.insertStores_plain h.chunkNum_le habs hcalm (PetKVData.ofOffset ptr)
  obtain ⟨dict, pos, id, hins, hinv, hchunk, hpos, hslot, hent⟩ :=
    h.inv.dict.insert_plain habs hcalm (PetKVData.ofOffset ptr) true
  obtain ⟨v, rest, hinv', hv, hcache, hrest, hent'⟩ :=
    setOffset_spec hinv (hchunk ▸ hpos) hslot ha.aligned ha.le
  rw [hent, Multiset.cons_inj_right] at hrest
  have hexec : exec PetHash.apply s.dict (pre ++ [.size m]) = dict := by
    rw [← hstores]
    exact PetHash.exec_insertLoopStores _ _ _ hins
  have hpart : ∀ done, done <+: pre → (Recovers memorySize capacity calls c
      ⟨exec PetHash.apply s.dict done, pool.file⟩ ↔ CutSafe s c (before ++ done.map .dict)) :=
    fun done hd => h.recovers_insert_torn ha halloc hfrees hcounts (hcut done hd) fun _ =>
      List.any_eq_false.mpr fun a ha => by rw [hpre a (hd.subset ha)]; exact Bool.false_ne_true
  have hdone : ∀ as : List Store,
      (before ++ (((pre ++ [HashStore.size m]).map .dict) ++ as)).any
      Store.allocates = true ∧ (before ++ (((pre ++ [HashStore.size m]).map .dict) ++ as)).any
      Store.counts = true := fun as => by
    constructor
    · rw [List.any_append, halloc, Bool.true_or]
    · rw [List.any_append, List.any_append, any_counts_dict, List.any_append]
      simp [HashStore.counts]
  rw [updateNewStores]
  simp only [hstores, hins, hoff, rereadStores_eq (hcache.trans hoff.symm)]
  refine always_append.mpr ⟨?_, ?_⟩
  · refine always_map (g := fun dict => (⟨dict, pool.file⟩ : Image)) (fun _ _ => rfl)
      (always_append.mpr ⟨hpart, always_cons.mpr ⟨?_, always_nil.mpr ?_⟩⟩)
    · rw [List.append_nil]
      exact hpart pre (List.prefix_refl _)
    · obtain ⟨hal, hco⟩ := hdone []
      rw [List.append_nil] at hal hco
      rw [exec_concat] at hexec
      rw [hexec]
      exact h.recovers_new habs hcalm ha hinv hent hoff hchunk hal hco
  · rw [exec_dict, hexec]
    refine always_cons.mpr ⟨?_, always_nil.mpr ?_⟩
    · obtain ⟨hal, hco⟩ := hdone []
      exact h.recovers_new habs hcalm ha hinv hent hoff hchunk hal hco
    · obtain ⟨hal, hco⟩ := hdone [offsetStore dict pos id ptr]
      rw [exec_offsetStore]
      exact h.recovers_new habs hcalm ha hinv' (hrest ▸ hent') hv hchunk hal hco

/-- **An `Update` of a new key, cut after the bytes are written.** -/
theorem Before.updateNew_cut (habs : s.dict.Absent c.key) :
    Always Image.apply (fun done im => Recovers memorySize capacity calls c im ↔
      CutSafe s c (before ++ done)) ⟨s.dict, pool.file⟩
      (({ s with pool } : PetKV).updateNewStores c.epochs' c.key (PetKVData.ofOffset ptr)) := by
  by_cases hcrowd : s.dict.Crowded c.key
  · exact h.updateNew_cut_crowded ha halloc hfrees hcounts habs hcrowd
  · exact h.updateNew_cut_plain ha halloc hfrees hcounts habs hcrowd

end UpdateNew

/-- **An `Update` of a key that is there, cut after the bytes are written.** -/
theorem Before.updateOld_cut (h : Before memorySize capacity s₀ calls s leaked)
    {pool : PersistMemoryPool} {ptr : ℕ} (ha : Allocated s leaked pool ptr c.log)
    {pos : ℕ} {id : Slot} {v : PetKVData} (hp : pos < s.dict.chunkNum)
    (he : s.dict.slotEntry (pos, id) = some ⟨c.key, v⟩) {before : List Store}
    (halloc : before.any Store.allocates = true) (hfrees : before.countP Store.frees = 0) :
    Always Image.apply (fun done im => Recovers memorySize capacity calls c im ↔
      CutSafe s c (before ++ done)) ⟨s.dict, pool.file⟩
      (({ s with pool } : PetKV).updateOldStores c.epochs c.epochs' pos id
        (PetKVData.ofOffset ptr)) := by
  have hoff := ha.shmMallocOffset
  have hpres : ¬ s.dict.Absent c.key := fun habs =>
    habs v (PetHash.mem_entries.mpr ⟨_, hp, he⟩)
  obtain ⟨w, rest, hinv, hw, hcache, hent, hent'⟩ :=
    setOffset_spec h.inv.dict hp he ha.aligned ha.le
  have hevicts : s.evicts c.key = none := evicts_of_mem h.inv.dict hp he
  have hacc := ha.retire hent c.epochs.current
  have hkept : (ptr ::ₘ (rest.map blockOf + leaked)).card = s.dict.entries.card + leaked.card := by
    simp only [hent, Multiset.card_cons, Multiset.card_add, Multiset.card_map]
    omega
  -- while blocks are freed the dictionary is as before
  have hpart : Always PoolFile.apply (fun done file => Recovers memorySize capacity calls c
      ⟨s.dict, file⟩ ↔ CutSafe s c (before ++ done.map .pool)) pool.file
      (recycleStores c.epochs (blockOf ⟨c.key, v⟩) s.recyclePtr pool) := by
    refine (reclaimStores_cut c.epochs.safe _ 0 hacc).mono fun done file hdone => ?_
    obtain ⟨p', queue, hr, rfl, hlen, hall⟩ := hdone
    refine h.recovers_old hpres h.inv.dict rfl rfl hr.toAccount (ha.layout.trans hr.layout) hkept
      (fun hleak => Or.inl (h.legible_old hleak fun b bs hb => ?_)) ?_ ?_
    · rw [hr.bytes]
      exact (ha.old b bs hb).holds
    · rw [List.any_append, halloc, Bool.true_or]
    · rw [List.countP_append, hfrees, countP_frees_pool, List.countP_eq_length.mpr hall]
      rw [List.length_append, List.length_singleton] at hlen
      omega
  obtain ⟨queue, pool', hrec, -, -⟩ := reclaim_spec c.epochs.safe _ 0 hacc
  have hfile := exec_reclaimStores _ _ _ _ hrec
  have hlast := reclaimStores_cut c.epochs.safe _ 0 hacc _ (List.prefix_refl _)
  obtain ⟨p', queue', hr, hfile', hlen, hall⟩ := hlast
  simp only [updateOldStores, getMallocData_cacheOffset he, recycle, hrec, hoff,
    rereadStores_eq (hcache.trans hoff.symm)]
  refine always_append.mpr ⟨always_map (g := fun file => (⟨s.dict, file⟩ : Image)) (fun _ _ => rfl)
    hpart, always_cons.mpr ⟨?_, always_nil.mpr ?_⟩⟩
  · rw [List.append_nil, exec_pool]
    exact hpart.exec
  · rw [exec_pool, recycleStores, hfile, exec_offsetStore]
    rw [hfile] at hfile'
    rw [← hfile']
    obtain ⟨hup, -⟩ := h.inv.land_old ha hinv hent hent' hw hevicts hr rfl
    refine h.recovers_old hpres hinv rfl ?_ hr.toAccount (ha.layout.trans hr.layout) hkept
      (fun hleak => Or.inr (h.legible_updated hleak hup hinv hevicts)) ?_ ?_
    · rw [hent', hent, Multiset.map_cons, Multiset.map_cons]
    · rw [List.any_append, halloc, Bool.true_or]
    · rw [List.countP_append, List.countP_append, hfrees, countP_frees_pool,
        List.countP_eq_length.mpr hall]
      rw [List.length_append, List.length_singleton] at hlen
      have hzero : [offsetStore s.dict pos id ptr].countP Store.frees = 0 := rfl
      omega

/-- **After `New` has returned.** The bit is set; first the length and the bytes are written. -/
theorem Before.write_cut (h : Before memorySize capacity s₀ calls s leaked)
    {pool : PersistMemoryPool} {ptr : ℕ} (hnew : s.pool.new c.log.length = .ok (pool, ptr))
    {before : List Store} (halloc : before.any Store.allocates = true)
    (hfrees : before.countP Store.frees = 0) (hcounts : before.any Store.counts = false) :
    Always Image.apply (fun done im => Recovers memorySize capacity calls c im ↔
      CutSafe s c (before ++ done)) ⟨s.dict, pool.file⟩ (s.writeStores c pool ptr) := by
  obtain ⟨hacc, hlayout⟩ := h.inv.account_new hnew
  have hbytes : ∀ a ∈ memcpyStores ptr c.log, PoolStore.isBytes a = true :=
    mem_memcpyStores ptr c.log
  have hcopy : Always PoolFile.apply (fun done file => Recovers memorySize capacity calls c
      ⟨s.dict, file⟩ ↔ CutSafe s c (before ++ done.map .pool)) pool.file
      (memcpyStores ptr c.log) := fun done hd => by
    have hdone := fun a ha => hbytes a (hd.subset ha)
    have hheader : (exec PoolFile.apply pool.file done).header =
        (pool.storeBytes ptr c.log).file.header := exec_header_of_isBytes hdone
    refine h.recovers_torn hacc hlayout hheader rfl rfl (torn_of_inv h.inv.dict rfl) ?_ ?_
      fun _ _ => ?_
    · rw [List.any_append, halloc, Bool.true_or]
    · rw [List.countP_append, hfrees, countP_frees_pool, PoolStore.countP_frees_of_isBytes hdone]
    · rw [List.any_append, hcounts, any_counts_pool, Bool.false_or]
  have hexec := exec_memcpyStores c.log ptr pool.file
  have halloc' : (before ++
    (memcpyStores ptr c.log).map Store.pool).any Store.allocates = true := by
    rw [List.any_append, halloc, Bool.true_or]
  have hfrees' : (before ++ (memcpyStores ptr c.log).map Store.pool).countP Store.frees = 0 := by
    rw [List.countP_append, hfrees, countP_frees_pool, PoolStore.countP_frees_of_isBytes hbytes]
  have hcounts' : (before ++ (memcpyStores ptr c.log).map Store.pool).any Store.counts = false := by
    rw [List.any_append, hcounts, any_counts_pool, Bool.false_or]
  rw [writeStores]
  refine always_append.mpr ⟨always_map (g := fun file => (⟨s.dict, file⟩ : Image)) (fun _ _ => rfl)
    hcopy, ?_⟩
  rw [exec_pool, hexec]
  simp only [← List.append_assoc, getMallocOffset]
  by_cases h8 : ptr / 8 * 8 = ptr
  · have ha := h.inv.alloc hnew (by omega)
    simp only [if_pos h8]
    rcases h.inv.dict.getInternal_cases c.key with ⟨pos, id, v, hp, he, hget⟩ | ⟨habs, hget⟩
    · simp only [hget]
      exact h.updateOld_cut ha hp he halloc' hfrees'
    · simp only [hget]
      exact h.updateNew_cut ha halloc' hfrees' hcounts' habs
  · simp only [if_neg h8]
    refine always_nil.mpr ?_
    rw [List.append_nil, ← hexec]
    exact hcopy.exec

/-- **Every cut of an `Update`.** -/
theorem Before.update_cut (h : Before memorySize capacity s₀ calls s leaked) (c : Call) :
    Always Image.apply (fun done im => Recovers memorySize capacity calls c im ↔ CutSafe s c done)
      s.image (s.updateStores c) := by
  have hretry : s.dict.getInternal c.key ≠ .retry := by
    rcases h.inv.dict.getInternal_cases c.key with ⟨pos, id, v, -, -, hget⟩ | ⟨-, hget⟩ <;>
      simp [hget]
  obtain ⟨pre, post, hstores, hcut⟩ :=
    h.inv.account.inv.newStores_cut h.inv.account.mode c.log.length
  have hearly : Always PoolFile.apply (fun done file => Recovers memorySize capacity calls c
      ⟨s.dict, file⟩ ↔ CutSafe s c (done.map .pool)) s.pool.file pre := fun done hd => by
    refine h.recovers_early (hcut.quiet done hd) ?_ ?_ (any_counts_pool _)
    · rw [any_allocates_pool]
      exact List.any_eq_false.mpr fun a ha => by
        rw [(hcut.silent a (hd.subset ha)).1]
        exact Bool.false_ne_true
    · rw [countP_frees_pool]
      exact List.countP_eq_zero.mpr fun a ha => by
        rw [(hcut.silent a (hd.subset ha)).2]
        exact Bool.false_ne_true
  rw [updateStores, if_neg hretry, hstores]
  cases hnew : s.pool.new c.log.length with
  | error e =>
    rw [hcut.error e hnew, List.append_nil]
    simp only [List.append_nil]
    exact always_map (g := fun file => (⟨s.dict, file⟩ : Image)) (fun _ _ => rfl) hearly
  | ok r =>
    obtain ⟨pool, ptr⟩ := r
    obtain ⟨ch, i, w, rfl, hw, hexec⟩ := hcut.ok pool ptr hnew
    obtain ⟨hacc, hlayout⟩ := h.inv.account_new hnew
    have hsilent : pre.countP PoolStore.frees = 0 := List.countP_eq_zero.mpr fun a ha => by
      rw [(hcut.silent a ha).2]
      exact Bool.false_ne_true
    -- from the bit on, until `New` returns
    have hlength : ∀ done, done <+: w → (Recovers memorySize capacity calls c
        ⟨s.dict, exec PoolFile.apply s.pool.file (pre ++ .setBit ch i :: done)⟩ ↔
          CutSafe s c ((pre ++ .setBit ch i :: done).map .pool)) := fun done hd => by
      obtain ⟨tail, rfl⟩ := hd
      have hheader : (exec PoolFile.apply s.pool.file (pre ++ .setBit ch i :: done)).header =
          (pool.storeBytes ptr c.log).file.header := by
        have hall : exec PoolFile.apply (exec PoolFile.apply s.pool.file
            (pre ++ .setBit ch i :: done)) tail = pool.file := by
          rw [← exec_append, ← hexec, List.append_assoc, List.cons_append]
        rw [← exec_header_of_isBytes fun a ha => hw a (List.mem_append_right done ha), hall]
        rfl
      refine h.recovers_torn hacc hlayout hheader rfl rfl (torn_of_inv h.inv.dict rfl) ?_ ?_
        fun _ _ => any_counts_pool _
      · rw [any_allocates_pool]
        simp [PoolStore.allocates]
      · rw [countP_frees_pool, List.countP_append, hsilent, List.countP_cons,
          PoolStore.countP_frees_of_isBytes fun a ha => hw a (List.mem_append_left _ ha)]
        rfl
    refine always_append.mpr ⟨always_map (g := fun file => (⟨s.dict, file⟩ : Image))
      (fun _ _ => rfl)
      (always_append.mpr ⟨hearly, always_cons.mpr ⟨?_, fun done hd => ?_⟩⟩), ?_⟩
    · rw [List.append_nil]
      exact hearly.exec
    · have hd := hlength done hd
      rwa [exec_append] at hd
    · rw [image, exec_pool, hexec]
      refine h.write_cut hnew ?_ ?_ (any_counts_pool _)
      · rw [any_allocates_pool]
        simp [PoolStore.allocates]
      · rw [countP_frees_pool, List.countP_append, hsilent, List.countP_cons,
          PoolStore.countP_frees_of_isBytes hw]
        rfl

end Before

theorem before_run {memorySize capacity : ℕ} (hint : capacity < 2 ^ 31) {s₀ s : PetKV}
    {calls : List Call} (hnew : create memorySize capacity = .ok s₀)
    (hrun : Run.run step s₀ calls = some s) :
    ∃ leaked, Before memorySize capacity s₀ calls s leaked := by
  have hf := follows_run hnew hrun
  obtain ⟨leaked, hinv, hleak⟩ := hf.inv
  exact ⟨leaked, hf, hinv, hleak.mp, (create_sized hnew).follows hf, hint⟩

/-- **At which cuts the store is recovered.** After any run of `Update`s of a new store and a
first part of the stores of one more, opening the files recovers the store exactly at the safe
cuts. -/
theorem crash_recovers_iff {memorySize capacity : ℕ} (hint : capacity < 2 ^ 31) {s₀ s : PetKV}
    {calls : List Call} (hnew : create memorySize capacity = .ok s₀)
    (hrun : Run.run step s₀ calls = some s) (c : Call) {done : List Store}
    (hdone : done <+: s.updateStores c) :
    Recovers memorySize capacity calls c (exec Image.apply s.image done) ↔ CutSafe s c done := by
  obtain ⟨leaked, hbefore⟩ := before_run hint hnew hrun
  exact hbefore.update_cut c done hdone

/-- An `Update` of a second key with all its stores. -/
theorem crash_recovers_whole_update :
    ∃ s₀ s : PetKV, create (5 * kChunkSize) 1 = .ok s₀ ∧
      Run.run step s₀ [⟨7, [1, 2, 3], quietEpochs, quietEpochs⟩] = some s ∧
      Recovers (5 * kChunkSize) 1 [⟨7, [1, 2, 3], quietEpochs, quietEpochs⟩]
        ⟨9, [4], quietEpochs, quietEpochs⟩
        (exec Image.apply s.image (s.updateStores ⟨9, [4], quietEpochs, quietEpochs⟩)) := by
  have heval : ((create (5 * kChunkSize) 1).toOption.any fun s₀ =>
      (Run.run step s₀ [⟨7, [1, 2, 3], quietEpochs, quietEpochs⟩]).any fun s =>
        decide (s.dict.getInternal emptyKey = .absent) && decide (s.dict.getInternal 9 = .absent) &&
          decide (¬ s.dict.Crowded 9) && decide (s.pool.totalMalloc = s.dict.size) &&
          (s.updateStores ⟨9, [4], quietEpochs, quietEpochs⟩).any Store.counts) = true := by
    decide +kernel
  simp only [Option.any_eq_true, Bool.and_eq_true, decide_eq_true_eq] at heval
  obtain ⟨s₀, hs₀, s, hs, ⟨⟨⟨hempty, habs⟩, hcalm⟩, htotal⟩, hcounts⟩ := heval
  have hnew := eq_ok_of_toOption hs₀
  obtain ⟨leaked, hbefore⟩ := before_run (by decide) hnew hs
  have habsent : ∀ key, s.dict.getInternal key = .absent → s.dict.Absent key := fun key hkey => by
    rcases hbefore.inv.dict.getInternal_cases key with ⟨pos, id, v, -, -, hget⟩ | ⟨habs, -⟩
    · rw [hget] at hkey
      cases hkey
    · exact habs
  exact ⟨s₀, s, hnew, hs, (crash_recovers_iff (by decide) hnew hs _ (List.prefix_refl _)).mpr
    ⟨habsent _ hempty, Or.inr (Or.inl ⟨habsent _ habs, hcalm, by decide, htotal, hcounts⟩)⟩⟩

/-- An `Update` of a second key is cut after its first store, the bit of its block. -/
theorem crash_fails_after_bit :
    ∃ s₀ s : PetKV, create (5 * kChunkSize) 1 = .ok s₀ ∧
      Run.run step s₀ [⟨7, [1, 2, 3], quietEpochs, quietEpochs⟩] = some s ∧
      ¬ Recovers (5 * kChunkSize) 1 [⟨7, [1, 2, 3], quietEpochs, quietEpochs⟩]
        ⟨9, [4], quietEpochs, quietEpochs⟩
        (exec Image.apply s.image
          ((s.updateStores ⟨9, [4], quietEpochs, quietEpochs⟩).take 1)) := by
  have heval : ((create (5 * kChunkSize) 1).toOption.any fun s₀ =>
      (Run.run step s₀ [⟨7, [1, 2, 3], quietEpochs, quietEpochs⟩]).any fun s =>
        ((s.updateStores ⟨9, [4], quietEpochs, quietEpochs⟩).take 1).any Store.allocates &&
        !((s.updateStores ⟨9, [4], quietEpochs, quietEpochs⟩).take 1).any Store.counts &&
        decide ((((s.updateStores ⟨9, [4], quietEpochs,
          quietEpochs⟩).take 1).countP Store.frees : ℤ)
          ≠ s.pool.totalMalloc - s.dict.size + 1)) = true := by
    decide +kernel
  simp only [Option.any_eq_true, Bool.and_eq_true, Bool.not_eq_true', decide_eq_true_eq] at heval
  obtain ⟨s₀, hs₀, s, hs, ⟨halloc, hcounts⟩, hfrees⟩ := heval
  have hnew := eq_ok_of_toOption hs₀
  obtain ⟨leaked, hbefore⟩ := before_run (by decide) hnew hs
  refine ⟨s₀, s, hnew, hs, fun hrec => ?_⟩
  have hsafe := (hbefore.update_cut _ _ (List.take_prefix 1 _)).mp hrec
  rw [CutSafe, halloc, hcounts] at hsafe
  revert hsafe
  rintro ⟨-, ⟨hfalse, -⟩ | ⟨-, -, -, -, hfalse⟩ | ⟨-, heq⟩⟩
  · cases hfalse
  · cases hfalse
  · exact hfrees heq

end PetKV

end PetPS

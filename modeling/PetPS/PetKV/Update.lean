import PetPS.Lib.Run
import PetPS.PetHash.Refine
import PetPS.PetKV.Blocks

/-!
# `Update` and `Get`

The invariant ties the three parts of a `PetKV` together: every entry of the dictionary leads to a
block of its own that holds some bytes, the blocks in the recycling queue are others, and so are the
leaked ones, which a forced eviction leaves behind. Together they are all the blocks of the pool.

## Main results

* `Inv.update` — what a completed `Update` does
* `create_inv` — a new store is empty and in order
-/

namespace PetPS

namespace PetKV

open PersistMemoryPool (NewBlock SameLayout)

/-- The block that an entry of the dictionary leads to. -/
def blockOf (e : EntryT PetKVData) : ℕ :=
  PersistMemoryPool.getMallocData e.second.shmMallocOffset

/-- The invariant of the store between two calls. -/
structure Inv (s : PetKV) (leaked : Multiset ℕ) : Prop where
  /-- The dictionary is in order. -/
  dict : s.dict.Inv
  /-- The pool file is in the address space. -/
  space : s.pool.nrChunks * kChunkSize ≤ userSpace
  /-- The slab sizes are those of the constructor. -/
  slabs : s.pool.allocatedSlabSizes = slabSizes
  /-- The blocks of the pool. -/
  account : Account s.pool (s.dict.entries.map blockOf + leaked) s.recyclePtr
  /-- Every entry leads to a value. -/
  contents : ∀ e ∈ s.dict.entries, ∃ bytes, Contains s.pool (blockOf e) bytes

/-- `total_malloc` counts the blocks of the dictionary, the leaked ones and those in the queue. -/
theorem Inv.total {s : PetKV} {leaked : Multiset ℕ} (h : s.Inv leaked) :
    s.pool.totalMalloc = (s.dict.entries.card + (leaked.card + s.recyclePtr.length) : ℕ) := by
  obtain ⟨live, hlive, hmem⟩ := h.account.live
  have hcard := congrArg Multiset.card hmem
  rw [Multiset.coe_card, Multiset.card_add, Multiset.card_add, Multiset.card_map, Multiset.coe_card,
    List.length_map] at hcard
  rw [hlive.total, hcard, Nat.add_assoc]

/-! ### Reading -/

/-- **A stored key is read** from the block of its entry. -/
theorem read_of_holds {s : PetKV} (hdict : s.dict.Inv) (hmode : s.pool.perfectFit = false)
    {e : EntryT PetKVData} (he : e ∈ s.dict.entries) {bytes : List UInt8}
    (hc : Holds s.pool.file.bytes (blockOf e) bytes) : s.read e.first = .ok (some bytes) := by
  have hget : s.dict.get e.first = .ok (some e.second) := hdict.get_of_mem he
  have hsize : s.pool.getMallocSize (blockOf e) = bytes.length := by
    rw [PersistMemoryPool.getMallocSize, hmode]
    exact hc.length
  rw [blockOf] at hsize
  rw [read, get, hget]
  simp only [hsize]
  rw [← blockOf, hc.bytes]

theorem read_of_absent {s : PetKV} (hdict : s.dict.Inv) {key : UInt64} (habs : s.dict.Absent key) :
    s.read key = .ok none := by
  rw [read, get, hdict.get_of_notMem habs]

theorem Inv.read_of_mem {s : PetKV} {leaked : Multiset ℕ} (h : s.Inv leaked)
    {e : EntryT PetKVData} (he : e ∈ s.dict.entries) {bytes : List UInt8}
    (hc : Contains s.pool (blockOf e) bytes) : s.read e.first = .ok (some bytes) :=
  read_of_holds h.dict h.account.mode he hc.holds

theorem Inv.read_of_notMem {s : PetKV} {leaked : Multiset ℕ} (h : s.Inv leaked) {key : UInt64}
    (habs : s.dict.Absent key) : s.read key = .ok none := read_of_absent h.dict habs

/-! ### The parts of `Update` -/

/-- A store through `p_cache`. -/
theorem setOffset_spec {t : PetHash PetKVData} (h : t.Inv) {pos : ℕ} {id : Slot}
    {e : EntryT PetKVData} (hp : pos < t.chunkNum) (he : t.slotEntry (pos, id) = some e) {ptr : ℕ}
    (h8 : ptr % 8 = 0) (hlt : ptr ≤ userSpace) :
    ∃ (v : PetKVData) (rest : Multiset (EntryT PetKVData)), (setOffset t pos id ptr).Inv ∧
      v.shmMallocOffset = ptr ∧
      cacheOffset (setOffset t pos id ptr) pos id = ptr ∧ t.entries = e ::ₘ rest ∧
      (setOffset t pos id ptr).entries = ⟨e.first, v⟩ ::ₘ rest := by
  obtain ⟨hinv, hch, rest, hrest, hent⟩ := h.setValue hp he
    (((t.chunkTable pos).value id).second.setShmMallocOffset ptr)
  have hoff := PetKVData.shmMallocOffset_set ((t.chunkTable pos).value id).second h8 hlt
  refine ⟨_, rest, hinv, hoff, ?_, hrest, hent⟩
  have hval := (F14Chunk.entry_eq_some.mp hch.self).2
  rw [cacheOffset, setOffset, hval, hoff]

/-- The store after `New` and `memcpy`. -/
structure Allocated (s : PetKV) (leaked : Multiset ℕ) (pool : PersistMemoryPool) (ptr : ℕ)
    (log : List UInt8) : Prop where
  /-- There is one more block. -/
  account : Account pool (ptr ::ₘ (s.dict.entries.map blockOf + leaked)) s.recyclePtr
  /-- It holds the bytes. -/
  contains : Contains pool ptr log
  /-- The others are as they were. -/
  old : ∀ ptr' bs, Contains s.pool ptr' bs → Contains pool ptr' bs
  layout : SameLayout s.pool pool
  /-- Its offset can be packed. -/
  aligned : ptr % 8 = 0
  le : ptr ≤ userSpace

/-- There is one more block. -/
theorem Inv.account_new {s : PetKV} {leaked : Multiset ℕ} (h : s.Inv leaked)
    {pool : PersistMemoryPool} {ptr : ℕ} {log : List UInt8}
    (hnew : s.pool.new log.length = .ok (pool, ptr)) :
    Account (pool.storeBytes ptr log) (ptr ::ₘ (s.dict.entries.map blockOf + leaked)) s.recyclePtr ∧
      SameLayout s.pool (pool.storeBytes ptr log) := by
  obtain ⟨c, i, hn⟩ := h.account.inv.new hnew
  obtain ⟨live, hlive, hmem⟩ := h.account.live
  refine ⟨⟨hn.inv_store, hn.added.perfectFit.trans h.account.mode, ptr :: live,
    hn.live_store hlive, ?_⟩, ⟨hn.added.perfectFit, hn.added.slabSizes, hn.added.nrChunks⟩⟩
  rw [← Multiset.cons_coe, hmem, Multiset.cons_add]

theorem Inv.alloc {s : PetKV} {leaked : Multiset ℕ} (h : s.Inv leaked) {pool : PersistMemoryPool}
    {ptr : ℕ} {log : List UInt8} (hnew : s.pool.new log.length = .ok (pool, ptr))
    (h8 : ptr % 8 = 0) : Allocated s leaked (pool.storeBytes ptr log) ptr log := by
  obtain ⟨hacc, hlayout⟩ := h.account_new hnew
  obtain ⟨c, i, hn⟩ := h.account.inv.new hnew
  have hmode := h.account.mode
  refine ⟨hacc, contains_new hn hmode, fun _ _ hc => hc.new hn hmode, hlayout, h8, ?_⟩
  obtain ⟨hptr, hroom⟩ := hn.ptr_eq hmode
  obtain ⟨-, hhi⟩ := (hn.inv.usedChunk hn.allocated).slab_in_chunk
    (hn.inv.lt_nrEntries hn.allocated)
  have hspace := h.space
  have hc : (c + 1) * kChunkSize ≤ s.pool.nrChunks * kChunkSize :=
    Nat.mul_le_mul_right _ (hn.added.nrChunks ▸ hn.allocated.1)
  omega

theorem Allocated.shmMallocOffset {s : PetKV} {leaked : Multiset ℕ}
    {pool : PersistMemoryPool} {ptr : ℕ} {log : List UInt8} (ha : Allocated s leaked pool ptr log) :
    (PetKVData.ofOffset ptr).shmMallocOffset = ptr :=
  PetKVData.shmMallocOffset_set _ ha.aligned ha.le

/-- The block of an entry goes from the dictionary to the queue. -/
theorem Allocated.retire {s : PetKV} {leaked : Multiset ℕ} {pool : PersistMemoryPool} {ptr : ℕ}
    {log : List UInt8} (ha : Allocated s leaked pool ptr log) {e : EntryT PetKVData}
    {rest : Multiset (EntryT PetKVData)} (hent : s.dict.entries = e ::ₘ rest) (epoch : ℕ) :
    Account pool (ptr ::ₘ (rest.map blockOf + leaked)) (s.recyclePtr ++ [(epoch, blockOf e)]) := by
  obtain ⟨live, hlive, hmem⟩ := ha.account.live
  refine ⟨ha.account.inv, ha.account.mode, live, hlive, hmem.trans ?_⟩
  rw [hent, Multiset.map_cons, List.map_append, ← Multiset.coe_add, List.map_singleton,
    Multiset.coe_singleton]
  simp only [← Multiset.singleton_add]
  abel

/-- The key that an `Update` of `key` evicts. -/
def evicts (s : PetKV) (key : UInt64) : Option UInt64 :=
  if s.dict.getInternal key = .absent ∧ s.dict.Crowded key then some (s.dict.evictee key) else none

/-- A key that is there evicts no other. -/
theorem evicts_of_mem {s : PetKV} (h : s.dict.Inv) {pos : ℕ} {id : Slot} {e : EntryT PetKVData}
    (hp : pos < s.dict.chunkNum) (he : s.dict.slotEntry (pos, id) = some e) :
    s.evicts e.first = none := by
  refine if_neg fun hx => ?_
  rw [h.getInternal_of_mem hp he] at hx
  cases hx.1

/-- `p_cache` leads to the block of its entry. -/
theorem getMallocData_cacheOffset {t : PetHash PetKVData} {pos : ℕ} {id : Slot}
    {e : EntryT PetKVData} (he : t.slotEntry (pos, id) = some e) :
    PersistMemoryPool.getMallocData (cacheOffset t pos id) = blockOf e := by
  rw [cacheOffset, (F14Chunk.entry_eq_some.mp he).2, blockOf]

/-- What a completed `Update` does. -/
structure Updated (s s' : PetKV) (key : UInt64) (log : List UInt8) : Prop where
  /-- The key leads to the bytes. -/
  self : ∃ v, ⟨key, v⟩ ∈ s'.dict.entries ∧ Contains s'.pool (blockOf ⟨key, v⟩) log
  /-- The other keys stay, except for an evicted one. -/
  other : ∀ k v, k ≠ key →
    (⟨k, v⟩ ∈ s'.dict.entries ↔ ⟨k, v⟩ ∈ s.dict.entries ∧ s.evicts key ≠ some k)
  /-- With their values. -/
  contents : ∀ k v bs, k ≠ key → ⟨k, v⟩ ∈ s'.dict.entries → Contains s.pool (blockOf ⟨k, v⟩) bs →
    Contains s'.pool (blockOf ⟨k, v⟩) bs
  layout : SameLayout s.pool s'.pool
  chunkNum : s'.dict.chunkNum = s.dict.chunkNum

/-- **How every `Update` ends**: the entry of the key leads to the new block, and the rest of the
dictionary to blocks as they were. -/
theorem Inv.land {s : PetKV} {leaked leaked' : Multiset ℕ} (h : s.Inv leaked)
    {dict : PetHash PetKVData} {pool : PersistMemoryPool} {recyclePtr : List (ℕ × ℕ)} {key : UInt64}
    {v : PetKVData} {rest : Multiset (EntryT PetKVData)} {ptr : ℕ} {log : List UInt8}
    (hdict : dict.Inv) (hent : dict.entries = ⟨key, v⟩ ::ₘ rest) (hv : v.shmMallocOffset = ptr)
    (hacc : Account pool (ptr ::ₘ (rest.map blockOf + leaked')) recyclePtr)
    (hc : Contains pool ptr log) (hle : rest ≤ s.dict.entries)
    (hrest : ∀ k v, k ≠ key → (⟨k, v⟩ ∈ rest ↔ ⟨k, v⟩ ∈ s.dict.entries ∧ s.evicts key ≠ some k))
    (hold : ∀ e ∈ rest, ∀ bs, Contains s.pool (blockOf e) bs → Contains pool (blockOf e) bs)
    (hlayout : SameLayout s.pool pool) (hN : dict.chunkNum = s.dict.chunkNum) :
    Updated s ⟨dict, pool, recyclePtr⟩ key log ∧ Inv ⟨dict, pool, recyclePtr⟩ leaked' := by
  have hblock : blockOf ⟨key, v⟩ = ptr := by
    rw [blockOf, hv]
    rfl
  have hmem : ∀ k v', k ≠ key → (⟨k, v'⟩ ∈ dict.entries ↔ ⟨k, v'⟩ ∈ rest) := fun k v' hk => by
    rw [hdict.nodup.mem_iff hent, if_neg hk]
  constructor
  · refine ⟨⟨v, ?_, hblock ▸ hc⟩, fun k v' hk => ?_, fun k v' bs hk hin hbs => ?_, hlayout, hN⟩
    · rw [hent]
      exact Multiset.mem_cons_self _ _
    · exact (hmem k v' hk).trans (hrest k v' hk)
    · exact hold _ ((hmem k v' hk).mp hin) bs hbs
  · refine ⟨hdict, hlayout.nrChunks ▸ h.space, hlayout.slabSizes.trans h.slabs, ?_, fun e he => ?_⟩
    · change Account pool (dict.entries.map blockOf + leaked') recyclePtr
      rw [hent, Multiset.map_cons, hblock, Multiset.cons_add]
      exact hacc
    · change e ∈ dict.entries at he
      rw [hent] at he
      rcases Multiset.mem_cons.mp he with rfl | he
      · exact ⟨log, hblock ▸ hc⟩
      · obtain ⟨bs, hbs⟩ := h.contents e (Multiset.mem_of_le hle he)
        exact ⟨bs, hold e he bs hbs⟩

/-- Nobody has changed the pair: the new block stays. -/
theorem reread_eq {dict : PetHash PetKVData} {pos : ℕ} {id : Slot} {newCache : PetKVData}
    (h : cacheOffset dict pos id = newCache.shmMallocOffset) (pool : PersistMemoryPool)
    (recyclePtr : List (ℕ × ℕ)) (epochs : Epochs) :
    PetKV.reread ⟨dict, pool, recyclePtr⟩ epochs pos id newCache = .ok ⟨dict, pool, recyclePtr⟩ :=
  if_neg (not_not.mpr h)

/-- **Where `Insert` returns**, so does the branch for a new key: the pair leads to the new
block, and nobody has changed it. -/
theorem updateNew_of_insert {s : PetKV} {dict : PetHash PetKVData} {key : UInt64} {pos ptr : ℕ}
    {id : Slot} {rest : Multiset (EntryT PetKVData)} (h8 : ptr % 8 = 0) (hle : ptr ≤ userSpace)
    (hins : s.dict.insert key (PetKVData.ofOffset ptr) none true = .ok (dict, pos, id))
    (hinv : dict.Inv) (hpos : pos < dict.chunkNum)
    (hslot : dict.slotEntry (pos, id) = some ⟨key, PetKVData.ofOffset ptr⟩)
    (hent : dict.entries = ⟨key, PetKVData.ofOffset ptr⟩ ::ₘ rest) (epochs : Epochs) :
    ∃ v : PetKVData, (setOffset dict pos id ptr).Inv ∧ v.shmMallocOffset = ptr ∧
      (setOffset dict pos id ptr).entries = ⟨key, v⟩ ::ₘ rest ∧
      s.updateNew epochs key (PetKVData.ofOffset ptr) =
        .ok ⟨setOffset dict pos id ptr, s.pool, s.recyclePtr⟩ := by
  have hoff : (PetKVData.ofOffset ptr).shmMallocOffset = ptr :=
    PetKVData.shmMallocOffset_set _ h8 hle
  obtain ⟨v, rest', hinv', hv, hcache, hrest, hent'⟩ := setOffset_spec hinv hpos hslot h8 hle
  rw [hent, Multiset.cons_inj_right] at hrest
  refine ⟨v, hinv', hv, hrest ▸ hent', ?_⟩
  rw [PetKV.updateNew]
  simp only [hins, hoff, reread_eq (hcache.trans hoff.symm)]

/-- **An `Update` of a new key.** -/
theorem Inv.updateNew {s s' : PetKV} {leaked : Multiset ℕ} (h : s.Inv leaked)
    {pool : PersistMemoryPool} {ptr : ℕ} {log : List UInt8} (ha : Allocated s leaked pool ptr log)
    {key : UInt64} (habs : s.dict.Absent key) {epochs : Epochs}
    (hrun : ({ s with pool } : PetKV).updateNew epochs key (PetKVData.ofOffset ptr) = .ok s') :
    Updated s s' key log ∧ ∃ lost : Multiset ℕ, s'.Inv (lost + leaked) ∧
      lost.card = if (s.evicts key).isSome then 1 else 0 := by
  have habsent := h.dict.getInternal_of_notMem habs
  by_cases hcrowd : s.dict.Crowded key
  · have hevicts : s.evicts key = some (s.dict.evictee key) := if_pos ⟨habsent, hcrowd⟩
    by_cases hone : s.dict.chunkNum = 1
    · rw [PetKV.updateNew] at hrun
      simp only [(h.dict.insert_fatal habs hcrowd _).2 hone] at hrun
      cases hrun
    · have hN : 1 < s.dict.chunkNum := by
        have := h.dict.shape.chunkNum_pos
        omega
      obtain ⟨dict, pos, id, w, rest, hins, hinv, hchunk, hpos, hslot, hent, hent'⟩ :=
        h.dict.insert_evict habs hcrowd hN (PetKVData.ofOffset ptr)
      obtain ⟨v, hinv', hv, hent'', hret⟩ := updateNew_of_insert (s := { s with pool }) ha.aligned
        ha.le hins hinv (hchunk ▸ hpos) hslot hent' epochs
      obtain rfl := Except.ok.inj (hret.symm.trans hrun)
      have hacc : Account pool (ptr ::ₘ (rest.map blockOf +
          ({blockOf ⟨s.dict.evictee key, w⟩} + leaked))) s.recyclePtr := by
        have hacc := ha.account
        rw [hent, Multiset.map_cons, Multiset.cons_add] at hacc
        rw [Multiset.singleton_add, Multiset.add_cons]
        exact hacc
      have hrest : ∀ k x, ⟨k, x⟩ ∈ rest ↔ ⟨k, x⟩ ∈ s.dict.entries ∧ s.evicts key ≠ some k := by
        intro k x
        rw [h.dict.nodup.mem_iff hent, hevicts, Ne, Option.some.injEq]
        by_cases hke : k = s.dict.evictee key
        · subst hke
          simp only [if_true, not_true_eq_false, and_false, iff_false]
          exact h.dict.nodup.notMem_rest hent
        · simp [hke, Ne.symm hke]
      obtain ⟨hup, hinv⟩ := h.land hinv' hent'' hv hacc ha.contains
        (hent ▸ Multiset.le_cons_self _ _) (fun k x _ => hrest k x) (fun e _ bs => ha.old _ bs)
        ha.layout hchunk
      exact ⟨hup, _, hinv, by simp [hevicts]⟩
  · have hevicts : s.evicts key = none := if_neg fun hx => hcrowd hx.2
    obtain ⟨dict, pos, id, hins, hinv, hchunk, hpos, hslot, hent⟩ :=
      h.dict.insert_plain habs hcrowd (PetKVData.ofOffset ptr) true
    obtain ⟨v, hinv', hv, hent', hret⟩ := updateNew_of_insert (s := { s with pool }) ha.aligned
      ha.le hins hinv (hchunk ▸ hpos) hslot hent epochs
    obtain rfl := Except.ok.inj (hret.symm.trans hrun)
    obtain ⟨hup, hinv⟩ := h.land hinv' hent' hv ha.account ha.contains le_rfl
      (fun k x _ => by simp [hevicts]) (fun e _ bs => ha.old _ bs) ha.layout hchunk
    exact ⟨hup, 0, by rwa [Multiset.zero_add], by simp [hevicts]⟩

/-- **How an `Update` of a key that is there ends**, once its old block has been retired and
blocks of the queue have been freed. -/
theorem Inv.land_old {s : PetKV} {leaked : Multiset ℕ} (h : s.Inv leaked)
    {pool pool' : PersistMemoryPool} {ptr : ℕ} {log : List UInt8}
    (ha : Allocated s leaked pool ptr log)
    {dict : PetHash PetKVData} {e : EntryT PetKVData} {v : PetKVData}
    {rest : Multiset (EntryT PetKVData)} {queue : List (ℕ × ℕ)} (hdict : dict.Inv)
    (hent : s.dict.entries = e ::ₘ rest) (hent' : dict.entries = ⟨e.first, v⟩ ::ₘ rest)
    (hv : v.shmMallocOffset = ptr) (hevicts : s.evicts e.first = none)
    (hr : Reclaimed pool pool' (ptr ::ₘ (rest.map blockOf + leaked)) queue)
    (hN : dict.chunkNum = s.dict.chunkNum) :
    Updated s ⟨dict, pool', queue⟩ e.first log ∧ Inv ⟨dict, pool', queue⟩ leaked := by
  have hkept : ∀ e' ∈ rest, blockOf e' ∈ ptr ::ₘ (rest.map blockOf + leaked) := fun e' he' =>
    Multiset.mem_cons_of_mem (Multiset.mem_add.mpr (Or.inl (Multiset.mem_map_of_mem _ he')))
  refine h.land hdict hent' hv hr.toAccount
    (hr.contains ptr (Multiset.mem_cons_self _ _) _ ha.contains) (hent ▸ Multiset.le_cons_self _ _)
    (fun k x hk => ?_) (fun e' he' bs hbs => hr.contains _ (hkept e' he') bs (ha.old _ bs hbs))
    (ha.layout.trans hr.layout) hN
  have hne : (⟨k, x⟩ : EntryT PetKVData) ≠ e := fun heq => hk (congrArg EntryT.first heq)
  rw [hent, Multiset.mem_cons, hevicts]
  simp [hne]

/-- **An `Update` of a key that is there.** -/
theorem Inv.updateOld {s s' : PetKV} {leaked : Multiset ℕ} (h : s.Inv leaked)
    {pool : PersistMemoryPool} {ptr : ℕ} {log : List UInt8} (ha : Allocated s leaked pool ptr log)
    {pos : ℕ} {id : Slot} {e : EntryT PetKVData} (hp : pos < s.dict.chunkNum)
    (he : s.dict.slotEntry (pos, id) = some e) {epochs epochs' : Epochs}
    (hrun : ({ s with pool } : PetKV).updateOld epochs epochs' pos id (PetKVData.ofOffset ptr) =
      .ok s') :
    Updated s s' e.first log ∧ s'.Inv leaked ∧ s.evicts e.first = none := by
  have hoff := ha.shmMallocOffset
  have hevicts := evicts_of_mem h.dict hp he
  obtain ⟨v, rest, hinv, hv, hcache, hent, hent'⟩ :=
    setOffset_spec h.dict hp he ha.aligned ha.le
  obtain ⟨queue, pool', hrec, hr, -⟩ := reclaim_spec epochs.safe _ 0 (ha.retire hent epochs.current)
  rw [PetKV.updateOld] at hrun
  simp only [recycle, getMallocData_cacheOffset he, hrec, hoff,
    reread_eq (hcache.trans hoff.symm)] at hrun
  cases hrun
  obtain ⟨hup, hinv⟩ := h.land_old ha hinv hent hent' hv hevicts hr rfl
  exact ⟨hup, hinv, hevicts⟩

/-- **A completed `Update`.** -/
theorem Inv.update {s s' : PetKV} {leaked : Multiset ℕ} (h : s.Inv leaked) {key : UInt64}
    {log : List UInt8} {epochs epochs' : Epochs} (hrun : s.update epochs epochs' key log = .ok s') :
    Updated s s' key log ∧ ∃ lost : Multiset ℕ, s'.Inv (lost + leaked) ∧
      lost.card = if (s.evicts key).isSome then 1 else 0 := by
  rw [PetKV.update] at hrun
  split_ifs at hrun with hretry
  cases hnew : s.pool.new log.length with
  | error e => rw [hnew] at hrun; cases hrun
  | ok r =>
    obtain ⟨pool, ptr⟩ := r
    rw [hnew] at hrun
    simp only [PersistMemoryPool.getMallocOffset] at hrun
    by_cases h8 : ptr / 8 * 8 = ptr
    · simp only [if_pos h8] at hrun
      have ha := h.alloc hnew (by omega)
      rcases h.dict.getInternal_cases key with ⟨pos, id, v, hp, he, hget⟩ | ⟨habs, hget⟩
      · simp only [hget] at hrun
        obtain ⟨hup, hinv, hevicts⟩ := h.updateOld ha hp he hrun
        exact ⟨hup, 0, by rwa [Multiset.zero_add], by simp [hevicts]⟩
      · simp only [hget] at hrun
        exact h.updateNew ha habs hrun
    · simp only [if_neg h8] at hrun
      cases hrun

/-! ### A new store -/

theorem create_eq {memorySize capacity : ℕ} {s : PetKV} (h : create memorySize capacity = .ok s) :
    ∃ pool dict, PersistMemoryPool.create false memorySize slabSizes = .ok pool ∧
      PetHash.initializeTable (V := PetKVData) capacity true = some dict ∧
        s = ⟨dict, pool, []⟩ := by
  rw [create] at h
  cases hpool : PersistMemoryPool.create false memorySize slabSizes with
  | error e => rw [hpool] at h; cases h
  | ok pool =>
    cases hdict : PetHash.initializeTable (V := PetKVData) capacity true with
    | none => simp only [hpool, hdict] at h; cases h
    | some dict =>
      simp only [hpool, hdict] at h
      split_ifs at h
      exact ⟨pool, dict, rfl, rfl, (Except.ok.inj h).symm⟩

theorem create_inv {memorySize capacity : ℕ} {s : PetKV} (h : create memorySize capacity = .ok s) :
    s.Inv 0 ∧ s.dict.entries = 0 ∧ s.recyclePtr = [] := by
  obtain ⟨pool, dict, hpool, hdict, rfl⟩ := create_eq h
  obtain ⟨hp, hN, hmode, hslabs, hspace, -, htotal, hnone⟩ := PersistMemoryPool.create_inv hpool
  obtain ⟨hd, hent⟩ := PetHash.initializeTable_inv hdict
  refine ⟨⟨hd, ?_, hslabs, ⟨hp, hmode, [], ⟨List.nodup_nil, fun a => ?_, htotal⟩, ?_⟩,
    fun e he => ?_⟩, hent, rfl⟩
  · have := Nat.div_mul_le_self memorySize kChunkSize
    simp only [hN]
    omega
  · simpa using fun c i hc => absurd hc (hnone c i)
  · simp [hent]
  · simp [hent] at he

end PetKV

end PetPS

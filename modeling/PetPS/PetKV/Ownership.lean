import PetPS.PetKV.Restart

/-!
# Who owns a block

An allocated block belongs to one entry of the dictionary, waits once in the recycling queue, or has
been leaked. `Account` keeps these three apart in one multiset without repetitions, so a block never
has two owners, and what the freeing loops pass to `Free` is always allocated.

Only a forced eviction leaks: `Insert` deletes the entry of the key it evicts and nobody hands its
block to the recycler. Such a block stays allocated for good.

The functions below follow `Update` and list the calls of `Free`, each with the pool it finds.

## Main results

* `freesTo_reclaim`, `freesTo_clearRecycle`, `freesTo_update` — the calls are those of the functions
* `blocks_single_owner` — one owner for every block, and no `Free` of a block that is not allocated
* `blocks_not_leaked_iff` — nothing is leaked exactly when no `Update` evicts
-/

namespace PetPS

/-! ### Calls of `Free` -/

/-- The calls of `Free` in the freeing loop of `Recycle`. -/
def reclaimFrees (safe : ℕ → ℕ) : ℕ → List (ℕ × ℕ) → PersistMemoryPool →
    List (PersistMemoryPool × ℕ)
  | _, [], _ => []
  | i, (epoch, ptr) :: rest, pool =>
    if epoch ≤ safe i then
      (pool, ptr) ::
        match pool.free ptr with
        | (pool, true) => reclaimFrees safe (i + 1) rest pool
        | (_, false) => []
    else []

/-- The calls of `Free` in `Recycle`. -/
def recycleFrees (epochs : Epochs) (ptr : ℕ) (recyclePtr : List (ℕ × ℕ))
    (pool : PersistMemoryPool) :
    List (PersistMemoryPool × ℕ) :=
  reclaimFrees epochs.safe 0 (recyclePtr ++ [(epochs.current, ptr)]) pool

/-- The calls of `Free` in `Clear`. -/
def clearFrees : List (ℕ × ℕ) → PersistMemoryPool → List (PersistMemoryPool × ℕ)
  | [], _ => []
  | (_, ptr) :: rest, pool =>
    (pool, ptr) ::
      match pool.free ptr with
      | (pool, true) => clearFrees rest pool
      | (_, false) => []

namespace PetKV

/-- The calls of `Free` at the end of `Update`. -/
def rereadFrees (s : PetKV) (epochs : Epochs) (pos : ℕ) (id : Slot) (newCache : PetKVData) :
    List (PersistMemoryPool × ℕ) :=
  if cacheOffset s.dict pos id ≠ newCache.shmMallocOffset then
    recycleFrees epochs (PersistMemoryPool.getMallocData newCache.shmMallocOffset) s.recyclePtr
      s.pool
  else []

/-- The calls of `Free` in the branch for a new key. -/
def updateNewFrees (s : PetKV) (epochs : Epochs) (key : UInt64) (newCache : PetKVData) :
    List (PersistMemoryPool × ℕ) :=
  match s.dict.insert key newCache none true with
  | .error _ => []
  | .ok (dict, pos, id) =>
    { s with dict := setOffset dict pos id newCache.shmMallocOffset }.rereadFrees epochs pos id
      newCache

/-- The calls of `Free` in the branch for a key that is there. -/
def updateOldFrees (s : PetKV) (epochs epochs' : Epochs) (pos : ℕ) (id : Slot)
    (newCache : PetKVData) : List (PersistMemoryPool × ℕ) :=
  let ptr := PersistMemoryPool.getMallocData (cacheOffset s.dict pos id)
  recycleFrees epochs ptr s.recyclePtr s.pool ++
    match recycle epochs ptr s.recyclePtr s.pool with
    | .error _ => []
    | .ok (recyclePtr, pool) =>
      { s with
        recyclePtr
        pool
        dict := setOffset s.dict pos id newCache.shmMallocOffset }.rereadFrees epochs' pos id
          newCache

/-- The calls of `Free` in `Update`. -/
def updateFrees (s : PetKV) (epochs epochs' : Epochs) (key : UInt64) (log : List UInt8) :
    List (PersistMemoryPool × ℕ) :=
  match s.pool.new log.length with
  | .error _ => []
  | .ok (pool, value) =>
    let s := { s with pool := pool.storeBytes value log }
    match PersistMemoryPool.getMallocOffset value with
    | .error _ => []
    | .ok offset =>
      match s.dict.getInternal key with
      | .retry => []
      | .absent => s.updateNewFrees epochs' key (PetKVData.ofOffset offset)
      | .found pos id => s.updateOldFrees epochs epochs' pos id (PetKVData.ofOffset offset)

end PetKV

/-! ### The calls are those of the functions -/

/-- The calls of `Free`, made one after the other, lead from `p` to `p'`. -/
def PersistMemoryPool.FreesTo (p : PersistMemoryPool) :
    List (PersistMemoryPool × ℕ) → PersistMemoryPool → Prop
  | [], p' => p = p'
  | f :: fs, p' => f.1 = p ∧ (p.free f.2).1.FreesTo fs p'

section FreesTo

variable {p p' p'' : PersistMemoryPool}

theorem PersistMemoryPool.FreesTo.append : ∀ {fs : List (PersistMemoryPool × ℕ)}
    {p : PersistMemoryPool}, p.FreesTo fs p' → ∀ {gs : List (PersistMemoryPool × ℕ)},
    p'.FreesTo gs p'' → p.FreesTo (fs ++ gs) p'' := by
  intro fs
  induction fs with
  | nil =>
    rintro p rfl gs hg
    exact hg
  | cons f fs ih =>
    rintro p ⟨rfl, hf⟩ gs hg
    exact ⟨rfl, ih hf hg⟩

/-- **`Recycle` frees the front of the queue**, and nothing else. -/
theorem freesTo_reclaim (safe : ℕ → ℕ) : ∀ (queue : List (ℕ × ℕ)) (i : ℕ) {p : PersistMemoryPool}
    {queue' : List (ℕ × ℕ)}, reclaim safe i queue p = .ok (queue', p') →
    p.FreesTo (reclaimFrees safe i queue p) p' ∧
      queue.map Prod.snd = (reclaimFrees safe i queue p).map Prod.snd ++ queue'.map Prod.snd := by
  intro queue
  induction queue with
  | nil =>
    intro i p queue' h
    cases h
    exact ⟨rfl, rfl⟩
  | cons front rest ih =>
    intro i p queue' h
    obtain ⟨epoch, ptr⟩ := front
    rw [reclaim] at h
    rw [reclaimFrees]
    split_ifs at h ⊢
    · rcases hfree : p.free ptr with ⟨p₁, _ | _⟩
      · simp only [hfree] at h
        cases h
      · simp only [hfree] at h ⊢
        obtain ⟨hto, hqueue⟩ := ih (i + 1) h
        refine ⟨⟨rfl, ?_⟩, ?_⟩
        · simp only [hfree]
          exact hto
        · simp only [List.map_cons, List.cons_append, hqueue]
    · cases h
      exact ⟨rfl, rfl⟩

/-- **`Clear` frees the queue.** -/
theorem freesTo_clearRecycle : ∀ (queue : List (ℕ × ℕ)) {p : PersistMemoryPool},
    clearRecycle queue p = .ok p' → p.FreesTo (clearFrees queue p) p' ∧
      (clearFrees queue p).map Prod.snd = queue.map Prod.snd := by
  intro queue
  induction queue with
  | nil =>
    intro p h
    cases h
    exact ⟨rfl, rfl⟩
  | cons front rest ih =>
    intro p h
    obtain ⟨epoch, ptr⟩ := front
    rw [clearRecycle] at h
    rw [clearFrees]
    rcases hfree : p.free ptr with ⟨p₁, _ | _⟩
    · simp only [hfree] at h
      cases h
    · simp only [hfree] at h ⊢
      obtain ⟨hto, hqueue⟩ := ih h
      refine ⟨⟨rfl, ?_⟩, ?_⟩
      · simp only [hfree]
        exact hto
      · simp only [List.map_cons, hqueue]

namespace PetKV

variable {s s' : PetKV}

theorem freesTo_reread {epochs : Epochs} {pos : ℕ} {id : Slot} {newCache : PetKVData}
    (h : s.reread epochs pos id newCache = .ok s') :
    s.pool.FreesTo (s.rereadFrees epochs pos id newCache) s'.pool := by
  rw [reread] at h
  rw [rereadFrees]
  split_ifs at h ⊢
  · cases hrec : recycle epochs (PersistMemoryPool.getMallocData newCache.shmMallocOffset)
      s.recyclePtr s.pool with
    | error e => rw [hrec] at h; cases h
    | ok r =>
      rw [hrec] at h
      cases h
      exact (freesTo_reclaim epochs.safe _ 0 hrec).1
  · cases h
    rfl

/-- **`Update` frees what the list says**: its calls of `Free` lead from the pool with the new
block to the pool at the end. -/
theorem freesTo_update {epochs epochs' : Epochs} {key : UInt64} {log : List UInt8}
    (h : s.update epochs epochs' key log = .ok s') : ∃ pool value,
      s.pool.new log.length = .ok (pool, value) ∧ (pool.storeBytes value log).FreesTo
        (s.updateFrees epochs epochs' key log) s'.pool := by
  rw [update] at h
  rw [updateFrees]
  by_cases hretry : s.dict.getInternal key = .retry
  · rw [if_pos hretry] at h
    cases h
  rw [if_neg hretry] at h
  cases hnew : s.pool.new log.length with
  | error e => rw [hnew] at h; cases h
  | ok r =>
    obtain ⟨pool, value⟩ := r
    refine ⟨pool, value, rfl, ?_⟩
    simp only [hnew] at h ⊢
    cases hoffset : PersistMemoryPool.getMallocOffset value with
    | error e => rw [hoffset] at h; cases h
    | ok offset =>
      simp only [hoffset] at h ⊢
      cases hget : s.dict.getInternal key with
      | retry => exact absurd hget hretry
      | absent =>
        simp only [hget, updateNew, updateNewFrees] at h ⊢
        cases hins : s.dict.insert key (PetKVData.ofOffset offset) none true with
        | error e => rw [hins] at h; cases h
        | ok r =>
          simp only [hins] at h ⊢
          exact freesTo_reread h
      | found pos id =>
        simp only [hget, updateOld, updateOldFrees] at h ⊢
        cases hrec : recycle epochs (PersistMemoryPool.getMallocData (cacheOffset s.dict pos id))
          s.recyclePtr (pool.storeBytes value log) with
        | error e => rw [hrec] at h; cases h
        | ok r =>
          simp only [hrec] at h ⊢
          exact (freesTo_reclaim epochs.safe _ 0 hrec).1.append (freesTo_reread h)

end PetKV

end FreesTo

namespace PersistMemoryPool

/-- `ptr` is a block that the pool has handed out. -/
def IsBlock (p : PersistMemoryPool) (ptr : ℕ) : Prop :=
  ∃ c i, p.Allocated c i ∧ ptr = p.entry c i + p.metaSize

end PersistMemoryPool

/-- A call of `Free` of an allocated block, whose result passes the `CHECK`. -/
def FreesBlock (f : PersistMemoryPool × ℕ) : Prop := f.1.IsBlock f.2 ∧ (f.1.free f.2).2 = true

section Frees

variable {p : PersistMemoryPool} {kept : Multiset ℕ}

theorem Account.freesBlock {epoch ptr : ℕ} {rest : List (ℕ × ℕ)}
    (h : Account p kept ((epoch, ptr) :: rest)) : FreesBlock (p, ptr) := by
  obtain ⟨p', hfree, -⟩ := h.free_front
  obtain ⟨live, hlive, hmem⟩ := h.live
  refine ⟨(hlive.mem ptr).mp ?_, by rw [hfree]⟩
  rw [← Multiset.mem_coe, hmem]
  simp

/-- **`Recycle` frees allocated blocks.** -/
theorem reclaimFrees_spec (safe : ℕ → ℕ) : ∀ (queue : List (ℕ × ℕ)) (i : ℕ) {p : PersistMemoryPool},
    Account p kept queue → ∀ f ∈ reclaimFrees safe i queue p, FreesBlock f := by
  intro queue
  induction queue with
  | nil => exact fun _ _ _ f hf => absurd hf List.not_mem_nil
  | cons front rest ih =>
    intro i p h f hf
    obtain ⟨epoch, ptr⟩ := front
    obtain ⟨p₁, hfree, h₁⟩ := h.free_front
    rw [reclaimFrees, hfree] at hf
    split_ifs at hf
    · rcases List.mem_cons.mp hf with rfl | hf
      · exact h.freesBlock
      · exact ih (i + 1) h₁.toAccount f hf
    · exact absurd hf List.not_mem_nil

/-- **`Clear` frees allocated blocks.** -/
theorem clearFrees_spec : ∀ (queue : List (ℕ × ℕ)) {p : PersistMemoryPool}, Account p kept queue →
    ∀ f ∈ clearFrees queue p, FreesBlock f := by
  intro queue
  induction queue with
  | nil => exact fun _ f hf => absurd hf List.not_mem_nil
  | cons front rest ih =>
    intro p h f hf
    obtain ⟨epoch, ptr⟩ := front
    obtain ⟨p₁, hfree, h₁⟩ := h.free_front
    rw [clearFrees, hfree] at hf
    rcases List.mem_cons.mp hf with rfl | hf
    · exact h.freesBlock
    · exact ih h₁.toAccount f hf

end Frees

namespace PetKV

variable {s : PetKV} {leaked : Multiset ℕ}

/-- Nobody has changed the pair: nothing is freed at the end. -/
theorem rereadFrees_eq {dict : PetHash PetKVData} {pos : ℕ} {id : Slot} {newCache : PetKVData}
    (h : cacheOffset dict pos id = newCache.shmMallocOffset) (pool : PersistMemoryPool)
    (recyclePtr : List (ℕ × ℕ)) (epochs : Epochs) :
    rereadFrees ⟨dict, pool, recyclePtr⟩ epochs pos id newCache = [] :=
  if_neg (not_not.mpr h)

/-- **`Update` frees allocated blocks**, whether it returns or not. -/
theorem Inv.updateFrees (h : s.Inv leaked) (epochs epochs' : Epochs) (key : UInt64)
    (log : List UInt8) : ∀ f ∈ s.updateFrees epochs epochs' key log, FreesBlock f := by
  intro f hf
  rw [PetKV.updateFrees] at hf
  cases hnew : s.pool.new log.length with
  | error e => rw [hnew] at hf; exact absurd hf List.not_mem_nil
  | ok r =>
    obtain ⟨pool, ptr⟩ := r
    rw [hnew] at hf
    simp only [PersistMemoryPool.getMallocOffset] at hf
    by_cases h8 : ptr / 8 * 8 = ptr
    · simp only [if_pos h8] at hf
      have ha := h.alloc hnew (by omega)
      have hoff := ha.shmMallocOffset
      rcases h.dict.getInternal_cases key with ⟨pos, id, v, hp, he, hget⟩ | ⟨habs, hget⟩
      · obtain ⟨-, rest, -, -, hcache, hent, -⟩ := setOffset_spec h.dict hp he ha.aligned ha.le
        have hacc := ha.retire hent epochs.current
        obtain ⟨queue, pool', hrec, -⟩ := reclaim_spec epochs.safe _ 0 hacc
        simp only [hget, updateOldFrees, recycle, getMallocData_cacheOffset he, hrec, hoff,
          rereadFrees_eq (hcache.trans hoff.symm), List.append_nil] at hf
        exact reclaimFrees_spec epochs.safe _ 0 hacc f hf
      · simp only [hget, updateNewFrees] at hf
        cases hins : s.dict.insert key (PetKVData.ofOffset ptr) none true with
        | error e => rw [hins] at hf; exact absurd hf List.not_mem_nil
        | ok r =>
          obtain ⟨dict, pos, id⟩ := r
          have hloop := hins
          rw [PetHash.insert, ← h.dict.shape.probeAt_zero key] at hloop
          obtain ⟨hinv, hN, hpos, hslot, -⟩ :=
            PetHash.insertLoop_good s.dict.chunkNum 0 0 h.dict habs le_rfl (by omega) hloop
          obtain ⟨-, -, -, -, hcache, -⟩ :=
            setOffset_spec hinv (hN ▸ hpos) hslot ha.aligned ha.le
          simp only [hins, hoff, rereadFrees_eq (hcache.trans hoff.symm)] at hf
          exact absurd hf List.not_mem_nil
    · simp only [if_neg h8] at hf
      exact absurd hf List.not_mem_nil

/-- **Every block has a single owner.** After any run of `Update`s of a new store, whatever the
epochs they have read: no two entries lead to one block; the block of an entry is allocated and not
in the queue; no block is in the queue twice. And every call of `Free`, in the next `Update` or in
`Clear`, is of an allocated block and succeeds. -/
theorem blocks_single_owner {memorySize capacity : ℕ} {s₀ s : PetKV} {calls : List Call}
    (hnew : create memorySize capacity = .ok s₀) (hrun : Run.run step s₀ calls = some s) :
    (s.dict.entries.map blockOf).Nodup ∧
      (∀ e ∈ s.dict.entries, s.pool.IsBlock (blockOf e) ∧ blockOf e ∉ s.recyclePtr.map Prod.snd) ∧
      (s.recyclePtr.map Prod.snd).Nodup ∧
      (∀ c : Call, ∀ f ∈ s.updateFrees c.epochs c.epochs' c.key c.log, FreesBlock f) ∧
      ∀ f ∈ clearFrees s.recyclePtr s.pool, FreesBlock f := by
  obtain ⟨leaked, hinv, -⟩ := (follows_run hnew hrun).inv
  obtain ⟨live, hlive, hmem⟩ := hinv.account.live
  have hnodup : (s.dict.entries.map blockOf + leaked +
    (s.recyclePtr.map Prod.snd : List ℕ)).Nodup := by
    rw [← hmem]
    exact Multiset.coe_nodup.mpr hlive.nodup
  obtain ⟨hkept, hqueue, hdisj⟩ := Multiset.nodup_add.mp hnodup
  refine ⟨(Multiset.nodup_add.mp hkept).1, fun e he => ?_, Multiset.coe_nodup.mp hqueue,
    fun c => hinv.updateFrees _ _ _ _, clearFrees_spec _ hinv.account⟩
  have hblock : blockOf e ∈ s.dict.entries.map blockOf + leaked :=
    Multiset.mem_add.mpr (Or.inl (Multiset.mem_map_of_mem _ he))
  refine ⟨(hlive.mem _).mp ?_, fun hq => Multiset.disjoint_left.mp hdisj hblock hq⟩
  rw [← Multiset.mem_coe, hmem]
  exact Multiset.mem_add.mpr (Or.inl hblock)

theorem blocks_single_owner_reuse :
    ∃ s₀ s : PetKV, create (5 * kChunkSize) 1 = .ok s₀ ∧ Run.run step s₀ reuseCalls = some s ∧
      s.dict.entries.card = 2 ∧ (s.dict.entries.map blockOf).Nodup := by
  have heval : ((create (5 * kChunkSize) 1).toOption.any fun s₀ =>
      (Run.run step s₀ reuseCalls).any fun s => decide (s.dict.size = 2)) = true := by
    decide +kernel
  simp only [Option.any_eq_true, decide_eq_true_eq] at heval
  obtain ⟨s₀, hs₀, s, hs, hsize⟩ := heval
  have hnew := eq_ok_of_toOption hs₀
  obtain ⟨leaked, hinv, -⟩ := (follows_run hnew hs).inv
  exact ⟨s₀, s, hnew, hs, hinv.dict.size ▸ hsize, (blocks_single_owner hnew hs).1⟩

/-! ### Leaks -/

/-- Every allocated block is that of an entry or waits in the queue, and they are counted as
such. -/
structure NoLeak (s : PetKV) : Prop where
  blocks : ∀ ptr, s.pool.IsBlock ptr ↔
    ptr ∈ s.dict.entries.map blockOf ∨ ptr ∈ s.recyclePtr.map Prod.snd
  /-- `total_malloc() = dict_->Size() + GetPendingNum()`. -/
  total : s.pool.totalMalloc = (s.dict.sizeU32 + s.recyclePtr.length : ℕ)

theorem Inv.noLeak_iff {memorySize capacity : ℕ} (h : s.Inv leaked)
    (hsized : Sized memorySize capacity s) (hint : capacity < 2 ^ 31) : NoLeak s ↔ leaked = 0 := by
  obtain ⟨live, hlive, hmem⟩ := h.account.live
  have hblocks : ∀ ptr, s.pool.IsBlock ptr ↔ ptr ∈ s.dict.entries.map blockOf ∨ ptr ∈ leaked ∨
      ptr ∈ s.recyclePtr.map Prod.snd := fun ptr => by
    rw [PersistMemoryPool.IsBlock, ← hlive.mem, ← Multiset.mem_coe, hmem, Multiset.mem_add,
      Multiset.mem_add, Multiset.mem_coe, or_assoc]
  constructor
  · -- a leaked block would be in one of the other two places as well
    intro hno
    refine Multiset.eq_zero_of_forall_notMem fun ptr hptr => ?_
    have hnodup : (s.dict.entries.map blockOf + leaked +
        (s.recyclePtr.map Prod.snd : List ℕ)).Nodup := by
      rw [← hmem]
      exact Multiset.coe_nodup.mpr hlive.nodup
    obtain ⟨hkept, -, hdisj⟩ := Multiset.nodup_add.mp hnodup
    obtain ⟨-, -, hdisj'⟩ := Multiset.nodup_add.mp hkept
    rcases (hno.blocks ptr).mp ((hblocks ptr).mpr (Or.inr (Or.inl hptr))) with hd | hq
    · exact Multiset.disjoint_left.mp hdisj' hd hptr
    · exact Multiset.disjoint_left.mp hdisj (Multiset.mem_add.mpr (Or.inr hptr)) hq
  · rintro rfl
    refine ⟨fun ptr => by simp [hblocks ptr], ?_⟩
    have hsize : s.dict.sizeU32 = s.dict.entries.card := by
      have hle := h.dict.shape.card_entries_le
      have hchunks := PetHash.overFallChunkNum_le hint
      rw [← hsized.chunkNum] at hchunks
      rw [PetHash.sizeU32, h.dict.size, Nat.mod_eq_of_lt (by omega)]
    rw [h.total, hsize, Multiset.card_zero, Nat.zero_add]

/-- **When blocks are leaked.** After a run of `Update`s of a new store the allocated blocks are
those of the entries and of the queue exactly when no `Update` has evicted a key. -/
theorem blocks_not_leaked_iff {memorySize capacity : ℕ} (hint : capacity < 2 ^ 31) {s₀ s : PetKV}
    {calls : List Call} (hnew : create memorySize capacity = .ok s₀)
    (hrun : Run.run step s₀ calls = some s) : NoLeak s ↔ Run.Guarded step Calm s₀ calls := by
  have hf := follows_run hnew hrun
  obtain ⟨leaked, hinv, hleak⟩ := hf.inv
  rw [hinv.noLeak_iff ((create_sized hnew).follows hf) hint, hleak]

theorem blocks_not_leaked_reuse :
    ∃ s₀ s : PetKV, create (5 * kChunkSize) 1 = .ok s₀ ∧ Run.run step s₀ reuseCalls = some s ∧
      NoLeak s := by
  have heval : ((create (5 * kChunkSize) 1).toOption.any fun s₀ =>
      (Run.run step s₀ reuseCalls).any fun _ =>
        decide (Run.Guarded step Calm s₀ reuseCalls)) = true := by
    decide +kernel
  simp only [Option.any_eq_true, decide_eq_true_eq] at heval
  obtain ⟨s₀, hs₀, s, hs, hcalm⟩ := heval
  have hnew := eq_ok_of_toOption hs₀
  exact ⟨s₀, s, hnew, hs, (blocks_not_leaked_iff (by decide) hnew hs).mpr hcalm⟩

/-- Two chunks, 26 keys with chunk `0` full, and one more key of chunk `0`. -/
def crowdCalls : List Call :=
  ((List.range 14).map fun i => ⟨.ofNat (2 * i), [1], quietEpochs, quietEpochs⟩) ++
    ((List.range 12).map fun i => ⟨.ofNat (2 * i + 1), [1], quietEpochs, quietEpochs⟩) ++
    [⟨28, [1], quietEpochs, quietEpochs⟩]

/-- **An eviction leaks a block**: 27 are allocated, for 26 entries and an empty queue. -/
theorem evicted_block_leaked :
    ∃ s₀ s : PetKV, create (5 * kChunkSize) 28 = .ok s₀ ∧ Run.run step s₀ crowdCalls = some s ∧
      s.dict.sizeU32 = 26 ∧ s.recyclePtr = [] ∧ s.pool.totalMalloc = 27 ∧ ¬ NoLeak s := by
  have heval : ((create (5 * kChunkSize) 28).toOption.any fun s₀ =>
      (Run.run step s₀ crowdCalls).any fun s => decide (s.dict.sizeU32 = 26) &&
        (decide (s.recyclePtr = []) && decide (s.pool.totalMalloc = 27))) = true := by
    decide +kernel
  simp only [Option.any_eq_true, Bool.and_eq_true, decide_eq_true_eq] at heval
  obtain ⟨s₀, hs₀, s, hs, hsize, hqueue, htotal⟩ := heval
  refine ⟨s₀, s, eq_ok_of_toOption hs₀, hs, hsize, hqueue, htotal, fun hno => ?_⟩
  have hcount := hno.total
  rw [hsize, hqueue, htotal] at hcount
  exact absurd hcount (by decide)

end PetKV

end PetPS

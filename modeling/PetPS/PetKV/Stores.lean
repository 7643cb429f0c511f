import PetPS.Memory.PoolStores
import PetPS.PetHash.HashStores
import PetPS.PetKV.Restart

/-!
# The stores of `Update`

The two mapped files as one image, and what `Update` writes into them in program order: the pool for
the new block, the bytes, then the dictionary, and for a key that is there the bits of the
blocks that the recycler frees before the word of the entry. An `Update` that aborts has made the
stores up to the abort.

## Main results

* `reclaimStores_cut` — the freeing loop, cut anywhere
* `Inv.exec_updateStores` — the stores of an `Update` that returns are its whole effect
-/

namespace PetPS

open Cut PersistMemoryPool

/-! ### Recycling -/

/-- The freeing loop of `Recycle`. -/
def reclaimStores (safe : ℕ → ℕ) : ℕ → List (ℕ × ℕ) → PersistMemoryPool → List PoolStore
  | _, [], _ => []
  | i, (epoch, ptr) :: rest, pool =>
    if epoch ≤ safe i then
      pool.freeStores ptr ++
        match pool.free ptr with
        | (pool, true) => reclaimStores safe (i + 1) rest pool
        | (_, false) => []
    else []

/-- `ShmEpochRecycle::Recycle`. -/
def recycleStores (epochs : Epochs) (ptr : ℕ) (recyclePtr : List (ℕ × ℕ))
    (pool : PersistMemoryPool) :
    List PoolStore :=
  reclaimStores epochs.safe 0 (recyclePtr ++ [(epochs.current, ptr)]) pool

theorem freeStores_of_free {p p' : PersistMemoryPool} {ptr : ℕ} (h : p.free ptr = (p', true)) :
    ∃ c i, p.freeStores ptr = [.clearBit c i] := by
  rw [free] at h
  rw [freeStores]
  split_ifs at h ⊢
  · exact ⟨_, _, rfl⟩
  · cases h

/-- **The freeing loop, cut anywhere**: each store frees one block, the first of the queue. -/
theorem reclaimStores_cut (safe : ℕ → ℕ) : ∀ (queue : List (ℕ × ℕ)) (i : ℕ) {p : PersistMemoryPool}
    {kept : Multiset ℕ}, Account p kept queue →
    Always PoolFile.apply (fun done file => ∃ p' queue', Reclaimed p p' kept queue' ∧
      p'.file = file ∧ queue'.length + done.length = queue.length ∧
      ∀ a ∈ done, PoolStore.frees a = true) p.file (reclaimStores safe i queue p) := by
  intro queue
  induction queue with
  | nil =>
    intro i p kept h
    exact always_nil.mpr ⟨p, [], h.reclaimed, rfl, rfl, fun a ha => absurd ha List.not_mem_nil⟩
  | cons front rest ih =>
    intro i p kept h
    obtain ⟨epoch, ptr⟩ := front
    have hnil : ∃ p' queue', Reclaimed p p' kept queue' ∧ p'.file = p.file ∧
        queue'.length + 0 = ((epoch, ptr) :: rest).length ∧
        ∀ a ∈ ([] : List PoolStore), PoolStore.frees a = true :=
      ⟨p, _, h.reclaimed, rfl, rfl, fun a ha => absurd ha List.not_mem_nil⟩
    rw [reclaimStores]
    by_cases hsafe : epoch ≤ safe i
    · obtain ⟨p₁, hfree, h₁⟩ := h.free_front
      obtain ⟨c, e, hstores⟩ := freeStores_of_free hfree
      have hexec := exec_freeStores hfree
      rw [hstores, exec_cons, exec_nil] at hexec
      simp only [if_pos hsafe, hfree, hstores, List.singleton_append]
      refine always_cons.mpr ⟨hnil, ?_⟩
      rw [hexec]
      refine (ih (i + 1) h₁.toAccount).mono fun done file hdone => ?_
      obtain ⟨p', queue', hr, hfile, hlen, hfrees⟩ := hdone
      refine ⟨p', queue', h₁.trans hr, hfile, ?_, fun a ha => ?_⟩
      · rw [List.length_cons, List.length_cons]
        omega
      · rcases List.mem_cons.mp ha with rfl | ha
        · rfl
        · exact hfrees a ha
    · rw [if_neg hsafe]
      exact always_nil.mpr hnil

/-- All the stores of the loop. -/
theorem exec_reclaimStores (safe : ℕ → ℕ) : ∀ (queue queue' : List (ℕ × ℕ)) (i : ℕ)
    {p p' : PersistMemoryPool}, reclaim safe i queue p = .ok (queue', p') →
    exec PoolFile.apply p.file (reclaimStores safe i queue p) = p'.file := by
  intro queue
  induction queue with
  | nil => intro queue' i p p' h; cases h; rfl
  | cons front rest ih =>
    intro queue' i p p' h
    obtain ⟨epoch, ptr⟩ := front
    rw [reclaim] at h
    rw [reclaimStores]
    split_ifs at h ⊢ with hsafe
    · cases hfree : p.free ptr with
      | mk p₁ b =>
        rw [hfree] at h
        cases b with
        | false => cases h
        | true =>
          rw [exec_append, exec_freeStores hfree]
          exact ih queue' (i + 1) h
    · cases h
      rfl

namespace PetKV

/-! ### The image -/

/-- A store into one of the files. -/
inductive Store
  /-- Into `value`. -/
  | pool (a : PoolStore)
  /-- Into `dict`. -/
  | dict (a : HashStore PetKVData)

/-- The effect of a store. -/
def Image.apply (im : Image) : Store → Image
  | .pool a => { im with file := im.file.apply a }
  | .dict a => { im with dict := im.dict.apply a }

/-- The files of a store in use. -/
def image (s : PetKV) : Image := ⟨s.dict, s.pool.file⟩

/-- `p_cache->SetShmMallocOffset(offset)`. -/
def offsetStore (t : PetHash PetKVData) (pos : ℕ) (id : Slot) (offset : ℤ) : Store :=
  .dict (.value pos id (((t.chunkTable pos).value id).second.setShmMallocOffset offset))

/-- The end of `Update`. -/
def rereadStores (s : PetKV) (epochs : Epochs) (pos : ℕ) (id : Slot) (newCache : PetKVData) :
    List Store :=
  if cacheOffset s.dict pos id ≠ newCache.shmMallocOffset then
    (recycleStores epochs (getMallocData newCache.shmMallocOffset) s.recyclePtr s.pool).map .pool
  else []

/-- The branch of `Update` for a new key. -/
def updateNewStores (s : PetKV) (epochs : Epochs) (key : UInt64) (newCache : PetKVData) :
    List Store :=
  (s.dict.insertStores key newCache true).map .dict ++
    match s.dict.insert key newCache none true with
    | .error _ => []
    | .ok (dict, pos, id) =>
      offsetStore dict pos id newCache.shmMallocOffset ::
        { s with dict := setOffset dict pos id newCache.shmMallocOffset }.rereadStores epochs pos id
          newCache

/-- The branch of `Update` for a key that is in slot `id` of the chunk at `pos`. -/
def updateOldStores (s : PetKV) (epochs epochs' : Epochs) (pos : ℕ) (id : Slot)
    (newCache : PetKVData) : List Store :=
  let old := getMallocData (cacheOffset s.dict pos id)
  (recycleStores epochs old s.recyclePtr s.pool).map .pool ++
    match recycle epochs old s.recyclePtr s.pool with
    | .error _ => []
    | .ok (recyclePtr, pool) =>
      offsetStore s.dict pos id newCache.shmMallocOffset ::
        { s with
          recyclePtr
          pool
          dict := setOffset s.dict pos id newCache.shmMallocOffset }.rereadStores epochs' pos id
            newCache

/-- `Update` after `New` has returned the block `value` of `pool`. -/
def writeStores (s : PetKV) (c : Call) (pool : PersistMemoryPool) (value : ℕ) : List Store :=
  (memcpyStores value c.log).map .pool ++
    let s := { s with pool := pool.storeBytes value c.log }
    match getMallocOffset value with
    | .error _ => []
    | .ok offset =>
      match s.dict.getInternal c.key with
      | .retry => []
      | .absent => s.updateNewStores c.epochs' c.key (PetKVData.ofOffset offset)
      | .found pos id => s.updateOldStores c.epochs c.epochs' pos id (PetKVData.ofOffset offset)

/-- **The stores of `Update`.** -/
def updateStores (s : PetKV) (c : Call) : List Store :=
  if s.dict.getInternal c.key = .retry then []
  else
    (s.pool.newStores c.log.length).map .pool ++
      match s.pool.new c.log.length with
      | .error _ => []
      | .ok (pool, value) => s.writeStores c pool value

theorem exec_pool (dict : PetHash PetKVData) (file : PoolFile) (as : List PoolStore) :
    exec Image.apply ⟨dict, file⟩ (as.map .pool) = ⟨dict, exec PoolFile.apply file as⟩ :=
  exec_map (g := fun file => (⟨dict, file⟩ : Image)) (fun _ _ => rfl) as

theorem exec_dict (dict : PetHash PetKVData) (file : PoolFile) (as : List (HashStore PetKVData)) :
    exec Image.apply ⟨dict, file⟩ (as.map .dict) = ⟨exec PetHash.apply dict as, file⟩ :=
  exec_map (g := fun dict => (⟨dict, file⟩ : Image)) (fun _ _ => rfl) as

theorem exec_offsetStore (t : PetHash PetKVData) (file : PoolFile) (pos : ℕ) (id : Slot)
    (offset : ℤ) :
    Image.apply ⟨t, file⟩ (offsetStore t pos id offset) = ⟨setOffset t pos id offset, file⟩ := rfl

theorem exec_rereadStores {s s' : PetKV} {epochs : Epochs} {pos : ℕ} {id : Slot}
    {newCache : PetKVData} (h : s.reread epochs pos id newCache = .ok s') :
    exec Image.apply s.image (s.rereadStores epochs pos id newCache) = s'.image := by
  rw [reread] at h
  rw [rereadStores]
  split_ifs at h ⊢
  · cases hrec : recycle epochs (getMallocData newCache.shmMallocOffset) s.recyclePtr s.pool with
    | error e => rw [hrec] at h; cases h
    | ok r =>
      obtain ⟨queue, pool⟩ := r
      rw [hrec] at h
      cases h
      rw [image, exec_pool, recycleStores, exec_reclaimStores _ _ _ _ hrec]
      rfl
  · cases h
    rfl

theorem exec_updateNewStores {s s' : PetKV} {epochs : Epochs} {key : UInt64} {newCache : PetKVData}
    (h : s.updateNew epochs key newCache = .ok s') :
    exec Image.apply s.image (s.updateNewStores epochs key newCache) = s'.image := by
  rw [updateNew] at h
  rw [updateNewStores]
  cases hins : s.dict.insert key newCache none true with
  | error e => rw [hins] at h; cases h
  | ok r =>
    obtain ⟨dict, pos, id⟩ := r
    simp only [hins] at h
    have hdict : exec PetHash.apply s.dict (s.dict.insertStores key newCache true) = dict :=
      PetHash.exec_insertLoopStores _ _ _ hins
    rw [image, exec_append, exec_dict, hdict]
    simp only [exec_cons, exec_offsetStore]
    exact exec_rereadStores h

theorem exec_updateOldStores {s s' : PetKV} {epochs epochs' : Epochs} {pos : ℕ} {id : Slot}
    {newCache : PetKVData} (h : s.updateOld epochs epochs' pos id newCache = .ok s') :
    exec Image.apply s.image (s.updateOldStores epochs epochs' pos id newCache) = s'.image := by
  rw [updateOld] at h
  rw [updateOldStores]
  cases hrec : recycle epochs (getMallocData (cacheOffset s.dict pos id)) s.recyclePtr s.pool with
  | error e => rw [hrec] at h; cases h
  | ok r =>
    obtain ⟨queue, pool⟩ := r
    simp only [hrec] at h
    have hfile : exec PoolFile.apply s.pool.file (recycleStores epochs
        (getMallocData (cacheOffset s.dict pos id)) s.recyclePtr s.pool) = pool.file :=
      exec_reclaimStores _ _ _ _ hrec
    simp only [image, exec_append, exec_pool, hfile, exec_cons, exec_offsetStore]
    exact exec_rereadStores h

/-- **The stores of an `Update` that returns are its whole effect** on the files. -/
theorem Inv.exec_updateStores {s s' : PetKV} {leaked : Multiset ℕ} (h : s.Inv leaked) {c : Call}
    (hrun : s.update c.epochs c.epochs' c.key c.log = .ok s') :
    exec Image.apply s.image (s.updateStores c) = s'.image := by
  rw [PetKV.update] at hrun
  rw [updateStores]
  split_ifs at hrun ⊢ with hretry
  obtain ⟨pre, post, hstores, hcut⟩ := h.account.inv.newStores_cut h.account.mode c.log.length
  cases hnew : s.pool.new c.log.length with
  | error e => rw [hnew] at hrun; cases hrun
  | ok r =>
    obtain ⟨pool, value⟩ := r
    obtain ⟨-, -, -, -, -, hexec⟩ := hcut.ok pool value hnew
    rw [hnew] at hrun
    rw [exec_append, image, exec_pool, hstores, hexec]
    simp only [writeStores, exec_append, exec_pool, exec_memcpyStores] at hrun ⊢
    cases hoff : getMallocOffset value with
    | error e => rw [hoff] at hrun; cases hrun
    | ok offset =>
      simp only [hoff] at hrun
      cases hget : s.dict.getInternal c.key with
      | retry => rw [hget] at hrun; cases hrun
      | absent =>
        simp only [hget] at hrun
        exact exec_updateNewStores hrun
      | found pos id =>
        simp only [hget] at hrun
        exact exec_updateOldStores hrun

end PetKV

end PetPS

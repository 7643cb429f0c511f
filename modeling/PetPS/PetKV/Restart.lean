import PetPS.Memory.PoolReopen
import PetPS.PetHash.Reload
import PetPS.PetKV.Run

/-!
# Closing and opening a `PetKV`

The destructor frees what is still to be recycled; the files stay. The constructor on existing files
opens the pool from its headers and the dictionary from its slots, one without regard to the
other, and ends with the check that they agree on the number of values.

They disagree after an eviction, which drops an entry but not its block, and when the key `-1` is
stored, which the dictionary does not count. Nothing else can go wrong.

## Main results

* `restart_faithful_iff` — a restart succeeds and keeps every value exactly when no `Update` was
  of the key `-1` and none evicted
-/

namespace PetPS

/-- The blocks of a pool, counted by their bits. -/
theorem Account.blocks {p : PersistMemoryPool} {kept : Multiset ℕ} {queue : List (ℕ × ℕ)}
    (h : Account p kept queue) :
    ∑ c ∈ Finset.range p.nrChunks, p.file.usedBits c = kept.card + queue.length := by
  obtain ⟨live, hlive, hmem⟩ := h.live
  rw [← hlive.length_eq h.inv, ← Multiset.coe_card, hmem, Multiset.card_add, Multiset.coe_card,
    List.length_map]

/-- The blocks are the same in a pool that was opened again. -/
theorem Account.reopened {p : PersistMemoryPool} {kept : Multiset ℕ} (h : Account p kept []) :
    Account p.reopened kept [] := by
  obtain ⟨live, hlive, hmem⟩ := h.live
  exact ⟨h.inv.reopened, h.mode, live, hlive.reopened h.inv, hmem⟩

namespace PetKV

/-- What the files hold when no process has them open. -/
structure Image where
  /-- `dict`. -/
  dict : PetHash PetKVData
  /-- `value`. -/
  file : PoolFile

/-- `~PetKV`. -/
def destroy (s : PetKV) : Except Abort Image :=
  match clearRecycle s.recyclePtr s.pool with
  | .error e => .error e
  | .ok pool => .ok ⟨s.dict, pool.file⟩

/-- The end of the constructor, `CHECK_EQ(dict_->Size(), shm_malloc_->total_malloc())`. -/
def opened (dict : PetHash PetKVData) (pool : PersistMemoryPool) : Except Abort PetKV :=
  if (dict.sizeU32 : ℤ) = pool.totalMalloc then .ok ⟨dict, pool, []⟩ else .error .check

/-- The constructor on existing files. -/
def reopen (memorySize capacity : ℕ) (im : Image) : Except Abort PetKV :=
  match PersistMemoryPool.reopen false im.file memorySize slabSizes with
  | .error e => .error e
  | .ok pool =>
    match im.dict.valid (PetHash.memorySize capacity true) with
    | .error e => .error e
    | .ok false =>
      match PetHash.initializeTable capacity true with
      | none => .error .check
      | some dict => opened dict pool
    | .ok true =>
      match im.dict.reload capacity true with
      | .error e => .error e
      | .ok dict => opened dict pool

/-- Destroy the object and construct it again. -/
def restart (memorySize capacity : ℕ) (s : PetKV) : Except Abort PetKV :=
  match s.destroy with
  | .error e => .error e
  | .ok im => reopen memorySize capacity im

/-! ### What opening does with the files -/

/-- Files of the right sizes. -/
structure Openable (memorySize capacity : ℕ) (im : Image) : Prop where
  /-- The pool file can be mapped. -/
  space : memorySize ≤ userSpace
  /-- There are enough chunks. -/
  room : slabSizes.length ≤ memorySize / kChunkSize
  /-- The pool was made with these slab sizes. -/
  classed : im.file.Classed (memorySize / kChunkSize) slabSizes
  /-- `capacity` is an `int`. -/
  int : capacity < 2 ^ 31
  /-- The dictionary was made for this capacity. -/
  chunkNum : im.dict.chunkNum = PetHash.overFallChunkNum capacity
  dictCapacity : im.dict.capacity = im.dict.chunkNum * 14

/-- The blocks that the pool file says are allocated. -/
def Image.blocks (im : Image) (memorySize : ℕ) : ℕ :=
  ∑ c ∈ Finset.range (memorySize / kChunkSize), im.file.usedBits c

section Openable

variable {memorySize capacity : ℕ} {im : Image}

theorem Openable.pow (h : Openable memorySize capacity im) : ∃ k, im.dict.chunkNum = 2 ^ k := by
  rw [h.chunkNum]
  exact PetHash.exists_overFallChunkNum_eq capacity

/-- An `int` can count the chunks. -/
theorem Openable.chunkNum_le (h : Openable memorySize capacity im) : im.dict.chunkNum ≤ 2 ^ 31 := by
  have hchunks := PetHash.overFallChunkNum_le h.int
  rw [h.chunkNum]
  omega

/-- `Size` is not truncated. -/
theorem Openable.keyed_lt (h : Openable memorySize capacity im) :
    im.dict.keyedEntries.card < 2 ^ 32 := by
  have hchunks := PetHash.overFallChunkNum_le h.int
  have hsum := Finset.sum_le_card_nsmul (Finset.range im.dict.chunkNum)
    (fun p => (im.dict.chunkTable p).keyed.card) 14 fun p _ => F14Chunk.card_keyed_le _
  rw [← PetHash.card_keyedEntries, Finset.card_range, h.chunkNum, nsmul_eq_mul] at hsum
  simp only [Nat.cast_id] at hsum
  omega

/-- **When opening succeeds.** The dictionary is used again and has as many keys as the pool has
blocks, or it is discarded and there are no blocks. -/
theorem Openable.blocks_of_reopen (h : Openable memorySize capacity im) {s : PetKV}
    (hrun : reopen memorySize capacity im = .ok s) :
    (im.dict.valid (PetHash.memorySize capacity true) = .ok true ∧
        im.dict.keyedEntries.card = im.blocks memorySize) ∨
      im.dict.valid (PetHash.memorySize capacity true) = .ok false ∧ im.blocks memorySize = 0 := by
  rw [reopen, PersistMemoryPool.reopen_eq h.space h.room h.classed] at hrun
  simp only at hrun
  cases hvalid : im.dict.valid (PetHash.memorySize capacity true) with
  | error e => rw [hvalid] at hrun; cases hrun
  | ok b =>
    cases b with
    | true =>
      left
      obtain ⟨dict, hreload, hsize⟩ := PetHash.reload_size true h.chunkNum h.pow
      simp only [hvalid, hreload, opened, PersistMemoryPool.recovered_totalMalloc, PetHash.sizeU32,
        hsize, Nat.mod_eq_of_lt h.keyed_lt] at hrun
      split_ifs at hrun with hcheck
      exact ⟨rfl, Int.ofNat.inj hcheck⟩
    | false =>
      right
      cases hinit : PetHash.initializeTable (V := PetKVData) capacity true with
      | none => simp only [hvalid, hinit] at hrun; cases hrun
      | some dict =>
        obtain ⟨hinv, hent⟩ := PetHash.initializeTable_inv hinit
        simp only [hvalid, hinit, opened, PersistMemoryPool.recovered_totalMalloc, PetHash.sizeU32,
          hinv.size, hent, Multiset.card_zero] at hrun
        split_ifs at hrun with hcheck
        exact ⟨rfl, (Int.ofNat.inj hcheck).symm⟩

/-- **Opening files that agree.** -/
theorem Openable.reopen_eq (h : Openable memorySize capacity im)
    (hvalid : im.dict.valid (PetHash.memorySize capacity true) = .ok true)
    (hre : im.dict.Reloadable) (hcount : im.dict.keyedEntries.card = im.blocks memorySize) :
    ∃ dict, dict.Inv ∧ dict.entries = im.dict.keyedEntries ∧ dict.chunkNum = im.dict.chunkNum ∧
      reopen memorySize capacity im = .ok ⟨dict, (PersistMemoryPool.unrecovered false im.file
        (memorySize / kChunkSize) slabSizes).recovered
          (List.range (memorySize / kChunkSize)), []⟩ := by
  obtain ⟨dict, hreload, hinv, hent, hN⟩ := hre.reload true h.chunkNum
  refine ⟨dict, hinv, hent, hN, ?_⟩
  rw [reopen, PersistMemoryPool.reopen_eq h.space h.room h.classed]
  simp only [hvalid, hreload, opened, PersistMemoryPool.recovered_totalMalloc]
  refine if_pos ?_
  rw [PetHash.sizeU32, hinv.size, hent, Nat.mod_eq_of_lt h.keyed_lt, hcount]
  rfl

end Openable

/-- `Get` depends on the dictionary and the bytes. -/
theorem read_congr {s s' : PetKV} {key : UInt64} (hget : s'.dict.get key = s.dict.get key)
    (hbytes : s'.pool.file.bytes = s.pool.file.bytes) (hmode : s.pool.perfectFit = false)
    (hmode' : s'.pool.perfectFit = false) : s'.read key = s.read key := by
  simp only [read, get, hget, PersistMemoryPool.getMallocSize, hmode, hmode', hbytes,
    Bool.false_eq_true, if_false]

/-! ### A new store, and the stores that come from it -/

/-- The store has the parameters of the constructor. -/
structure Sized (memorySize capacity : ℕ) (s : PetKV) : Prop where
  space : memorySize ≤ userSpace
  room : slabSizes.length ≤ memorySize / kChunkSize
  nrChunks : s.pool.nrChunks = memorySize / kChunkSize
  chunkNum : s.dict.chunkNum = PetHash.overFallChunkNum capacity

theorem create_sized {memorySize capacity : ℕ} {s : PetKV}
    (h : create memorySize capacity = .ok s) : Sized memorySize capacity s := by
  obtain ⟨pool, dict, hpool, hdict, rfl⟩ := create_eq h
  have hc := PersistMemoryPool.create_inv hpool
  exact ⟨hc.space, hc.room, hc.nrChunks, PetHash.initializeTable_chunkNum hdict⟩

theorem Sized.follows {memorySize capacity : ℕ} {s₀ s : PetKV} {calls : List Call}
    (h : Sized memorySize capacity s₀) (hf : Follows s₀ calls s) : Sized memorySize capacity s :=
  ⟨h.space, h.room, hf.layout.nrChunks.trans h.nrChunks, hf.chunkNum.trans h.chunkNum⟩

/-! ### Restarting -/

/-- The files after the destructor. -/
theorem Inv.destroy {s : PetKV} {leaked : Multiset ℕ} (h : s.Inv leaked) {memorySize capacity : ℕ}
    (hsized : Sized memorySize capacity s) (hint : capacity < 2 ^ 31) :
    ∃ pool, s.destroy = .ok ⟨s.dict, pool.file⟩ ∧
      Reclaimed s.pool pool (s.dict.entries.map blockOf + leaked) [] ∧
      Openable memorySize capacity ⟨s.dict, pool.file⟩ ∧
      Image.blocks ⟨s.dict, pool.file⟩ memorySize = s.dict.entries.card + leaked.card := by
  obtain ⟨pool, hclear, hr⟩ := clearRecycle_spec s.recyclePtr h.account
  have hN : pool.nrChunks = memorySize / kChunkSize := hr.layout.nrChunks.trans hsized.nrChunks
  refine ⟨pool, by rw [PetKV.destroy, hclear], hr, ⟨hsized.space, hsized.room, ?_, hint,
    hsized.chunkNum, h.dict.shape.capacity⟩, ?_⟩
  · have hclassed := hr.inv.classed
    rwa [hN, hr.layout.slabSizes, h.slabs] at hclassed
  · rw [Image.blocks, ← hN, hr.toAccount.blocks, Multiset.card_add, Multiset.card_map]
    rfl

/-- A dictionary in order is used again. -/
theorem Openable.valid {memorySize capacity : ℕ} {im : Image} (h : Openable memorySize capacity im)
    (hinv : im.dict.Inv) : im.dict.valid (PetHash.memorySize capacity true) = .ok true := by
  have hN := hinv.shape.overFallChunkNum_capacity
  have hmem : PetHash.memorySize capacity true = PetHash.memorySize im.dict.capacity true := by
    simp only [PetHash.memorySize, PetHash.scaleCapacity, if_true, hN, h.chunkNum]
  rw [hmem]
  exact hinv.valid h.chunkNum_le

/-- **A restart that succeeds** finds no leaked block and no key `-1`. -/
theorem Inv.of_restart {s s' : PetKV} {leaked : Multiset ℕ} (h : s.Inv leaked)
    {memorySize capacity : ℕ} (hsized : Sized memorySize capacity s) (hint : capacity < 2 ^ 31)
    (hrun : s.restart memorySize capacity = .ok s') : leaked = 0 ∧ s.dict.Absent emptyKey := by
  obtain ⟨pool, hdestroy, -, hopen, hblocks⟩ := h.destroy hsized hint
  have hvalid := hopen.valid h.dict
  obtain ⟨hle, habsent⟩ := h.dict.shape.card_keyedEntries_le
  rw [restart, hdestroy] at hrun
  rcases hopen.blocks_of_reopen hrun with ⟨-, hcount⟩ | ⟨hinvalid, -⟩
  · rw [hblocks] at hcount
    simp only at hcount
    exact ⟨Multiset.card_eq_zero.mp (by omega), habsent (by omega)⟩
  · rw [hvalid] at hinvalid
    cases hinvalid

/-- **A restart without leaked blocks and the key `-1`** succeeds; the store is in order again, and
`Get` is as before. -/
theorem Inv.restart {s : PetKV} (h : s.Inv 0) (habs : s.dict.Absent emptyKey)
    {memorySize capacity : ℕ} (hsized : Sized memorySize capacity s) (hint : capacity < 2 ^ 31) :
    ∃ s', s.restart memorySize capacity = .ok s' ∧ s'.Inv 0 ∧ ∀ key, s'.read key = s.read key := by
  obtain ⟨pool, hdestroy, hr, hopen, hblocks⟩ := h.destroy hsized hint
  obtain ⟨hre, hkeyed⟩ := h.dict.reloadable habs
  obtain ⟨dict, hinv', hent, -, hrun⟩ := hopen.reopen_eq (hopen.valid h.dict) hre
    (by rw [hblocks, hkeyed, Multiset.card_zero, Nat.add_zero])
  have hpool : (PersistMemoryPool.unrecovered false pool.file (memorySize / kChunkSize)
      slabSizes).recovered (List.range (memorySize / kChunkSize)) = pool.reopened := by
    rw [PersistMemoryPool.reopened, hr.mode, hr.layout.nrChunks, hsized.nrChunks,
      hr.layout.slabSizes, h.slabs]
  rw [hkeyed] at hent
  rw [hpool] at hrun
  refine ⟨⟨dict, pool.reopened, []⟩, by rw [PetKV.restart, hdestroy]; exact hrun,
    ⟨hinv', ?_, ?_, ?_,
    fun e he => ?_⟩, fun key => ?_⟩
  · change pool.nrChunks * kChunkSize ≤ userSpace
    rw [hr.layout.nrChunks]
    exact h.space
  · exact hr.layout.slabSizes.trans h.slabs
  · change Account pool.reopened (dict.entries.map blockOf + 0) []
    rw [hent]
    exact hr.toAccount.reopened
  · change e ∈ dict.entries at he
    rw [hent] at he
    obtain ⟨bs, hbs⟩ := h.contents e he
    have hmem : blockOf e ∈ s.dict.entries.map blockOf + 0 :=
      Multiset.mem_add.mpr (Or.inl (Multiset.mem_map_of_mem _ he))
    exact ⟨bs, (hr.contains _ hmem bs hbs).congr hr.inv.extends_reopened (fun _ _ ha _ => ha)
      fun _ _ _ => rfl⟩
  · refine read_congr ?_ hr.bytes h.account.mode hr.mode
    exact h.dict.get_congr hinv' hent key

/-- A call that neither stores the key `-1` nor evicts. -/
def Benign (s : PetKV) (c : Call) : Prop := c.key ≠ emptyKey ∧ s.Calm c

instance (s : PetKV) (c : Call) : Decidable (s.Benign c) :=
  inferInstanceAs (Decidable (c.key ≠ emptyKey ∧ s.evicts c.key = none))

/-- Which runs are benign, seen from their ends. -/
theorem Follows.benign_iff {s₀ s : PetKV} {calls : List Call} (h : Follows s₀ calls s) :
    Run.Guarded PetKV.step Benign s₀ calls ↔
      Run.Guarded PetKV.step Calm s₀ calls ∧ s.dict.Absent emptyKey := by
  constructor
  · intro hb
    refine ⟨hb.mono fun _ _ hx => hx.2, fun v hv => ?_⟩
    obtain ⟨log, hlast, -⟩ := h.stored emptyKey v hv
    rw [lastLog_eq_none.mpr fun c hc => ?_] at hlast
    · cases hlast
    · obtain ⟨s₁, hs₁⟩ := hb.exists_of_mem h.run hc
      exact hs₁.1
  · rintro ⟨hcalm, habs⟩
    rcases h.absent emptyKey habs with hlast | hev
    · exact hcalm.and_of_forall (lastLog_eq_none.mp hlast)
    · exact absurd hev (not_evictedSince hcalm emptyKey)

/-- **When a restart is faithful.** After a run of `Update`s of a new store, destroying the
store and constructing it again succeeds and keeps every `Get` exactly when no `Update` was of the
key `-1` and none evicted another key. -/
theorem restart_faithful_iff {memorySize capacity : ℕ} (hint : capacity < 2 ^ 31) {s₀ s : PetKV}
    {calls : List Call} (hnew : create memorySize capacity = .ok s₀)
    (hrun : Run.run step s₀ calls = some s) :
    (∃ s', s.restart memorySize capacity = .ok s' ∧ ∀ key, s'.read key = s.read key) ↔
      Run.Guarded step Benign s₀ calls := by
  have hf := follows_run hnew hrun
  have hsized := (create_sized hnew).follows hf
  obtain ⟨leaked, hinv, hleak⟩ := hf.inv
  rw [hf.benign_iff, ← hleak]
  constructor
  · rintro ⟨s', hs', -⟩
    exact hinv.of_restart hsized hint hs'
  · rintro ⟨rfl, habs⟩
    obtain ⟨s', hs', -, hread⟩ := hinv.restart habs hsized hint
    exact ⟨s', hs', hread⟩

theorem restart_faithful_reuse :
    ∃ s₀ s s' : PetKV, create (5 * kChunkSize) 1 = .ok s₀ ∧ Run.run step s₀ reuseCalls = some s ∧
      s.restart (5 * kChunkSize) 1 = .ok s' ∧ s'.read 7 = s.read 7 := by
  have heval : ((create (5 * kChunkSize) 1).toOption.any fun s₀ =>
      (Run.run step s₀ reuseCalls).any fun _ =>
        decide (Run.Guarded step Benign s₀ reuseCalls)) = true := by
    decide +kernel
  simp only [Option.any_eq_true, decide_eq_true_eq] at heval
  obtain ⟨s₀, hs₀, s, hs, hbenign⟩ := heval
  have hnew := eq_ok_of_toOption hs₀
  obtain ⟨s', hs', hread⟩ := (restart_faithful_iff (by decide) hnew hs).mpr hbenign
  exact ⟨s₀, s, s', hnew, hs, hs', hread 7⟩

/-- One `Update` of the key `-1`: the dictionary reloads none of its keys, and the pool has one
block. -/
theorem restart_fails_emptyKey :
    ∃ s₀ s : PetKV, create (5 * kChunkSize) 1 = .ok s₀ ∧
      Run.run step s₀ [⟨emptyKey, [1, 2, 3], quietEpochs, quietEpochs⟩] = some s ∧
      s.read emptyKey = .ok (some [1, 2, 3]) ∧ ∀ s', s.restart (5 * kChunkSize) 1 ≠ .ok s' := by
  have heval : ((create (5 * kChunkSize) 1).toOption.any fun s₀ =>
      (Run.run step s₀ [⟨emptyKey, [1, 2, 3], quietEpochs, quietEpochs⟩]).any fun s =>
        decide ((s.read emptyKey).toOption = some (some [1, 2, 3]))) = true := by
    decide +kernel
  simp only [Option.any_eq_true, decide_eq_true_eq] at heval
  obtain ⟨s₀, hs₀, s, hs, hread⟩ := heval
  have hnew := eq_ok_of_toOption hs₀
  have hread := eq_ok_of_toOption hread
  have hf := follows_run hnew hs
  obtain ⟨leaked, hinv, -⟩ := hf.inv
  refine ⟨s₀, s, hnew, hs, hread, fun s' hs' => ?_⟩
  obtain ⟨-, habs⟩ := hinv.of_restart ((create_sized hnew).follows hf) (by decide) hs'
  rw [hinv.read_of_notMem habs] at hread
  cases hread

end PetKV

end PetPS

import PetPS.Engine.PetEngine
import PetPS.Memory.PoolCapacity
import PetPS.PetHash.ForceSet
import PetPS.PetKV.Restart

/-!
# The size of a shard

`KVEnginePetKV` gives every shard a sixteenth of the bytes of the values as its pool. The pool
spends more on a value than its bytes: a slab holds the length in front and has the size of the next
class, a chunk starts with a header, and the number of slabs in a chunk is rounded down to a
multiple of 64. So the pool of a shard runs out of memory before a sixteenth of the capacity is
stored, for every value size and every capacity.

The dictionary makes no room in the pool: the block of a key that it evicts is never freed. A run of
`Update`s of new keys therefore allocates one block in every call, and `Filling` counts them.

## Main results

* `Filling.exists_step`, `Filling.update_poolOOM`, `Filling.update_dictOOM` — how one more
  `Update` of a new key ends
* `shardBlocks_lt` — there are fewer blocks than a sixteenth of the capacity
* `shard_accepts_iff` — the sequences of `Update`s of new keys that a shard accepts
-/

namespace PetPS

namespace PetKV

/-! ### An `Update` of a new key -/

section New

variable {s : PetKV} {leaked : Multiset ℕ} {key : UInt64} {log : List UInt8} {ptr : ℕ}

theorem update_of_new_error (h : s.dict.Inv) (habs : s.dict.Absent key) {e : Abort}
    (hnew : s.pool.new log.length = .error e) (epochs epochs' : Epochs) :
    s.update epochs epochs' key log = .error e := by
  rw [update, h.getInternal_of_notMem habs]
  simp only [hnew]
  rfl

theorem update_of_new_ok (h : s.dict.Inv) (habs : s.dict.Absent key) {pool : PersistMemoryPool}
    (hnew : s.pool.new log.length = .ok (pool, ptr)) (h8 : ptr % 8 = 0) (epochs epochs' : Epochs) :
    s.update epochs epochs' key log = ({ s with pool := pool.storeBytes ptr log } : PetKV).updateNew
      epochs' key (PetKVData.ofOffset ptr) := by
  have hoffset : PersistMemoryPool.getMallocOffset ptr = .ok ptr := if_pos (by omega)
  rw [update, h.getInternal_of_notMem habs]
  simp only [hnew, hoffset]
  rfl

/-- **The branch for a new key returns** unless the dictionary is a single full chunk. -/
theorem Inv.exists_updateNew (h : s.Inv leaked) {pool : PersistMemoryPool}
    (ha : Allocated s leaked pool ptr log) (habs : s.dict.Absent key)
    (hroom : s.dict.chunkNum ≠ 1 ∨ ¬ s.dict.Crowded key) (epochs : Epochs) :
    ∃ dict, ({ s with pool } : PetKV).updateNew epochs key (PetKVData.ofOffset ptr) =
        .ok ⟨dict, pool, s.recyclePtr⟩ ∧
      (¬ s.dict.Crowded key → dict.entries.card = s.dict.entries.card + 1) := by
  by_cases hcrowd : s.dict.Crowded key
  · have hN : 1 < s.dict.chunkNum := by
      have hpos := h.dict.shape.chunkNum_pos
      have hone := hroom.resolve_right (not_not.mpr hcrowd)
      omega
    obtain ⟨dict, pos, id, w, rest, hins, hinv, hchunk, hpos, hslot, -, hent⟩ :=
      h.dict.insert_evict habs hcrowd hN (PetKVData.ofOffset ptr)
    obtain ⟨v, -, -, -, hret⟩ :=
      updateNew_of_insert (s := { s with pool }) ha.aligned ha.le hins hinv
      (hchunk ▸ hpos) hslot hent epochs
    exact ⟨_, hret, fun hcalm => absurd hcrowd hcalm⟩
  · obtain ⟨dict, pos, id, hins, hinv, hchunk, hpos, hslot, hent⟩ :=
      h.dict.insert_plain habs hcrowd (PetKVData.ofOffset ptr) true
    obtain ⟨v, -, -, hent', hret⟩ :=
      updateNew_of_insert (s := { s with pool }) ha.aligned ha.le hins
      hinv (hchunk ▸ hpos) hslot hent epochs
    refine ⟨_, hret, fun _ => ?_⟩
    rw [hent', Multiset.card_cons]

end New

/-! ### Filling the pool -/

/-- What is known after `Update`s of new keys, all of values of the class `slabSize`, have led from
`s₀` to `s`. -/
structure Filling (s₀ : PetKV) (slabSize : ℕ) (calls : List Call) (s : PetKV) : Prop where
  follows : Follows s₀ calls s
  /-- Every class is there. -/
  classes : s.pool.HasClasses
  /-- All chunks in use are of the class. -/
  uniform : s.pool.Uniform slabSize
  /-- Every call has allocated a block, and none was freed. -/
  total : s.pool.totalMalloc = calls.length
  /-- A dictionary with a single chunk has evicted nothing. -/
  single : s.dict.chunkNum = 1 → s.dict.size = calls.length

theorem filling_create {memorySize capacity : ℕ} {s₀ : PetKV}
    (h : create memorySize capacity = .ok s₀) (slabSize : ℕ) : Filling s₀ slabSize [] s₀ := by
  obtain ⟨hinv, hent, hqueue⟩ := create_inv h
  obtain ⟨pool, dict, hpool, -, rfl⟩ := create_eq h
  have htotal := hinv.total
  rw [hent, hqueue] at htotal
  exact ⟨follows_create h, PersistMemoryPool.hasClasses_create hpool,
    PersistMemoryPool.uniform_create hpool slabSize, htotal,
      fun _ => by rw [hinv.dict.size, hent]; rfl⟩

section Filling

variable {s₀ s : PetKV} {slabSize : ℕ} {calls : List Call} {c : Call}

/-- The key of a call that repeats no key is not in the dictionary. -/
theorem Filling.absent (h : Filling s₀ slabSize calls s) (hkey : ∀ d ∈ calls, d.key ≠ c.key) :
    s.dict.Absent c.key := by
  intro v hv
  obtain ⟨log, hlast, -⟩ := h.follows.stored c.key v hv
  rw [lastLog_eq_none.mpr hkey] at hlast
  cases hlast

theorem Filling.classOf (h : Filling s₀ slabSize calls s) (size : ℕ) :
    s.pool.classOf size = s₀.pool.classOf size := by
  rw [PersistMemoryPool.classOf, PersistMemoryPool.classOf, PersistMemoryPool.lowerBound,
    PersistMemoryPool.lowerBound, h.follows.layout.perfectFit, h.follows.layout.slabSizes]

/-- The blocks, as many as the calls. -/
theorem Filling.exists_live (h : Filling s₀ slabSize calls s) :
    ∃ live, s.pool.Live live ∧ live.length = calls.length := by
  obtain ⟨leaked, hinv, -⟩ := h.follows.inv
  obtain ⟨live, hlive, -⟩ := hinv.account.live
  refine ⟨live, hlive, ?_⟩
  have htotal := hlive.total
  rw [h.total] at htotal
  exact (Nat.cast_inj.mp htotal).symm

/-- The number of blocks of the class that the pool can hold. -/
def blocks (s : PetKV) (slabSize : ℕ) : ℕ :=
  s.pool.nrChunks * PersistMemoryPool.useEntries slabSize

theorem Filling.blocks_eq (h : Filling s₀ slabSize calls s) :
    s.blocks slabSize = s₀.blocks slabSize := by
  rw [blocks, h.follows.layout.nrChunks, ← blocks]

theorem Filling.length_le (h : Filling s₀ slabSize calls s) :
    calls.length ≤ s₀.blocks slabSize := by
  obtain ⟨leaked, hinv, -⟩ := h.follows.inv
  obtain ⟨live, hlive, hlen⟩ := h.exists_live
  rw [← hlen, ← h.blocks_eq]
  exact h.uniform.length_le hinv.account.inv hlive

theorem slabSizes_spec {slabSize : ℕ} (h : slabSize ∈ slabSizes) :
    0 < slabSize ∧ slabSize ≤ 1032 ∧ slabSize % 8 = 0 := by
  revert slabSize
  decide

/-- A store whose dictionary takes one more key: it has a second chunk, or room in its only one. -/
def TakesKey (s₀ : PetKV) (n : ℕ) : Prop := s₀.dict.chunkNum ≠ 1 ∨ n < 14

/-- In a single chunk, the dictionary is crowded after 14 calls. -/
theorem Filling.crowded_iff (h : Filling s₀ slabSize calls s) (hone : s₀.dict.chunkNum = 1)
    (key : UInt64) : s.dict.Crowded key ↔ 14 ≤ calls.length := by
  obtain ⟨leaked, hinv, -⟩ := h.follows.inv
  have hone' := h.follows.chunkNum.trans hone
  rw [hinv.dict.crowded_iff_of_single hone', h.single hone']

section Update

variable (h : Filling s₀ slabSize calls s) (hclass : s₀.pool.classOf c.log.length = some slabSize)
include h hclass

theorem Filling.new :
    (calls.length < s₀.blocks slabSize → ∃ pool ptr, s.pool.new c.log.length = .ok (pool, ptr)) ∧
      (calls.length = s₀.blocks slabSize → s.pool.new c.log.length = .error .poolOOM) := by
  obtain ⟨leaked, hinv, -⟩ := h.follows.inv
  obtain ⟨live, hlive, hlen⟩ := h.exists_live
  rw [← h.classOf] at hclass
  have hslab : slabSize ∈ slabSizes := hinv.slabs ▸ PersistMemoryPool.classOf_mem hclass
  obtain ⟨hpos, hle, -⟩ := slabSizes_spec hslab
  rw [← h.blocks_eq, ← hlen]
  exact hinv.account.inv.new_uniform h.classes h.uniform hclass hpos (by omega) hlive

/-- A block for the value, at an offset that can be packed. -/
theorem Filling.exists_block (hlt : calls.length < s₀.blocks slabSize) :
    ∃ pool ptr i j, s.pool.new c.log.length = .ok (pool, ptr) ∧
      PersistMemoryPool.NewBlock s.pool pool c.log.length ptr i j ∧ ptr % 8 = 0 := by
  obtain ⟨leaked, hinv, -⟩ := h.follows.inv
  obtain ⟨pool, ptr, hnew⟩ := (h.new hclass).1 hlt
  obtain ⟨i, j, hn⟩ := hinv.account.inv.new hnew
  refine ⟨pool, ptr, i, j, hnew, hn, hn.aligned fun slab hslab => ?_⟩
  rw [hinv.slabs] at hslab
  exact (slabSizes_spec hslab).2.2

variable (hkey : ∀ d ∈ calls, d.key ≠ c.key)
include hkey

/-- **One more `Update` of a new key** takes a block, if one is left and the dictionary takes the
key. -/
theorem Filling.exists_step (hlt : calls.length < s₀.blocks slabSize)
    (htakes : s₀.TakesKey calls.length) :
    ∃ s', s.step c = some s' ∧ Filling s₀ slabSize (calls ++ [c]) s' := by
  obtain ⟨leaked, hinv, -⟩ := h.follows.inv
  have habs := h.absent hkey
  have hcalm : s₀.dict.chunkNum = 1 → ¬ s.dict.Crowded c.key := fun hone => by
    rw [h.crowded_iff hone]
    exact not_le.mpr (htakes.resolve_left (not_not.mpr hone))
  have hroom : s.dict.chunkNum ≠ 1 ∨ ¬ s.dict.Crowded c.key := by
    rw [h.follows.chunkNum]
    exact not_or_of_imp hcalm
  obtain ⟨pool, ptr, i, j, hnew, hn, h8⟩ := h.exists_block hclass hlt
  obtain ⟨dict, hret, hcard⟩ := hinv.exists_updateNew (hinv.alloc hnew h8) habs hroom c.epochs'
  rw [← update_of_new_ok hinv.dict habs hnew h8 c.epochs] at hret
  have hfollows := h.follows.step (step_eq_some.mpr hret)
  refine ⟨_, step_eq_some.mpr hret, hfollows, fun slab hslab => ?_, ?_, ?_, fun hone => ?_⟩
  · have hold : slab ∈ s.pool.allocatedSlabSizes := hn.added.slabSizes ▸ hslab
    change (pool.sizeToChunks slab).isSome = true
    exact PersistMemoryPool.isSome_sizeToChunks_new hnew (h.classes slab hold)
  · change pool.Uniform slabSize
    exact h.uniform.new (h.classOf _ ▸ hclass) hnew
  · change pool.totalMalloc = _
    rw [hn.total, h.total, List.length_append]
    rfl
  · have hone₀ : s₀.dict.chunkNum = 1 := hfollows.chunkNum.symm.trans hone
    obtain ⟨leaked', hinv', -⟩ := hfollows.inv
    have hsize := h.single (h.follows.chunkNum.trans hone₀)
    rw [hinv.dict.size] at hsize
    rw [hinv'.dict.size, hcard (hcalm hone₀), hsize, List.length_append]
    rfl

/-- **It runs out of memory in the pool** if no block is left. -/
theorem Filling.update_poolOOM (heq : calls.length = s₀.blocks slabSize) :
    s.update c.epochs c.epochs' c.key c.log = .error .poolOOM := by
  obtain ⟨leaked, hinv, -⟩ := h.follows.inv
  exact update_of_new_error hinv.dict (h.absent hkey) ((h.new hclass).2 heq) _ _

/-- **It runs out of memory in the dictionary** if a block is left and the dictionary does not take
the key. -/
theorem Filling.update_dictOOM (hlt : calls.length < s₀.blocks slabSize)
    (htakes : ¬ s₀.TakesKey calls.length) :
    s.update c.epochs c.epochs' c.key c.log = .error .dictOOM := by
  obtain ⟨leaked, hinv, -⟩ := h.follows.inv
  have habs := h.absent hkey
  rw [TakesKey, not_or, not_not, not_lt] at htakes
  have hcrowd := (h.crowded_iff htakes.1 c.key).mpr htakes.2
  obtain ⟨pool, ptr, i, j, hnew, hn, h8⟩ := h.exists_block hclass hlt
  rw [update_of_new_ok hinv.dict habs hnew h8, updateNew]
  simp only [(hinv.dict.insert_fatal habs hcrowd _).2 (h.follows.chunkNum.trans htakes.1)]

/-- A call that returns has had a block, and room in the dictionary. -/
theorem Filling.of_step {s' : PetKV} (hs : s.step c = some s') :
    Filling s₀ slabSize (calls ++ [c]) s' ∧ calls.length < s₀.blocks slabSize ∧
      s₀.TakesKey calls.length := by
  have hup := step_eq_some.mp hs
  have hlt : calls.length < s₀.blocks slabSize := by
    refine lt_of_le_of_ne h.length_le fun heq => ?_
    rw [h.update_poolOOM hclass hkey heq] at hup
    cases hup
  have htakes : s₀.TakesKey calls.length := by
    by_contra hno
    rw [h.update_dictOOM hclass hkey hlt hno] at hup
    cases hup
  obtain ⟨s'', hs'', h''⟩ := h.exists_step hclass hkey hlt htakes
  obtain rfl := Option.some.inj (hs.symm.trans hs'')
  exact ⟨h'', hlt, htakes⟩

/-- A call that finds the pool out of memory comes when no block is left. -/
theorem Filling.length_eq_of_poolOOM
    (hup : s.update c.epochs c.epochs' c.key c.log = .error .poolOOM) :
    calls.length = s₀.blocks slabSize := by
  refine le_antisymm h.length_le (not_lt.mp fun hlt => ?_)
  by_cases htakes : s₀.TakesKey calls.length
  · obtain ⟨s', hs', -⟩ := h.exists_step hclass hkey hlt htakes
    rw [step_eq_some.mp hs'] at hup
    cases hup
  · rw [h.update_dictOOM hclass hkey hlt htakes] at hup
    cases hup

end Update

/-! ### Runs -/

/-- An `Update` of the run finds the pool out of memory. -/
def ReachesPoolOOM (s₀ : PetKV) (calls : List Call) : Prop :=
  ∃ before c after s, calls = before ++ c :: after ∧ Run.run step s₀ before = some s ∧
    s.update c.epochs c.epochs' c.key c.log = .error .poolOOM

/-- Calls of `Update` with values of one size, no two of one key. -/
structure NewKeys (valueSize : ℕ) (calls : List Call) : Prop where
  keys : (calls.map Call.key).Nodup
  logs : ∀ c ∈ calls, c.log.length = valueSize

theorem NewKeys.append {valueSize : ℕ} {calls calls' : List Call}
    (h : NewKeys valueSize (calls ++ calls')) : NewKeys valueSize calls := by
  refine ⟨?_, fun c hc => h.logs c (List.mem_append_left _ hc)⟩
  have hnodup := h.keys
  rw [List.map_append] at hnodup
  exact hnodup.of_append_left

theorem NewKeys.last {valueSize : ℕ} (h : NewKeys valueSize (calls ++ [c])) :
    c.log.length = valueSize ∧ ∀ d ∈ calls, d.key ≠ c.key := by
  refine ⟨h.logs c (by simp), fun d hd heq => ?_⟩
  have hnodup := h.keys
  rw [List.map_append, List.nodup_append] at hnodup
  exact hnodup.2.2 d.key (List.mem_map_of_mem hd) c.key (by simp) heq

/-- **The runs that complete**: those for which there are blocks, and room in a dictionary with a
single chunk. -/
theorem run_newKeys {valueSize : ℕ} (hstart : Filling s₀ slabSize [] s₀)
    (hclass : s₀.pool.classOf valueSize = some slabSize) (hnew : NewKeys valueSize calls) :
    (∀ s, Run.run step s₀ calls = some s → Filling s₀ slabSize calls s) ∧
      ((∃ s, Run.run step s₀ calls = some s) ↔ calls.length ≤ s₀.blocks slabSize ∧
        (s₀.dict.chunkNum ≠ 1 ∨ calls.length ≤ 14)) := by
  induction calls using List.reverseRecOn with
  | nil =>
    refine ⟨fun s hs => Option.some.inj hs ▸ hstart, iff_of_true ⟨s₀, rfl⟩ ⟨Nat.zero_le _, ?_⟩⟩
    exact Or.inr (Nat.zero_le _)
  | append_singleton calls c ih =>
    obtain ⟨hfill, hiff⟩ := ih hnew.append
    obtain ⟨hlog, hkey⟩ := hnew.last
    rw [← hlog] at hclass
    rw [List.length_append, List.length_singleton]
    have hrun : ∀ s', Run.run step s₀ (calls ++ [c]) = some s' →
        ∃ s, Filling s₀ slabSize calls s ∧ s.step c = some s' := fun s' hs' => by
      obtain ⟨s, hs, hlast⟩ := Run.exists_of_run_append hs'
      obtain ⟨s'', hs'', hnil⟩ := Option.bind_eq_some_iff.mp hlast
      exact ⟨s, hfill s hs, Option.some.inj hnil ▸ hs''⟩
    refine ⟨fun s' hs' => ?_, ?_, ?_⟩
    · obtain ⟨s, h, hs⟩ := hrun s' hs'
      exact (h.of_step hclass hkey hs).1
    · rintro ⟨s', hs'⟩
      obtain ⟨s, h, hs⟩ := hrun s' hs'
      obtain ⟨-, hlt, htakes⟩ := h.of_step hclass hkey hs
      exact ⟨hlt, htakes⟩
    · rintro ⟨hlt, htakes⟩
      obtain ⟨s, hs⟩ := hiff.mpr ⟨by omega, htakes.imp_right (by omega)⟩
      obtain ⟨s', hs', -⟩ := (hfill s hs).exists_step hclass hkey hlt htakes
      exact ⟨s', Run.run_concat hs hs'⟩

/-- **The runs that find the pool out of memory**: those with a call for which no block is left,
unless a dictionary with a single chunk ends the run before. -/
theorem reachesPoolOOM_iff {valueSize : ℕ} (hstart : Filling s₀ slabSize [] s₀)
    (hclass : s₀.pool.classOf valueSize = some slabSize) (hnew : NewKeys valueSize calls) :
    s₀.ReachesPoolOOM calls ↔ s₀.blocks slabSize < calls.length ∧
      (s₀.dict.chunkNum ≠ 1 ∨ s₀.blocks slabSize ≤ 14) := by
  constructor
  · rintro ⟨before, c, after, s, rfl, hrun, hup⟩
    rw [List.append_cons] at hnew
    obtain ⟨hlog, hkey⟩ := hnew.append.last
    obtain ⟨hfill, hiff⟩ := run_newKeys hstart hclass hnew.append.append
    rw [← hlog] at hclass
    have hlen := (hfill s hrun).length_eq_of_poolOOM hclass hkey hup
    obtain ⟨-, hroom⟩ := hiff.mp ⟨s, hrun⟩
    rw [hlen] at hroom
    refine ⟨?_, hroom⟩
    rw [List.length_append, List.length_cons]
    omega
  · rintro ⟨hlt, hroom⟩
    have hcalls : calls = calls.take (s₀.blocks slabSize) ++
        calls[s₀.blocks slabSize] :: calls.drop (s₀.blocks slabSize + 1) := by
      rw [← List.drop_eq_getElem_cons hlt, List.take_append_drop]
    generalize calls[s₀.blocks slabSize] = c at hcalls
    have hlen : (calls.take (s₀.blocks slabSize)).length = s₀.blocks slabSize := by
      rw [List.length_take]
      omega
    rw [hcalls, List.append_cons] at hnew
    obtain ⟨hlog, hkey⟩ := hnew.append.last
    obtain ⟨hfill, hiff⟩ := run_newKeys hstart hclass hnew.append.append
    rw [← hlog] at hclass
    obtain ⟨s, hs⟩ := hiff.mpr ⟨hlen.le, hlen.symm ▸ hroom⟩
    exact ⟨_, c, _, s, hcalls, hs, (hfill s hs).update_poolOOM hclass hkey hlen⟩

end Filling

end PetKV

/-! ### The shards of the engine -/

namespace KVEnginePetKV

open PersistMemoryPool (useEntries useEntries_spec useEntries_pos_iff)

/-- The slabs that the pool of a shard uses for values of `valueSize` bytes. -/
def slabOf (valueSize : ℕ) : ℕ :=
  (slabSizes.filter fun s => kMetaDataSize + valueSize ≤ s).min?.getD 0

/-- The number of values of `valueSize` bytes for which the pool of a shard has slabs. -/
def shardBlocks (valueSize capacity : ℕ) : ℕ :=
  valueSize * capacity / 16 / kChunkSize * useEntries (slabOf valueSize)

section Shard

variable {valueSize capacity : ℕ} {s₀ : PetKV}

theorem slabOf_spec (hv : valueSize ≤ 1024) :
    (slabSizes.filter fun s => kMetaDataSize + valueSize ≤ s).min? = some (slabOf valueSize) ∧
      slabOf valueSize ∈ slabSizes ∧ 8 + valueSize ≤ slabOf valueSize := by
  have hlast : 1032 ∈ slabSizes.filter fun s => kMetaDataSize + valueSize ≤ s := by
    refine List.mem_filter.mpr ⟨by decide, decide_eq_true ?_⟩
    rw [kMetaDataSize]
    omega
  have hsome : (slabSizes.filter fun s => kMetaDataSize + valueSize ≤ s).min?
      = some (slabOf valueSize) := by
    rw [slabOf]
    cases hmin : (slabSizes.filter fun s => kMetaDataSize + valueSize ≤ s).min? with
    | none => rw [List.min?_eq_none_iff.mp hmin] at hlast; cases hlast
    | some s => rfl
  have hmem := List.mem_filter.mp (List.min?_mem hsome)
  exact ⟨hsome, hmem.1, of_decide_eq_true hmem.2⟩

theorem shard_classOf (hv : valueSize ≤ 1024) (hnew : shard valueSize capacity = .ok s₀) :
    s₀.pool.classOf valueSize = some (slabOf valueSize) := by
  obtain ⟨hinv, -⟩ := PetKV.create_inv hnew
  rw [PersistMemoryPool.classOf, hinv.account.mode, if_neg Bool.false_ne_true,
    PersistMemoryPool.lowerBound, hinv.slabs]
  exact (slabOf_spec hv).1

theorem shard_blocks (hnew : shard valueSize capacity = .ok s₀) :
    s₀.blocks (slabOf valueSize) = shardBlocks valueSize capacity := by
  rw [PetKV.blocks, (PetKV.create_sized hnew).nrChunks, shardBlocks]

/-- A chunk has at least 64 slabs, and all of them fit. -/
theorem useEntries_slabOf (hv : valueSize ≤ 1024) :
    64 ≤ useEntries (slabOf valueSize) ∧
      useEntries (slabOf valueSize) * (8 + valueSize) ≤ kChunkSize := by
  obtain ⟨-, hmem, hroom⟩ := slabOf_spec hv
  obtain ⟨hpos, hle, -⟩ := PetKV.slabSizes_spec hmem
  obtain ⟨hmod, hfits⟩ := useEntries_spec (slabOf valueSize)
  have hentries : 0 < useEntries (slabOf valueSize) := useEntries_pos_iff.mpr ⟨hpos, by omega⟩
  have hmul : useEntries (slabOf valueSize) * (8 + valueSize)
      ≤ useEntries (slabOf valueSize) * slabOf valueSize := Nat.mul_le_mul_left _ hroom
  omega

/-- **There are fewer blocks than a sixteenth of the capacity.** Every block costs eight bytes more
than its value, which is more than what the divisions leave over. -/
theorem shardBlocks_lt (hv : valueSize ≤ 1024)
    (hroom : 5 ≤ valueSize * capacity / 16 / kChunkSize) :
    14 < shardBlocks valueSize capacity ∧ shardBlocks valueSize capacity < capacity / 16 := by
  obtain ⟨hentries, hfits⟩ := useEntries_slabOf hv
  set chunks := valueSize * capacity / 16 / kChunkSize with hchunks
  have hmany : 5 * 64 ≤ shardBlocks valueSize capacity := Nat.mul_le_mul hroom hentries
  refine ⟨by omega, ?_⟩
  have hspent : shardBlocks valueSize capacity * (8 + valueSize) ≤ valueSize * capacity / 16 :=
    calc shardBlocks valueSize capacity * (8 + valueSize)
        = chunks * (useEntries (slabOf valueSize) * (8 + valueSize)) := by
          rw [shardBlocks, ← hchunks, Nat.mul_assoc]
      _ ≤ chunks * kChunkSize := Nat.mul_le_mul_left _ hfits
      _ ≤ valueSize * capacity / 16 := Nat.div_mul_le_self _ _
  have hbytes : valueSize * capacity / 16 ≤ valueSize * (capacity / 16 + 1) := by
    refine Nat.div_le_of_le_mul ?_
    calc valueSize * capacity ≤ valueSize * (16 * (capacity / 16 + 1)) :=
          Nat.mul_le_mul_left _ (by omega)
      _ = 16 * (valueSize * (capacity / 16 + 1)) := by ring
  have hlarge : 5 * kChunkSize ≤ valueSize * (capacity / 16 + 1) :=
    ((Nat.le_div_iff_mul_le (by decide)).mp hroom).trans hbytes
  by_contra hge
  have hmul : capacity / 16 * (8 + valueSize) ≤ valueSize * (capacity / 16 + 1) :=
    (Nat.mul_le_mul_right _ (not_lt.mp hge)).trans (hspent.trans hbytes)
  -- the eight bytes of the blocks would have to come from less than one value
  have hsmall : 8 * (capacity / 16) ≤ valueSize := by
    rw [Nat.mul_add, Nat.mul_add, Nat.mul_one, Nat.mul_comm _ valueSize] at hmul
    omega
  have hcap : valueSize * (capacity / 16 + 1) ≤ 1024 * 129 := Nat.mul_le_mul hv (by omega)
  rw [kChunkSize] at hlarge
  omega

/-- The dictionary of a shard has a single chunk where a sixteenth of the capacity, as an `int`, is
from `-13` to `14`. -/
theorem shard_single_iff (hnew : shard valueSize capacity = .ok s₀) :
    s₀.dict.chunkNum = 1 ↔ (capacity / 16 + 13) % 2 ^ 32 < 28 := by
  rw [(PetKV.create_sized hnew).chunkNum, PetHash.overFallChunkNum_eq_one_iff, throughInt,
    toInt32]
  split_ifs <;> rw [toUInt64] <;> omega

/-- **The sequences of `Update`s that a shard accepts.** For every value size up to 1024 and every
capacity with which the constructor returns, a sequence of `Update`s of values of that size, each of
another key, completes exactly if there are slabs for all of them, and the dictionary has two chunks
or at most 14 keys. Every longer sequence finds the pool out of memory, unless the dictionary has a
single chunk and ends it before, which it has for few capacities. And there are always fewer slabs
than a sixteenth of the capacity. -/
theorem shard_accepts_iff (hv : valueSize ≤ 1024) (hnew : shard valueSize capacity = .ok s₀)
    {calls : List PetKV.Call} (hcalls : PetKV.NewKeys valueSize calls) :
    ((∃ s, Run.run PetKV.step s₀ calls = some s) ↔ calls.length ≤ shardBlocks valueSize capacity ∧
        (s₀.dict.chunkNum ≠ 1 ∨ calls.length ≤ 14)) ∧
      (s₀.ReachesPoolOOM calls ↔
        shardBlocks valueSize capacity < calls.length ∧ s₀.dict.chunkNum ≠ 1) ∧
      (s₀.dict.chunkNum = 1 ↔ (capacity / 16 + 13) % 2 ^ 32 < 28) ∧
      shardBlocks valueSize capacity < capacity / 16 := by
  have hstart := PetKV.filling_create hnew (slabOf valueSize)
  have hclass := shard_classOf hv hnew
  have hroom : 5 ≤ valueSize * capacity / 16 / kChunkSize := (PetKV.create_sized hnew).room
  obtain ⟨hmany, hlt⟩ := shardBlocks_lt hv hroom
  have hrun := (PetKV.run_newKeys hstart hclass hcalls).2
  have hoom := PetKV.reachesPoolOOM_iff hstart hclass hcalls
  rw [shard_blocks hnew] at hrun hoom
  refine ⟨hrun, hoom.trans ?_, shard_single_iff hnew, hlt⟩
  rw [or_iff_left (not_le.mpr hmany)]

end Shard

/-- Keys `0, 1, ..` with the same value of 1024 bytes. -/
def countingCalls (n : ℕ) : List PetKV.Call :=
  (List.range n).map fun i =>
    ⟨UInt64.ofNat i, List.replicate 1024 0, PetKV.quietEpochs, PetKV.quietEpochs⟩

theorem newKeys_countingCalls {n : ℕ} (hn : n ≤ 2 ^ 64) : PetKV.NewKeys 1024 (countingCalls n) := by
  constructor
  · rw [countingCalls, List.map_map]
    refine List.Nodup.map_on (fun i hi j hj heq => ?_) List.nodup_range
    have hnat := congrArg UInt64.toNat heq
    simp only [Function.comp_apply, UInt64.toNat_ofNat'] at hnat
    rw [List.mem_range] at hi hj
    rwa [Nat.mod_eq_of_lt (by omega), Nat.mod_eq_of_lt (by omega)] at hnat
  · intro c hc
    obtain ⟨i, -, rfl⟩ := List.mem_map.mp hc
    exact List.length_replicate

/-- A shard for 163840 values of 1024 bytes: 1984 slabs in each of five chunks. -/
theorem exists_shard : ∃ s₀, shard 1024 163840 = .ok s₀ ∧ s₀.dict.chunkNum ≠ 1 ∧
    shardBlocks 1024 163840 = 9920 := by
  have heval : ((shard 1024 163840).toOption.any fun s₀ =>
    decide (s₀.dict.chunkNum ≠ 1)) = true := by
    decide +kernel
  simp only [Option.any_eq_true, decide_eq_true_eq] at heval
  obtain ⟨s₀, hs₀, hchunks⟩ := heval
  exact ⟨s₀, eq_ok_of_toOption hs₀, hchunks, by decide +kernel⟩

/-- It is to hold 10240 of them, and runs out of memory. -/
theorem shard_runs_out : ∃ s₀, shard 1024 163840 = .ok s₀ ∧
    PetKV.NewKeys 1024 (countingCalls 10240) ∧ (countingCalls 10240).length = 163840 / 16 ∧
    s₀.ReachesPoolOOM (countingCalls 10240) := by
  obtain ⟨s₀, hnew, hchunks, hblocks⟩ := exists_shard
  have hcalls : PetKV.NewKeys 1024 (countingCalls 10240) := newKeys_countingCalls (by decide)
  have hlen : (countingCalls 10240).length = 10240 := by
    rw [countingCalls, List.length_map, List.length_range]
  refine ⟨s₀, hnew, hcalls, hlen, ?_⟩
  rw [PetKV.reachesPoolOOM_iff (PetKV.filling_create hnew _) (shard_classOf le_rfl hnew) hcalls,
    shard_blocks hnew, hblocks, hlen]
  exact ⟨by decide, Or.inl hchunks⟩

/-- It accepts 9920. -/
theorem shard_accepts_9920 : ∃ s₀ s, shard 1024 163840 = .ok s₀ ∧
    Run.run PetKV.step s₀ (countingCalls 9920) = some s := by
  obtain ⟨s₀, hnew, hchunks, hblocks⟩ := exists_shard
  have hlen : (countingCalls 9920).length = 9920 := by
    rw [countingCalls, List.length_map, List.length_range]
  obtain ⟨s, hs⟩ := (shard_accepts_iff le_rfl hnew
    (newKeys_countingCalls (n := 9920) (by decide))).1.mpr
    ⟨by rw [hlen, hblocks], Or.inl hchunks⟩
  exact ⟨s₀, s, hnew, hs⟩

end KVEnginePetKV

end PetPS

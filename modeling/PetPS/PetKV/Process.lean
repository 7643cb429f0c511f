import PetPS.PetKV.Config
import PetPS.PetKV.Restart

/-!
# Several stores in one process

The stores of a process have files of their own, but share `PetKVData::kConfig`. The constructor of
`PetMultiKV` changes it for large shards, and an entry that was written before is then read with
another width. Its offset is cut elsewhere, so that `Get` returns a pointer to another place.

The stores here have any number of shards and any `pre_known_value_size_`. The bytes outside of a
pool, which `Get` reads where an offset is wrong, may be anything and may be unmapped.

## Main results

* `Config.shmMallocOffset_ne` — a block is found at no other width
* `get_kept_iff` — when `Get` on a store is the same after the construction of another one
* `construct_moves_block` — a construction after which it is not
-/

namespace PetPS

namespace PetKVData.Config

/-! ### Changes of the configuration -/

/-- A shard of this size leaves the width `w` as it is. -/
def Keeps (w : ℕ) (shardMemory : ℤ) : Prop :=
  shardMemory < 2 ^ 35 ∨ 2 ^ (w + 2) ≤ shardMemory ∧ shardMemory < 2 ^ (w + 3)

theorem width_inj {w w' : ℕ} (hw : w ≤ 61) (hw' : w' ≤ 61) (h : width w = width w') : w = w' := by
  have hbit := congrArg kExpireBit h
  simp only [width] at hbit
  omega

theorem configure_width_iff {w : ℕ} (hw : w ≤ 61) {m : ℤ} (hm : m < 2 ^ 62) :
    (width w).configure m = .ok (width w) ↔ Keeps w m := by
  rcases lt_or_ge m (2 ^ 35) with hsmall | hlarge
  · exact iff_of_true (configure_small _ hsmall) (Or.inl hsmall)
  · lift m to ℕ using by omega
    have hlow : 2 ^ 35 ≤ m := by exact_mod_cast hlarge
    have hhigh : m < 2 ^ 62 := by exact_mod_cast hm
    have hne : m ≠ 0 := by omega
    have hlog := Nat.le_log_of_pow_le Nat.one_lt_two hlow
    have hlog' := Nat.log_lt_of_lt_pow hne hhigh
    have hkeeps : Keeps w m ↔ Nat.log 2 m = w + 2 := by
      rw [Keeps, or_iff_right (not_lt.mpr hlarge),
        Nat.log_eq_iff (Or.inr ⟨Nat.one_lt_two, hne⟩)]
      exact and_congr (by exact_mod_cast Iff.rfl) (by exact_mod_cast Iff.rfl)
    rw [configure_large _ hlow hhigh, hkeeps, Except.ok.injEq]
    constructor
    · intro h
      have hwidth := width_inj (by omega) hw h
      omega
    · intro h
      rw [h, Nat.add_sub_cancel]

/-- The widths that a process can have. -/
theorem exists_width_of_configure {w : ℕ} (hw : 33 ≤ w ∧ w ≤ 61) {m : ℤ} {kConfig : Config}
    (h : (width w).configure m = .ok kConfig) :
    ∃ w', (33 ≤ w' ∧ w' ≤ 61) ∧ kConfig = width w' := by
  rw [configure] at h
  split_ifs at h
  · cases hfind : (List.range' 36 29).find? fun i => decide (m < oneShiftLeft i) with
    | none =>
      rw [hfind] at h
      exact ⟨w, hw, (Except.ok.inj h).symm⟩
    | some i =>
      have hi := List.mem_range'_1.mp (List.mem_of_find?_eq_some hfind)
      rw [hfind] at h
      simp only [ofOffsetBit] at h
      rw [if_neg (by omega)] at h
      exact ⟨i - 3, by omega, (Except.ok.inj h).symm⟩
  · exact ⟨w, hw, (Except.ok.inj h).symm⟩

/-- The word of an entry is smaller than its width. -/
theorem shiftRight_lt {w : ℕ} (hw : w ≤ 64) {x : ℕ} (hx : x < 2 ^ 64) : x >>> (64 - w) < 2 ^ w := by
  rw [Nat.shiftRight_eq_div_pow, Nat.div_lt_iff_lt_mul (Nat.two_pow_pos _), ← pow_add,
    Nat.add_sub_cancel' hw]
  exact hx

/-- An entry that is not zero has another word at a larger width. -/
theorem shiftRight_ne {w w' x : ℕ} (hlt : w < w') (hw' : w' ≤ 64) (hpos : x >>> (64 - w') ≠ 0) :
    x >>> (64 - w) ≠ x >>> (64 - w') := by
  have hsplit : 64 - w = (64 - w') + (w' - w) := by omega
  rw [hsplit, Nat.shiftRight_add, Nat.shiftRight_eq_div_pow _ (w' - w)]
  exact (Nat.div_lt_self (Nat.pos_of_ne_zero hpos)
    (Nat.one_lt_two_pow (Nat.sub_ne_zero_of_lt hlt))).ne

/-- **A block is found at no other width.** -/
theorem shmMallocOffset_ne {w w' : ℕ} (hw : w ≤ 61) (hw' : w' ≤ 61) (hne : w' ≠ w) {d : PetKVData}
    (hd : d.dataValue < 2 ^ 64) (hpos : 0 < (width w).shmMallocOffset d) :
    (width w').shmMallocOffset d ≠ (width w).shmMallocOffset d := by
  have hlt : ∀ {w}, w ≤ 61 → d.dataValue >>> (64 - w) * 2 ^ 3 < 2 ^ 64 := fun {w} hw => by
    have hword := shiftRight_lt (by omega : w ≤ 64) hd
    have hpow : 2 ^ w ≤ 2 ^ 61 := Nat.pow_le_pow_right Nat.two_pos hw
    omega
  have hnone : d.dataValue >>> (64 - w) ≠ 2 ^ w - 1 := fun hnone => by
    rw [shmMallocOffset_width, if_pos hnone] at hpos
    omega
  rw [shmMallocOffset_width w, if_neg hnone, Nat.mod_eq_of_lt (hlt hw)] at hpos ⊢
  have hword : d.dataValue >>> (64 - w) ≠ 0 := by
    intro hzero
    rw [hzero, Nat.zero_mul] at hpos
    exact absurd hpos (by decide)
  rw [shmMallocOffset_width, Nat.mod_eq_of_lt (hlt hw')]
  intro heq
  split_ifs at heq
  · omega
  · have hsame := Nat.eq_of_mul_eq_mul_right (by decide) (toInt64_inj (hlt hw') (hlt hw) heq)
    rcases lt_or_gt_of_ne hne with hlt' | hlt'
    · exact shiftRight_ne hlt' (by omega) hword hsame
    · exact shiftRight_ne hlt' (by omega) (hsame ▸ hword) hsame.symm

end PetKVData.Config

open PetKVData (Config)

/-! ### Stores -/

/-- `PetKVReadData`; the pointer is relative to the start of the pool of the shard. -/
structure ReadData where
  expireTimet : ℕ
  data : ℤ
  size : ℕ
  deriving DecidableEq

/-- The data and the size of an answer. -/
def located : Except Abort (Option ReadData) → Except Abort (Option (ℤ × ℕ)) :=
  Except.map (Option.map fun r => (r.data, r.size))

theorem located_eq_some {answer : Except Abort (Option ReadData)} {r : ReadData}
    (h : located answer = located (.ok (some r))) :
    ∃ r', answer = .ok (some r') ∧ r'.data = r.data := by
  cases answer with
  | error e => cases h
  | ok found =>
    cases found with
    | none => cases h
    | some r' => exact ⟨r', rfl, congrArg Prod.fst (Option.some.inj (Except.ok.inj h))⟩

/-- `GetMallocSize(offset)`. The length in front of a block is read from the pool, or from outside
of it. -/
def PersistMemoryPool.getMallocSizeAt (p : PersistMemoryPool) (outside : ℤ → Except Abort ℕ)
    (offset : ℤ) : Except Abort ℕ :=
  if 8 ≤ offset ∧ offset ≤ (p.nrChunks * kChunkSize : ℕ) then .ok (p.getMallocSize offset.toNat)
  else outside offset

namespace PetKV

/-- `Get` with any `kConfig` and `pre_known_value_size_`. -/
def getIn (kConfig : Config) (outside : ℤ → Except Abort ℕ) (preKnownValueSize : ℕ) (s : PetKV)
    (key : UInt64) : Except Abort (Option ReadData) :=
  match s.dict.get key with
  | .error e => .error e
  | .ok none => .ok none
  | .ok (some cache) =>
    let data := kConfig.shmMallocOffset cache
    if preKnownValueSize = 0 then
      (s.pool.getMallocSizeAt outside data).map fun size =>
        some ⟨kConfig.expireTimet cache, data, size⟩
    else .ok (some ⟨kConfig.expireTimet cache, data, preKnownValueSize⟩)

/-- The entries are words that lead to places in the pool. -/
def Sound (kConfig : Config) (s : PetKV) : Prop :=
  ∀ key cache, s.dict.get key = .ok (some cache) → cache.dataValue < 2 ^ 64 ∧
    8 ≤ kConfig.shmMallocOffset cache ∧
      kConfig.shmMallocOffset cache ≤ (s.pool.nrChunks * kChunkSize : ℕ)

/-- In the default configuration this is `get`. -/
theorem getIn_default {s : PetKV} (h : s.Sound Config.default) (outside : ℤ → Except Abort ℕ)
    (key : UInt64) : s.getIn Config.default outside 0 key =
      (s.get key).map (Option.map fun r => ⟨r.expireTimet, r.data, r.size⟩) := by
  rw [getIn, get]
  cases hget : s.dict.get key with
  | error e => rfl
  | ok found =>
    cases found with
    | none => rfl
    | some cache =>
      obtain ⟨hword, hlow, hhigh⟩ := h key cache hget
      simp only [PersistMemoryPool.getMallocSizeAt, if_pos (And.intro hlow hhigh), if_true]
      rw [Config.shmMallocOffset_default hword] at hlow ⊢
      rw [Config.expireTimet_default]
      simp only [Except.map, Option.map_some, PersistMemoryPool.getMallocData,
        Int.toNat_of_nonneg (by omega : 0 ≤ cache.shmMallocOffset)]

/-- What `Get` returns for a stored key of a sound store. -/
theorem Sound.getIn_eq {kConfig : Config} {s : PetKV} (h : s.Sound kConfig) {key : UInt64}
    {cache : PetKVData} (hget : s.dict.get key = .ok (some cache))
    (outside : ℤ → Except Abort ℕ) (n : ℕ) :
    ∃ size, s.getIn kConfig outside n key =
      .ok (some ⟨kConfig.expireTimet cache, kConfig.shmMallocOffset cache, size⟩) ∧
      ∀ outside', s.getIn kConfig outside' n key = s.getIn kConfig outside n key := by
  obtain ⟨-, hlow, hhigh⟩ := h key cache hget
  by_cases hn : n = 0
  · refine ⟨s.pool.getMallocSize (kConfig.shmMallocOffset cache).toNat, ?_,
      fun outside' => ?_⟩ <;>
      simp only [getIn, hget, hn, if_true, PersistMemoryPool.getMallocSizeAt,
        if_pos (And.intro hlow hhigh), Except.map]
  · refine ⟨n, ?_, fun outside' => ?_⟩ <;> simp only [getIn, hget, if_neg hn]

/-- The data that `Get` returns is the offset of the entry. -/
theorem data_of_getIn {kConfig : Config} {s : PetKV} {key : UInt64} {cache : PetKVData}
    (hget : s.dict.get key = .ok (some cache)) {outside : ℤ → Except Abort ℕ} {n : ℕ}
    {r : ReadData} (h : s.getIn kConfig outside n key = .ok (some r)) :
    r.data = kConfig.shmMallocOffset cache := by
  simp only [getIn, hget] at h
  split_ifs at h
  · cases hsize : s.pool.getMallocSizeAt outside (kConfig.shmMallocOffset cache) with
    | error e => rw [hsize] at h; cases h
    | ok size => rw [hsize] at h; cases h; rfl
  · cases h
    rfl

/-- `Get` of a key that is not stored is the same in all configurations. -/
theorem getIn_unstored {s : PetKV} {key : UInt64} (h : ∀ cache, s.dict.get key ≠ .ok (some cache))
    (kConfig kConfig' : Config) (outside outside' : ℤ → Except Abort ℕ) (n : ℕ) :
    s.getIn kConfig' outside' n key = s.getIn kConfig outside n key ∧
      ∀ r, s.getIn kConfig outside n key ≠ .ok (some r) := by
  rw [getIn, getIn]
  cases hget : s.dict.get key with
  | error e => exact ⟨rfl, fun _ hr => nomatch hr⟩
  | ok found =>
    cases found with
    | none => exact ⟨rfl, fun _ hr => nomatch hr⟩
    | some cache => exact absurd hget (h cache)

/-- **`Get` in two configurations.** It finds the same data and size only at the same width, and
then it returns the same. -/
theorem getIn_located_iff {w w' : ℕ} (hw : w ≤ 61) (hw' : w' ≤ 61) {s : PetKV}
    (h : s.Sound (Config.width w)) (outside outside' : ℤ → Except Abort ℕ) (n : ℕ) (key : UInt64) :
    (located (s.getIn (Config.width w') outside' n key) =
        located (s.getIn (Config.width w) outside n key) ↔
      w' = w ∨ ∀ r, s.getIn (Config.width w) outside n key ≠ .ok (some r)) ∧
    (located (s.getIn (Config.width w') outside' n key) =
        located (s.getIn (Config.width w) outside n key) →
      s.getIn (Config.width w') outside' n key = s.getIn (Config.width w) outside n key) := by
  by_cases hstored : ∃ cache, s.dict.get key = .ok (some cache)
  · obtain ⟨cache, hget⟩ := hstored
    obtain ⟨size, heq, hany⟩ := h.getIn_eq hget outside n
    obtain ⟨hword, hlow, -⟩ := h key cache hget
    have hwidth : located (s.getIn (Config.width w') outside' n key) =
        located (s.getIn (Config.width w) outside n key) → w' = w := by
      intro hsame
      by_contra hne
      rw [heq] at hsame
      obtain ⟨r, hr, hdata⟩ := located_eq_some hsame
      rw [data_of_getIn hget hr] at hdata
      exact Config.shmMallocOffset_ne hw hw' hne hword (by omega) hdata
    refine ⟨⟨fun hsame => Or.inl (hwidth hsame), ?_⟩, fun hsame => ?_⟩
    · rintro (rfl | hnone)
      · rw [hany outside']
      · exact absurd heq (hnone _)
    · rw [hwidth hsame]
      exact hany outside'
  · obtain ⟨hsame, hnone⟩ := getIn_unstored (not_exists.mp hstored) (Config.width w)
      (Config.width w') outside outside' n
    exact ⟨iff_of_true (congrArg located hsame) (Or.inr hnone), fun _ => hsame⟩

/-- The stores of the other results, which are in the default configuration, are sound. -/
theorem Inv.sound {s : PetKV} {leaked : Multiset ℕ} (h : s.Inv leaked)
    (hword : ∀ e ∈ s.dict.entries, e.second.dataValue < 2 ^ 64) : s.Sound Config.default := by
  intro key cache hget
  have hmem : (⟨key, cache⟩ : EntryT PetKVData) ∈ s.dict.entries :=
    (h.dict.get_eq_some_iff key cache).mp hget
  obtain ⟨bytes, hcontains⟩ := h.contents _ hmem
  obtain ⟨c, i, halloc, hptr, hfits⟩ := hcontains.slab
  have hinv := h.account.inv
  have hend := ((hinv.usedChunk halloc).slab_in_chunk (hinv.lt_nrEntries halloc)).2
  have hchunk : (c + 1) * kChunkSize ≤ s.pool.nrChunks * kChunkSize :=
    Nat.mul_le_mul_right _ halloc.1
  have hoffset : cache.shmMallocOffset.toNat = s.pool.entry c i + 8 := hptr
  have hcache : cache.dataValue < 2 ^ 64 := hword _ hmem
  rw [Config.shmMallocOffset_default hcache]
  refine ⟨hcache, ?_, ?_⟩ <;> omega

end PetKV

/-- `PetMultiKV`. -/
structure MultiKV where
  /-- `GetShard`. -/
  getShard : UInt64 → ℕ
  /-- `shm_kv_`. -/
  shmKv : List PetKV
  /-- `pre_known_value_size_`. -/
  preKnownValueSize : ℕ

namespace MultiKV

/-- `PetMultiKV::Get`. -/
def get (kConfig : Config) (outside : ℤ → Except Abort ℕ) (kv : MultiKV) (key : UInt64) :
    Except Abort (Option ReadData) :=
  match kv.shmKv[kv.getShard key]? with
  | none => .error .fault
  | some s => s.getIn kConfig outside kv.preKnownValueSize key

/-- All shards are sound. -/
def Sound (kConfig : Config) (kv : MultiKV) : Prop := ∀ s ∈ kv.shmKv, s.Sound kConfig

theorem get_located_iff {w w' : ℕ} (hw : w ≤ 61) (hw' : w' ≤ 61) {kv : MultiKV}
    (h : kv.Sound (Config.width w)) (outside outside' : ℤ → Except Abort ℕ) (key : UInt64) :
    (located (kv.get (Config.width w') outside' key) =
        located (kv.get (Config.width w) outside key) ↔
      w' = w ∨ ∀ r, kv.get (Config.width w) outside key ≠ .ok (some r)) ∧
    (located (kv.get (Config.width w') outside' key) =
        located (kv.get (Config.width w) outside key) →
      kv.get (Config.width w') outside' key = kv.get (Config.width w) outside key) := by
  cases hshard : kv.shmKv[kv.getShard key]? with
  | none =>
    have hsame : ∀ kConfig outside, kv.get kConfig outside key = .error .fault := fun _ _ => by
      rw [get, hshard]
    rw [hsame, hsame]
    exact ⟨iff_of_true rfl (Or.inr fun _ hr => nomatch hr), fun _ => rfl⟩
  | some s =>
    simp only [get, hshard]
    exact PetKV.getIn_located_iff hw hw' (h s (List.mem_of_getElem? hshard)) _ _ _ key

end MultiKV

/-! ### Construction -/

/-- The parameters of the constructor of `PetMultiKV`, and what its directories hold. -/
structure Setup where
  shardNum : ℕ
  /-- `shard_memory`, an `int64`. -/
  shardMemory : ℤ
  shardCacheCapacity : ℕ
  preKnownValueSize : ℕ
  getShard : UInt64 → ℕ
  /-- The files of each shard, if there are any. -/
  found : ℕ → Option PetKV.Image

/-- The slab sizes that `PetKV` passes to its pool. -/
def poolSlabSizes (preKnownValueSize : ℕ) : List ℕ :=
  if preKnownValueSize = 0 then slabSizes else [preKnownValueSize]

/-- The pool of the constructor of `PetKV`. -/
def PetKV.loadPool (memorySize preKnownValueSize : ℕ) :
    Option PetKV.Image → Except Abort PersistMemoryPool
  | none => PersistMemoryPool.create (preKnownValueSize ≠ 0) memorySize
      (poolSlabSizes preKnownValueSize)
  | some im => PersistMemoryPool.reopen (preKnownValueSize ≠ 0) im.file memorySize
      (poolSlabSizes preKnownValueSize)

/-- A new dictionary. -/
def PetKV.newDict (capacity : ℕ) : Except Abort (PetHash PetKVData) :=
  match PetHash.initializeTable capacity true with
  | none => .error .check
  | some dict => .ok dict

/-- The dictionary of the constructor of `PetKV`. -/
def PetKV.loadDict (capacity : ℕ) : Option PetKV.Image → Except Abort (PetHash PetKVData)
  | none => PetKV.newDict capacity
  | some im =>
    match im.dict.valid (PetHash.memorySize capacity true) with
    | .error e => .error e
    | .ok false => PetKV.newDict capacity
    | .ok true => im.dict.reload capacity true

/-- The constructor of `PetKV`. -/
def PetKV.load (memorySize capacity preKnownValueSize : ℕ) (found : Option PetKV.Image) :
    Except Abort PetKV :=
  match PetKV.loadPool memorySize preKnownValueSize found with
  | .error e => .error e
  | .ok pool =>
    match PetKV.loadDict capacity found with
    | .error e => .error e
    | .ok dict => PetKV.opened dict pool

theorem PetKV.load_none (memorySize capacity : ℕ) :
    PetKV.load memorySize capacity 0 none = PetKV.create memorySize capacity := by
  simp only [PetKV.load, PetKV.loadPool, PetKV.loadDict, PetKV.newDict, PetKV.create, poolSlabSizes,
    if_true, ne_eq, not_true_eq_false, decide_false, PetKV.opened]
  cases PersistMemoryPool.create false memorySize slabSizes with
  | error e => rfl
  | ok pool => cases PetHash.initializeTable (V := PetKVData) capacity true <;> rfl

theorem PetKV.load_some (memorySize capacity : ℕ) (im : PetKV.Image) :
    PetKV.load memorySize capacity 0 (some im) = PetKV.reopen memorySize capacity im := by
  simp only [PetKV.load, PetKV.loadPool, PetKV.loadDict, PetKV.newDict, PetKV.reopen, poolSlabSizes,
    if_true, ne_eq, not_true_eq_false, decide_false]
  cases PersistMemoryPool.reopen false im.file memorySize slabSizes with
  | error e => rfl
  | ok pool =>
    cases im.dict.valid (PetHash.memorySize capacity true) with
    | error e => rfl
    | ok b =>
      cases b with
      | false => cases PetHash.initializeTable (V := PetKVData) capacity true <;> rfl
      | true => cases im.dict.reload capacity true <;> rfl

/-- The shards that the threads of the constructor load, each into its own element. -/
def loadShards (a : Setup) : List ℕ → Except Abort (List PetKV)
  | [] => .ok []
  | shard :: rest =>
    match PetKV.load a.shardMemory.toNat a.shardCacheCapacity a.preKnownValueSize
      (a.found shard) with
    | .error e => .error e
    | .ok s =>
      match loadShards a rest with
      | .error e => .error e
      | .ok shmKv => .ok (s :: shmKv)

/-- A process: the configuration that its stores share, and the stores. -/
structure Process where
  kConfig : Config
  stores : List MultiKV

namespace Process

/-- A process that has no store yet. -/
def initial : Process := ⟨Config.default, []⟩

/-- The constructor of `PetMultiKV`. -/
def construct (p : Process) (a : Setup) : Except Abort Process :=
  match p.kConfig.configure a.shardMemory with
  | .error e => .error e
  | .ok kConfig =>
    match loadShards a (List.range a.shardNum) with
    | .error e => .error e
    | .ok shmKv => .ok ⟨kConfig, p.stores ++ [⟨a.getShard, shmKv, a.preKnownValueSize⟩]⟩

/-- What can happen. -/
inductive Act
  /-- A store is constructed. -/
  | construct (a : Setup)
  /-- The contents of store `i` become `shmKv`. -/
  | write (i : ℕ) (shmKv : List PetKV)

/-- One step, if it is possible. -/
def step (p : Process) : Act → Option Process
  | .construct a => (p.construct a).toOption
  | .write i shmKv => p.stores[i]?.map fun kv =>
      { p with stores := p.stores.set i { kv with shmKv } }

theorem construct_eq_ok {p p' : Process} {a : Setup} (h : p.construct a = .ok p') :
    p.kConfig.configure a.shardMemory = .ok p'.kConfig ∧
      ∃ shmKv, p'.stores = p.stores ++ [⟨a.getShard, shmKv, a.preKnownValueSize⟩] := by
  rw [construct] at h
  cases hconfig : p.kConfig.configure a.shardMemory with
  | error e => rw [hconfig] at h; cases h
  | ok kConfig =>
    rw [hconfig] at h
    simp only at h
    cases hload : loadShards a (List.range a.shardNum) with
    | error e => rw [hload] at h; cases h
    | ok shmKv =>
      rw [hload] at h
      cases h
      exact ⟨rfl, _, rfl⟩

/-- The configuration of a process has one of the widths of the constructor. -/
def Wide (p : Process) : Prop := ∃ w, (33 ≤ w ∧ w ≤ 61) ∧ p.kConfig = Config.width w

theorem Wide.step {p p' : Process} (h : p.Wide) {a : Act} (hs : Process.step p a = some p') :
    p'.Wide := by
  cases a with
  | construct a =>
    obtain ⟨w, hw, heq⟩ := h
    obtain ⟨hconfig, -⟩ := construct_eq_ok (eq_ok_of_toOption hs)
    rw [heq] at hconfig
    exact Config.exists_width_of_configure hw hconfig
  | write i shmKv =>
    simp only [Process.step, Option.map_eq_some_iff] at hs
    obtain ⟨kv, -, rfl⟩ := hs
    exact h

/-- **When a store is not disturbed.** A process has constructed stores and changed their contents
in any way, and constructs another one. The other stores stay as they are, and the current width
`w` is read off from the configuration. `Get` of a key returns the same data and size as before
exactly when the new store has shards below 32 GiB or of a size that has the width `w` again, or the
key is not stored; and then the same expiry time too. -/
theorem get_kept_iff {acts : List Act} {p p' : Process}
    (hrun : Run.run step initial acts = some p) {a : Setup} (hm : a.shardMemory < 2 ^ 62)
    (hconstruct : p.construct a = .ok p') {i : ℕ} {kv : MultiKV} (hkv : p.stores[i]? = some kv)
    (hsound : kv.Sound p.kConfig) :
    p'.stores[i]? = some kv ∧ ∃ w ≤ 61, p.kConfig = Config.width w ∧
      ∀ outside outside' key,
        (located (kv.get p'.kConfig outside' key) = located (kv.get p.kConfig outside key) ↔
          Config.Keeps w a.shardMemory ∨ ∀ r, kv.get p.kConfig outside key ≠ .ok (some r)) ∧
        (located (kv.get p'.kConfig outside' key) = located (kv.get p.kConfig outside key) →
          kv.get p'.kConfig outside' key = kv.get p.kConfig outside key) := by
  obtain ⟨w, hw, heq⟩ : p.Wide := Run.run_invariant (fun _ _ _ h hs => h.step hs)
    ⟨48, by decide, rfl⟩ hrun
  obtain ⟨hconfig, kv', hstores⟩ := construct_eq_ok hconstruct
  refine ⟨?_, w, hw.2, heq, fun outside outside' key => ?_⟩
  · rw [hstores, List.getElem?_append_left (List.getElem?_eq_some_iff.mp hkv).1]
    exact hkv
  · rw [heq] at hconfig hsound ⊢
    obtain ⟨w', hw', heq'⟩ := Config.exists_width_of_configure hw hconfig
    have hkeeps : w' = w ↔ Config.Keeps w a.shardMemory := by
      rw [← Config.configure_width_iff hw.2 hm, hconfig, heq', Except.ok.injEq]
      exact ⟨fun h => by rw [h], Config.width_inj hw'.2 hw.2⟩
    rw [heq', ← hkeeps]
    exact MultiKV.get_located_iff hw.2 hw'.2 hsound outside outside' key

/-- A store of one shard in a new directory. -/
def oneShard (shardMemory : ℤ) : Setup := ⟨1, shardMemory, 1, 0, fun _ => 0, fun _ => none⟩

/-- The `Update` of one key. -/
def oneCall : List PetKV.Call := [⟨7, [1, 2, 3, 4], PetKV.quietEpochs, PetKV.quietEpochs⟩]

/-- A store after its contents have been written. -/
theorem stores_of_write {a : Setup} {shmKv : List PetKV} {p : Process}
    (h : Run.run step initial [.construct a, .write 0 shmKv] = some p) :
    p.stores = [⟨a.getShard, shmKv, a.preKnownValueSize⟩] := by
  obtain ⟨p₁, hconstruct, hwrite⟩ := Option.bind_eq_some_iff.mp h
  obtain ⟨p₂, hwrite, hend⟩ := Option.bind_eq_some_iff.mp hwrite
  cases hend
  obtain ⟨-, loaded, hstores⟩ := construct_eq_ok (eq_ok_of_toOption hconstruct)
  rw [step, hstores] at hwrite
  cases hwrite
  rfl

/-- A store with one key, and a second store with a shard one byte below 32 GiB. -/
theorem get_kept_iff_small : ∃ s₀ s p p' kv,
    PetKV.create (5 * kChunkSize) 1 = .ok s₀ ∧ Run.run PetKV.step s₀ oneCall = some s ∧
    Run.run step initial [.construct (oneShard (5 * kChunkSize : ℕ)), .write 0 [s]] = some p ∧
    p.construct (oneShard (2 ^ 35 - 1)) = .ok p' ∧ p.stores[0]? = some kv ∧
    (∃ r, kv.get p.kConfig (fun _ => .error .fault) 7 = .ok (some r)) ∧
    kv.get p'.kConfig (fun _ => .error .fault) 7 = kv.get p.kConfig (fun _ => .error .fault) 7 := by
  have heval : ((PetKV.create (5 * kChunkSize) 1).toOption.any fun s₀ =>
      (Run.run PetKV.step s₀ oneCall).any fun s =>
        (decide (∀ pos < s.dict.chunkNum, ∀ i : Slot,
          ∀ e ∈ s.dict.slotEntry (pos, i), e.second.dataValue < 2 ^ 64)) &&
        (Run.run step initial [.construct (oneShard (5 * kChunkSize : ℕ)), .write 0 [s]]).any
          fun p => decide (p.kConfig = Config.default) &&
            (p.construct (oneShard (2 ^ 35 - 1))).toOption.any fun _ =>
              p.stores[0]?.any fun kv =>
                (kv.get p.kConfig (fun _ => .error .fault) 7).toOption.any Option.isSome) =
      true := by
    decide +kernel
  simp only [Option.any_eq_true, Bool.and_eq_true, decide_eq_true_eq,
    Option.isSome_iff_exists] at heval
  obtain ⟨s₀, hcreate, s, hcalls, hwords, p, hrun, hconfig, p', hcons, kv, hkv, found, hget, r,
    hfound⟩ := heval
  subst hfound
  obtain ⟨leaked, hinv, -⟩ := (PetKV.follows_run (eq_ok_of_toOption hcreate) hcalls).inv
  have hsound : kv.Sound p.kConfig := by
    rw [stores_of_write hrun] at hkv
    cases hkv
    intro s' hs'
    rw [List.mem_singleton.mp hs', hconfig]
    refine hinv.sound fun e he => ?_
    obtain ⟨⟨pos, i⟩, hpos, hslot⟩ := PetHash.mem_entries.mp he
    exact hwords pos hpos i e hslot
  have hcons' := eq_ok_of_toOption hcons
  obtain ⟨-, w, -, -, hkept⟩ := get_kept_iff hrun (by decide) hcons' hkv hsound
  obtain ⟨hiff, hsame⟩ := hkept (fun _ => .error .fault) (fun _ => .error .fault) 7
  exact ⟨s₀, s, p, p', kv, eq_ok_of_toOption hcreate, hcalls, hrun, hcons', hkv,
    ⟨r, eq_ok_of_toOption hget⟩, hsame (hiff.mpr (Or.inl (Or.inl (by decide))))⟩

/-- **A block that is no longer found**: a second store with a shard of 32 GiB is constructed, and
`Get` on the first one goes to the start of the pool file. It reads the length in front of it,
outside of the file, and returns that place unless the read faults. -/
theorem construct_moves_block : ∃ s₀ s p p' kv r time,
    PetKV.create (5 * kChunkSize) 1 = .ok s₀ ∧ Run.run PetKV.step s₀ oneCall = some s ∧
    Run.run step initial [.construct (oneShard (5 * kChunkSize : ℕ)), .write 0 [s]] = some p ∧
    p.construct (oneShard (2 ^ 35)) = .ok p' ∧ p.stores[0]? = some kv ∧
    0 < r.data ∧ r.size = 4 ∧ ∀ outside, kv.get p.kConfig outside 7 = .ok (some r) ∧
      kv.get p'.kConfig outside 7 = (outside 0).map fun size => some ⟨time, 0, size⟩ := by
  have heval : ((PetKV.create (5 * kChunkSize) 1).toOption.any fun s₀ =>
      (Run.run PetKV.step s₀ oneCall).any fun s =>
        (Run.run step initial [.construct (oneShard (5 * kChunkSize : ℕ)), .write 0 [s]]).any
          fun p => (p.construct (oneShard (2 ^ 35))).toOption.any fun p' =>
            (s.dict.get 7).toOption.any fun found => found.any fun cache =>
              decide (p'.kConfig.shmMallocOffset cache = 0) &&
              (decide (8 ≤ p.kConfig.shmMallocOffset cache ∧
                p.kConfig.shmMallocOffset cache ≤ (s.pool.nrChunks * kChunkSize : ℕ)) &&
              decide (s.pool.getMallocSize (p.kConfig.shmMallocOffset cache).toNat = 4))) =
      true := by
    decide +kernel
  simp only [Option.any_eq_true, Bool.and_eq_true, decide_eq_true_eq] at heval
  obtain ⟨s₀, hcreate, s, hcalls, p, hrun, p', hcons, found, hget, cache, rfl, hzero, hin, hsize⟩ :=
    heval
  refine ⟨s₀, s, p, p', ⟨(oneShard (5 * kChunkSize : ℕ)).getShard, [s], 0⟩,
    ⟨p.kConfig.expireTimet cache, p.kConfig.shmMallocOffset cache, 4⟩,
    p'.kConfig.expireTimet cache, eq_ok_of_toOption hcreate, hcalls, hrun,
    eq_ok_of_toOption hcons, ?_, lt_of_lt_of_le (by decide) hin.1, rfl, fun outside => ⟨?_, ?_⟩⟩
  · rw [stores_of_write hrun]
    rfl
  · simp only [MultiKV.get, oneShard, List.getElem?_cons_zero, PetKV.getIn, eq_ok_of_toOption hget,
      if_true, PersistMemoryPool.getMallocSizeAt, if_pos hin, hsize, Except.map]
  · simp only [MultiKV.get, oneShard, List.getElem?_cons_zero, PetKV.getIn, eq_ok_of_toOption hget,
      if_true, PersistMemoryPool.getMallocSizeAt, hzero]
    rfl

end Process

end PetPS

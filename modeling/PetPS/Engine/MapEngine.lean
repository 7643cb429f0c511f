import PetPS.Engine.PetEngine
import PetPS.Memory.SimpleMalloc

/-!
# The map engines

`KVEngineMultiMapPM`, `KVEngineMapPM` and `KVEngineMap` keep, in a `std::unordered_map` or in 32 of
them, the packed offset of the value of each key, and the values in slabs of a
`PersistSimpleMalloc`. They differ in the number of maps only, which is a parameter here; a map is a
partial function.

Three things keep `Get` from returning the value last put. `unordered_map::insert` leaves the
entry of a key that is present as it is, so a second `Put` of the key is lost. An offset is stored
without its three low bits, so it must be a multiple of eight; and slabs come back when their number
is used up.

Locks, flushes and log lines are left out.

## Main results

* `Follows.put` — a `Put` of a new key into a new slab
* `mapEngine_reads_last_put` — where every `Put` is one, `Get` finds the value last put, as that of
  `KVEnginePetKV` does
-/

namespace PetPS

/-- An engine with `shardNum` maps. -/
structure MapEngine (shardNum : ℕ) where
  /-- `GetHash(key) % kShardNum`. -/
  getShard : UInt64 → Fin shardNum
  /-- `hash_table_`. -/
  hashTable : Fin shardNum → UInt64 → Option PetKVData
  /-- `shm_malloc_`. -/
  shmMalloc : PersistSimpleMalloc

/-- `KVEngineMultiMapPM`, with `kShardNum` maps. -/
abbrev KVEngineMultiMapPM : Type := MapEngine 32

/-- `KVEngineMapPM`. -/
abbrev KVEngineMapPM : Type := MapEngine 1

/-- `KVEngineMap`. -/
abbrev KVEngineMap : Type := MapEngine 1

namespace MapEngine

variable {shardNum : ℕ}

open PersistSimpleMalloc (offsetAt offsetAt_lt)

/-- The constructor on zeroed shared memory, the values being mapped at `data`; `valid` says whether
the first `valid_shm_file_.Initialize` succeeds. -/
def create (getShard : UInt64 → Fin shardNum) (data capacity valueSize : ℕ) (valid : Bool) :
    Except Abort (MapEngine shardNum) :=
  if userSpace < data + capacity * valueSize then .error .check
  else
    let shmMalloc := PersistSimpleMalloc.construct data
      (capacity * valueSize) valueSize (fun _ => 0)
      fun _ => 0
    .ok ⟨getShard, fun _ _ => none, if valid then shmMalloc else shmMalloc.initializeMalloc⟩

/-- `find(key)`, in the map of the key. -/
def find (e : MapEngine shardNum) (key : UInt64) : Option PetKVData :=
  e.hashTable (e.getShard key) key

/-- `Get`. -/
def get (e : MapEngine shardNum) (key : UInt64) : List UInt8 :=
  match e.find key with
  | none => []
  | some shmkvData =>
    -- an offset of -1 is never stored: all offsets are below the size of the address space
    let offset := shmkvData.shmMallocOffset.toNat
    Bytes.load e.shmMalloc.bytes (e.shmMalloc.getMallocData offset)
      (e.shmMalloc.getMallocSize offset)

/-- `hash_table_[shard]->insert({key, data_value})`: an entry that is there stays. -/
def insert (e : MapEngine shardNum) (key : UInt64) (shmkvData : PetKVData) : MapEngine shardNum :=
  if (e.find key).isSome then e
  else
    { e with
      hashTable := Function.update e.hashTable (e.getShard key)
        (Function.update (e.hashTable (e.getShard key)) key (some shmkvData)) }

/-- `Put`. -/
def put (e : MapEngine shardNum) (key : UInt64) (value : List UInt8) :
    Except Abort (MapEngine shardNum) :=
  match e.shmMalloc.new value.length with
  | .error e => .error e
  | .ok (shmMalloc, syncData) =>
    match shmMalloc.getMallocOffset syncData with
    | .error e => .error e
    | .ok offset =>
      .ok ({ e with shmMalloc := shmMalloc.copy syncData value }.insert key
        (PetKVData.ofOffset offset))

/-! ### Runs -/

/-- A call of `Put`. A `Get` changes nothing, so runs are made of `Put`s. -/
structure Put where
  key : UInt64
  value : List UInt8

/-- The engine after a `Put` that returns. -/
def step (e : MapEngine shardNum) (c : Put) : Option (MapEngine shardNum) :=
  (e.put c.key c.value).toOption

/-- The value of the last `Put` of `key`. -/
def lastPut (puts : List Put) (key : UInt64) : Option (List UInt8) :=
  (Run.lastOn Put.key puts key).map Put.value

/-- The key is new, or is put with the value it has; there is a slab left that has not been handed
out, other than the last; and the counter is at a multiple of eight. -/
def PutOk (capacity : ℕ) (e : MapEngine shardNum) (c : Put) : Prop :=
  (e.find c.key = none ∨ e.get c.key = c.value) ∧ e.shmMalloc.nrMalloc + 1 < capacity ∧
    e.shmMalloc.allocated % 8 = 0

instance (capacity : ℕ) (e : MapEngine shardNum) (c : Put) : Decidable (e.PutOk capacity c) :=
  inferInstanceAs (Decidable (_ ∧ _))

/-- The entry of `key` leads to `value`, in the slab that the call after `k` others was given. -/
structure Stored (e : MapEngine shardNum) (slabSize capacity start k : ℕ) (key : UInt64)
    (value : List UInt8) : Prop where
  entry : ∃ d, e.find key = some d ∧ d.shmMallocOffset = (offsetAt slabSize capacity start k : ℕ)
  length : value.length = slabSize
  holds : e.shmMalloc.Holds (offsetAt slabSize capacity start k) value

/-- What is known after some `Put`s. -/
structure Follows (slabSize capacity start : ℕ) (puts : List Put)
    (e : MapEngine shardNum) : Prop where
  made : e.shmMalloc.Made capacity start puts.length
  slab : e.shmMalloc.slabSize = slabSize
  count : e.shmMalloc.nrMalloc = puts.length
  /-- The memory is in the address space. -/
  space : capacity * slabSize ≤ userSpace
  /-- Every key leads to the value last put. -/
  stored : ∀ key value, lastPut puts key = some value →
    ∃ k < puts.length, e.Stored slabSize capacity start k key value
  /-- Other keys are not there. -/
  absent : ∀ key, lastPut puts key = none → e.find key = none

variable {e : MapEngine shardNum} {slabSize capacity start : ℕ} {puts : List Put}

theorem Stored.get {k : ℕ} {key : UInt64} {value : List UInt8}
    (h : e.Stored slabSize capacity start k key value) : e.get key = value := by
  obtain ⟨d, hfind, hoff⟩ := h.entry
  rw [MapEngine.get, hfind]
  simp only [hoff, Int.toNat_natCast, PersistSimpleMalloc.getMallocData, h.holds.size,
    h.holds.bytes]

theorem Follows.get (h : Follows slabSize capacity start puts e) (key : UInt64) :
    e.get key = (lastPut puts key).getD [] := by
  cases hlast : lastPut puts key with
  | none =>
    rw [MapEngine.get, h.absent key hlast]
    rfl
  | some value =>
    obtain ⟨k, -, hk⟩ := h.stored key value hlast
    exact hk.get

theorem lastPut_concat (puts : List Put) (c : Put) (key : UInt64) :
    lastPut (puts ++ [c]) key = if c.key = key then some c.value else lastPut puts key := by
  rw [lastPut, Run.lastOn_concat, lastPut]
  split_ifs <;> rfl

theorem find_insert_of_ne {key key' : UInt64} (hne : key' ≠ key)
    (d : PetKVData) : (e.insert key d).find key' = e.find key' := by
  rw [insert]
  split_ifs
  · rfl
  · simp only [find]
    by_cases hs : e.getShard key' = e.getShard key
    · rw [hs, Function.update_self, Function.update_of_ne hne]
    · rw [Function.update_of_ne hs]

theorem find_insert_self {key : UInt64} (d : PetKVData) :
    (e.insert key d).find key = some ((e.find key).getD d) := by
  rw [insert]
  cases hfind : e.find key with
  | some d' => simp [hfind]
  | none => simp [find]

theorem shmMalloc_insert (e : MapEngine shardNum) (key : UInt64) (d : PetKVData) :
    (e.insert key d).shmMalloc = e.shmMalloc := by
  rw [insert]
  split_ifs <;> rfl

/-- The offset of the next slab survives the packing. -/
theorem Follows.shmMallocOffset (h : Follows slabSize capacity start puts e)
    (hroom : puts.length + 1 < capacity) (halign : e.shmMalloc.allocated % 8 = 0) :
    (PetKVData.ofOffset (offsetAt slabSize capacity start puts.length : ℕ)).shmMallocOffset
      = (offsetAt slabSize capacity start puts.length : ℕ) := by
  have hlt := offsetAt_lt start (h.slab ▸ h.made.pos) hroom
  have halloc := h.made.allocated
  have hstart := h.made.start_le
  refine PetKVData.shmMallocOffset_set _ ?_ ((by omega : _ ≤ _).trans h.space)
  rw [offsetAt, PersistSimpleMalloc.slabAt]
  split_ifs with hnext
  · rw [← h.slab, ← halloc (by omega)]
    exact halign
  · rw [Nat.zero_mul]

/-- What a `Put` does that comes after `n` others: the value goes to the next slab, and the key
leads there if it was new. -/
structure Placed (e e' : MapEngine shardNum) (capacity start n : ℕ) (c : Put) : Prop where
  malloc : ∃ m, PersistSimpleMalloc.NewAt e.shmMalloc m capacity start n ∧ e'.shmMalloc =
    m.copy (e.shmMalloc.data + offsetAt e.shmMalloc.slabSize capacity start n) c.value
  self : e'.find c.key = some ((e.find c.key).getD
    (PetKVData.ofOffset (offsetAt e.shmMalloc.slabSize capacity start n : ℕ)))
  other : ∀ key, key ≠ c.key → e'.find key = e.find key

theorem Follows.exists_placed (h : Follows slabSize capacity start puts e) {c : Put}
    (hsize : c.value.length = slabSize) (hroom : puts.length + 1 < capacity) :
    ∃ e', e.step c = some e' ∧ Placed e e' capacity start puts.length c := by
  obtain ⟨m, hnew, hat⟩ := h.made.new hroom
  have hmemory := h.made.memory
  have hend := offsetAt_lt start h.made.pos hroom
  have hoffset : m.getMallocOffset
      (e.shmMalloc.data + offsetAt e.shmMalloc.slabSize capacity start puts.length)
      = .ok (offsetAt e.shmMalloc.slabSize capacity start puts.length) := by
    rw [PersistSimpleMalloc.getMallocOffset_eq_ok, hat.data, hat.slabSize, hat.memorySize]
    omega
  refine ⟨{ e with
    shmMalloc := m.copy
      (e.shmMalloc.data + offsetAt e.shmMalloc.slabSize capacity start puts.length)
      c.value }.insert c.key
      (PetKVData.ofOffset (offsetAt e.shmMalloc.slabSize capacity start puts.length : ℕ)), ?_,
    ⟨m, hat, shmMalloc_insert _ _ _⟩, find_insert_self _, fun key hne => find_insert_of_ne hne _⟩
  rw [step, MapEngine.put, hsize, ← h.slab, hnew]
  simp only [hoffset]
  rfl

section Placed

variable {e' : MapEngine shardNum} {n : ℕ} {c : Put} (h : Placed e e' capacity start n c)
  (hsize : c.value.length = e.shmMalloc.slabSize)
include h hsize

/-- What was stored is still there, for old slabs are other slabs. -/
theorem Placed.stored_old (hroom : n + 1 < capacity) {key : UInt64} {value : List UInt8} {k : ℕ}
    (hk : k < n) (hs : e.Stored e.shmMalloc.slabSize capacity start k key value) :
    e'.Stored e.shmMalloc.slabSize capacity start k key value := by
  obtain ⟨m, hat, hmalloc⟩ := h.malloc
  obtain ⟨d, hd, hdoff⟩ := hs.entry
  refine ⟨⟨d, ?_, hdoff⟩, hs.length, ?_⟩
  · by_cases hne : key = c.key
    · rw [hne, h.self, ← hne, hd]
      rfl
    · rw [h.other key hne, hd]
  · rw [hmalloc]
    exact hat.holds_of_lt hroom hk hs.length hsize hs.holds

/-- A new key leads to its value. -/
theorem Placed.stored_new (habs : e.find c.key = none)
    (hpack : (PetKVData.ofOffset
      (offsetAt e.shmMalloc.slabSize capacity start n : ℕ)).shmMallocOffset
      = (offsetAt e.shmMalloc.slabSize capacity start n : ℕ)) :
    e'.Stored e.shmMalloc.slabSize capacity start n c.key c.value := by
  obtain ⟨m, hat, hmalloc⟩ := h.malloc
  refine ⟨⟨_, by rw [h.self, habs]; rfl, hpack⟩, hsize, ?_⟩
  rw [hmalloc]
  exact hat.holds_self hsize

end Placed

/-- **A `Put`** of as many bytes as a slab has. They go to a slab that holds no value yet, so every
entry leads to what it led to. -/
theorem Follows.put (h : Follows slabSize capacity start puts e) {c : Put}
    (hsize : c.value.length = slabSize) (hok : e.PutOk capacity c) :
    ∃ e', e.step c = some e' ∧ Follows slabSize capacity start (puts ++ [c]) e' := by
  obtain ⟨hkey, hroom, halign⟩ := hok
  rw [h.count] at hroom
  have hpack := h.shmMallocOffset hroom halign
  obtain ⟨e', hstep, hp⟩ := h.exists_placed hsize hroom
  obtain ⟨m, hat, hmalloc⟩ := hp.malloc
  have hslab := h.slab
  subst hslab
  have hlen : (puts ++ [c]).length = puts.length + 1 := List.length_append
  refine ⟨e', hstep, ?_, ?_, ?_, h.space, fun key value hlast => ?_, fun key hlast => ?_⟩
  · rw [hmalloc, hlen]
    exact hat.made.copy _ _
  · rw [hmalloc]
    exact hat.slabSize
  · rw [hmalloc, hlen, ← h.count]
    exact hat.nrMalloc
  · rw [hlen]
    rw [lastPut_concat] at hlast
    cases hput : lastPut puts key with
    | some value' =>
      obtain ⟨k, hk, hs⟩ := h.stored key value' hput
      have hvalue : value' = value := by
        split_ifs at hlast with hc
        · -- the key is there, so it has been put with the value it has
          subst hc
          obtain ⟨d, hd, -⟩ := hs.entry
          rw [← hs.get, ← Option.some.inj hlast]
          exact hkey.resolve_left (by rw [hd]; exact Option.some_ne_none d)
        · rw [hput] at hlast
          exact Option.some.inj hlast
      exact ⟨k, by omega, hvalue ▸ hp.stored_old hsize hroom hk hs⟩
    | none =>
      split_ifs at hlast with hc
      · subst hc
        obtain rfl := Option.some.inj hlast
        exact ⟨puts.length, by omega, hp.stored_new hsize (h.absent _ hput) hpack⟩
      · rw [hput] at hlast
        cases hlast
  · rw [lastPut_concat] at hlast
    split_ifs at hlast with hc
    rw [hp.other key (Ne.symm hc)]
    exact h.absent key hlast

/-! ### The contract of the engines -/

theorem create_eq {getShard : UInt64 → Fin shardNum} {data valueSize : ℕ} {valid : Bool}
    (h : create getShard data capacity valueSize valid = .ok e) (hpos : 0 < valueSize) :
    ∃ start, Follows valueSize capacity start [] e := by
  rw [create] at h
  by_cases hspace : userSpace < data + capacity * valueSize
  · rw [if_pos hspace] at h
    cases h
  rw [if_neg hspace] at h
  have hspace' : capacity * valueSize ≤ userSpace := by omega
  obtain rfl := Except.ok.inj h
  have hmade := PersistSimpleMalloc.made_construct data capacity hpos (fun _ => 0) fun _ => 0
  cases valid with
  | true =>
    exact ⟨1, hmade, rfl, rfl, hspace',
      fun _ _ hlast => absurd hlast (by simp [lastPut, Run.lastOn]),
      fun _ _ => rfl⟩
  | false =>
    exact ⟨0, PersistSimpleMalloc.made_initializeMalloc hpos hmade.memory, rfl, rfl, hspace',
      fun _ _ hlast => absurd hlast (by simp [lastPut, Run.lastOn]), fun _ _ => rfl⟩

/-- The `Put` that a call of `KVEnginePetKV::Put` makes. -/
def Put.ofCall (c : PetKV.Call) : Put := ⟨c.key, c.log⟩

theorem lastPut_map (calls : List PetKV.Call) (key : UInt64) :
    lastPut (calls.map Put.ofCall) key = PetKV.lastLog calls key := by
  rw [lastPut, PetKV.lastLog, Run.lastOn, Run.lastOn, ← List.map_reverse, List.find?_map,
    Option.map_map]
  rfl

/-- **The map engines return the value last put**, or the empty string, in every run of `Put`s
each of which is of a new key or of the value the key has, as long as fewer than `capacity` are made
and the counter is at multiples of eight. They then agree with `KVEnginePetKV` of the same
configuration, wherever that performs the same `Put`s and evicts no key. -/
theorem mapEngine_reads_last_put {getShard : UInt64 → Fin shardNum} {data valueSize : ℕ}
    {valid : Bool} {e₀ : MapEngine shardNum}
    (hnew : create getShard data capacity valueSize valid = .ok e₀) (hpos : 0 < valueSize)
    (hsize : ∀ c ∈ puts, c.value.length = valueSize)
    (hok : Run.Guarded step (PutOk capacity) e₀ puts) :
    ∃ e, Run.run step e₀ puts = some e ∧ (∀ key, e.get key = (lastPut puts key).getD []) ∧
      ∀ (getShard' : UInt64 → Fin 16) (calls : List PetKV.Call) (kv₀ kv : PetMultiKV),
        calls.map Put.ofCall = puts → KVEnginePetKV.create getShard' valueSize capacity = .ok kv₀ →
        Run.Guarded KVEnginePetKV.step KVEnginePetKV.Calm kv₀ calls →
        Run.run KVEnginePetKV.step kv₀ calls = some kv →
        ∀ key, KVEnginePetKV.get kv key [] = .ok (e.get key) := by
  obtain ⟨start, hfollows⟩ := create_eq hnew hpos
  obtain ⟨e, hrun, h⟩ := Run.run_total (P := Follows valueSize capacity start)
    (fun _ _ _ h hc => h.put hc.1 hc.2) [] hfollows (hok.and_of_forall hsize)
  refine ⟨e, hrun, h.get, fun getShard' calls kv₀ kv hcalls hkv hcalm hrun' key => ?_⟩
  rw [KVEnginePetKV.petEngine_reads_last_put hkv hcalm hrun' key, h.get, List.nil_append, ← hcalls,
    lastPut_map]

/-- Two keys, one of them twice with the same value, on `KVEngineMultiMapPM` with room for a million
values of eight bytes per shard of the other engine. -/
def twoCalls : List PetKV.Call :=
  [⟨7, [1, 2, 3, 4, 5, 6, 7, 8], PetKV.quietEpochs, PetKV.quietEpochs⟩,
    ⟨9, [8, 8, 8, 8, 8, 8, 8, 8], PetKV.quietEpochs, PetKV.quietEpochs⟩,
    ⟨7, [1, 2, 3, 4, 5, 6, 7, 8], PetKV.quietEpochs, PetKV.quietEpochs⟩]

theorem mapEngine_reads_last_put_two_keys :
    ∃ (e₀ e : KVEngineMultiMapPM) (kv₀ kv : PetMultiKV),
      create (fun _ => 0) 4096 (16 * 1310720) 8 true = .ok e₀ ∧
      Run.run step e₀ (twoCalls.map Put.ofCall) = some e ∧
      e.get 7 = [1, 2, 3, 4, 5, 6, 7, 8] ∧
      KVEnginePetKV.create (fun _ => 0) 8 (16 * 1310720) = .ok kv₀ ∧
      Run.run KVEnginePetKV.step kv₀ twoCalls = some kv ∧
      KVEnginePetKV.get kv 7 [] = .ok (e.get 7) := by
  have hmap : ((create (fun _ => (0 : Fin 32)) 4096 (16 * 1310720) 8 true).toOption.any fun e₀ =>
      decide (Run.Guarded step (PutOk (16 * 1310720)) e₀ (twoCalls.map Put.ofCall))) = true := by
    decide +kernel
  have hpet : ((KVEnginePetKV.create (fun _ => 0) 8 (16 * 1310720)).toOption.any fun kv₀ =>
      decide (Run.Guarded KVEnginePetKV.step KVEnginePetKV.Calm kv₀ twoCalls) &&
      (Run.run KVEnginePetKV.step kv₀ twoCalls).isSome) = true := by
    decide +kernel
  simp only [Option.any_eq_true, decide_eq_true_eq, Bool.and_eq_true,
    Option.isSome_iff_exists] at hmap hpet
  obtain ⟨e₀, he₀, hok⟩ := hmap
  obtain ⟨kv₀, hkv₀, hcalm, kv, hkv⟩ := hpet
  obtain ⟨e, hrun, hget, hagree⟩ := mapEngine_reads_last_put (eq_ok_of_toOption he₀) (by decide)
    (by decide) hok
  exact ⟨e₀, e, kv₀, kv, eq_ok_of_toOption he₀, hrun, hget 7, eq_ok_of_toOption hkv₀, hkv,
    hagree _ twoCalls kv₀ kv rfl (eq_ok_of_toOption hkv₀) hcalm hkv 7⟩

/-- What `key` reads after the `Put`s, on `KVEngineMultiMapPM`. -/
def readBack (capacity valueSize : ℕ) (puts : List Put) (key : UInt64) : Option (List UInt8) :=
  match create (fun _ => (0 : Fin 32)) 4096 capacity valueSize true with
  | .error _ => none
  | .ok e₀ => (Run.run step e₀ puts).map fun e => e.get key

/-- **`Get` does not return the value last put**: after a second `Put` of the key, with values
of four bytes, with as many `Put`s as the capacity; and a capacity of one admits no `Put` at all. -/
theorem mapEngine_loses_put :
    readBack 4 8 [⟨7, [1, 1, 1, 1, 1, 1, 1, 1]⟩, ⟨7, [2, 2, 2, 2, 2, 2, 2, 2]⟩] 7 =
        some [1, 1, 1, 1, 1, 1, 1, 1] ∧
      readBack 4 4 [⟨7, [1, 1, 1, 1]⟩] 7 = some [] ∧
      readBack 2 8 [⟨7, [1, 1, 1, 1, 1, 1, 1, 1]⟩, ⟨9, [2, 2, 2, 2, 2, 2, 2, 2]⟩] 7 =
        some [2, 2, 2, 2, 2, 2, 2, 2] ∧
      readBack 1 8 [⟨7, [1, 1, 1, 1, 1, 1, 1, 1]⟩] 7 = none := by
  decide +kernel

end MapEngine

end PetPS

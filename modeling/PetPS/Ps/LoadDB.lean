import Mathlib.Data.List.Permutation
import PetPS.Engine.Sizing
import PetPS.Lib.Batch
import PetPS.Lib.Split
import PetPS.Lib.Threads

/-!
# Loading the store

`LoadDBHelper` of `load_db.h`. `PreLoadDB` puts the keys `1`, `2`, .. up to the warm capacity, those
of this server only, by a number of threads of which each has a part of the range. `CheckDBLoad`
reads them back by 36 threads, and counts the keys whose values are right and those that are
missing.

A `Put` is one step, and the `Put`s of different threads interleave in any way. The floats are left
open: what `(float)key` looks like, and which words are within a millionth of it. The pool of a
thread has 32 KiB, which no value of the engine exceeds. The counters are natural numbers.

The store is `KVEnginePetKV`. Its shards may evict keys and run out of memory, so a load may lose
keys or end the server.

## Main results

* `run_load` — what an interleaving of the loading threads does
* `preLoadDB_checkDBLoad` — the check after a load: every key is right or was evicted
* `preLoadDB_returns_iff` — the loads that end
* `preLoadDB_whole_space` — no cluster can load its whole key space
-/

namespace PetPS

/-! ### Keys that are evicted -/

namespace PetKV

variable {s₀ s s' : PetKV} {leaked : Multiset ℕ} {calls : List Call} {c : Call} {key : UInt64}

/-- A key that is evicted was there. -/
theorem Inv.mem_of_evicts (h : s.Inv leaked) (hev : s.evicts c.key = some key) :
    (∃ v, ⟨key, v⟩ ∈ s.dict.entries) ∧ s.dict.Absent c.key := by
  rw [evicts] at hev
  split_ifs at hev with hcond
  obtain ⟨habs, hcrowd⟩ := hcond
  cases hev
  have hp := h.dict.shape.homeChunk_lt c.key
  have he := h.dict.slotEntry_of_full hp hcrowd.1 (PetHash.evictSlot c.key)
  refine ⟨⟨_, PetHash.mem_entries.mpr ⟨_, hp, he⟩⟩, fun v hv => ?_⟩
  obtain ⟨slot, hslot, hentry⟩ := PetHash.mem_entries.mp hv
  have hget := h.dict.getInternal_of_mem hslot hentry
  rw [habs] at hget
  cases hget

/-- A key that is evicted, or not there, is not there after an `Update` of another key. -/
theorem Inv.absent_step (h : s.Inv leaked) (hs : s.step c = some s') (hne : c.key ≠ key)
    (hgone : s.dict.Absent key ∨ s.evicts c.key = some key) : s'.dict.Absent key := by
  obtain ⟨hup, -⟩ := h.update (step_eq_some.mp hs)
  intro v hv
  obtain ⟨hold, hkept⟩ := (hup.other key v hne.symm).mp hv
  rcases hgone with habs | hev
  · exact habs v hold
  · exact hkept hev

theorem lastLog_isSome (hc : c ∈ calls) : lastLog calls c.key ≠ none := fun hnone =>
  lastLog_eq_none.mp hnone c hc rfl

/-- **When all keys of a run are there**: when no `Update` has evicted one. No key comes twice, so a
key that is evicted does not come back. -/
theorem all_stored_iff {memorySize capacity : ℕ} (hnew : create memorySize capacity = .ok s₀)
    (hkeys : (calls.map Call.key).Nodup) (hrun : Run.run step s₀ calls = some s) :
    (∀ c ∈ calls, ¬ s.dict.Absent c.key) ↔ Run.Guarded step Calm s₀ calls := by
  refine ⟨fun hall => ?_, fun hcalm c hc habs => ?_⟩
  · induction calls using List.reverseRecOn generalizing s with
    | nil => trivial
    | append_singleton calls c ih =>
      obtain ⟨s₁, hs₁, hlast⟩ := Run.exists_of_run_append hrun
      obtain ⟨s₂, hstep, hnil⟩ := Option.bind_eq_some_iff.mp hlast
      obtain rfl : s₂ = s := Option.some.inj hnil
      have hfollows := follows_run hnew hs₁
      obtain ⟨leaked, hinv, -⟩ := hfollows.inv
      rw [List.map_append, List.map_singleton, List.nodup_append] at hkeys
      have hne : ∀ d ∈ calls, c.key ≠ d.key := fun d hd =>
        (hkeys.2.2 d.key (List.mem_map_of_mem hd) c.key List.mem_cons_self).symm
      have hkept : ∀ d ∈ calls, ¬ (s₁.dict.Absent d.key ∨ s₁.evicts c.key = some d.key) :=
        fun d hd hgone => hall d (List.mem_append_left _ hd)
          (hinv.absent_step hstep (hne d hd) hgone)
      refine (Run.guarded_concat hs₁ c).mpr
        ⟨ih hkeys.1 hs₁ fun d hd habs => hkept d hd (Or.inl habs), ?_⟩
      rw [Calm, Option.eq_none_iff_forall_ne_some]
      intro key hev
      obtain ⟨⟨v, hv⟩, -⟩ := hinv.mem_of_evicts hev
      obtain ⟨log, hlog, -⟩ := hfollows.stored key v hv
      obtain ⟨d, hd, rfl⟩ : ∃ d ∈ calls, d.key = key := by
        by_contra hno
        push Not at hno
        rw [lastLog_eq_none.mpr hno] at hlog
        cases hlog
      exact hkept d hd (Or.inr hev)
  · rcases (follows_run hnew hrun).absent c.key habs with hnone | hev
    · exact lastLog_isSome hc hnone
    · exact not_evictedSince hcalm c.key hev

/-- The keys of a run are right or missing. -/
theorem read_new_key {memorySize capacity : ℕ} (hnew : create memorySize capacity = .ok s₀)
    (hkeys : (calls.map Call.key).Nodup) (hrun : Run.run step s₀ calls = some s) (hc : c ∈ calls) :
    (s.dict.Absent c.key → s.read c.key = .ok none) ∧
      (¬ s.dict.Absent c.key → s.read c.key = .ok (some c.log)) := by
  have hfollows := follows_run hnew hrun
  obtain ⟨leaked, hinv, -⟩ := hfollows.inv
  refine ⟨hinv.read_of_notMem, fun hthere => ?_⟩
  rw [PetHash.Absent] at hthere
  push Not at hthere
  obtain ⟨v, hv⟩ := hthere
  obtain ⟨log, hlast, hlog⟩ := hfollows.stored c.key v hv
  obtain ⟨d, hd, rfl⟩ := Option.map_eq_some_iff.mp hlast
  have hmem : d ∈ calls := List.mem_reverse.mp (List.mem_of_find?_eq_some hd)
  obtain rfl : d = c := List.inj_on_of_nodup_map hkeys hmem hc (Run.key_of_lastOn hd)
  exact hinv.read_of_mem hv hlog

end PetKV

/-! ### Runs of the engine, shard by shard -/

namespace KVEnginePetKV

variable {kv kv' : PetMultiKV} {calls : List PetKV.Call}

theorem routed_cons_self (getShard : UInt64 → Fin 16) (c : PetKV.Call) (calls : List PetKV.Call) :
    routed getShard (getShard c.key) (c :: calls) = c :: routed getShard (getShard c.key) calls :=
  List.filter_cons_of_pos (decide_eq_true rfl)

theorem routed_cons_of_ne {getShard : UInt64 → Fin 16} {c : PetKV.Call} {i : Fin 16}
    (h : getShard c.key ≠ i) (calls : List PetKV.Call) :
    routed getShard i (c :: calls) = routed getShard i calls :=
  List.filter_cons_of_neg (by rw [decide_eq_true_iff]; exact h)

/-- Every shard performs the calls that go to it. -/
theorem run_routed (h : Run.run step kv calls = some kv') :
    kv'.getShard = kv.getShard ∧ ∀ i,
      Run.run PetKV.step (kv.shmKv i) (routed kv.getShard i calls) = some (kv'.shmKv i) := by
  induction calls generalizing kv with
  | nil =>
    obtain rfl := Option.some.inj h
    exact ⟨rfl, fun i => rfl⟩
  | cons c calls ih =>
    obtain ⟨kv₁, hstep, hrest⟩ := Option.bind_eq_some_iff.mp h
    obtain ⟨s, hs, rfl⟩ := step_eq_some hstep
    obtain ⟨hshard, hruns⟩ := ih hrest
    refine ⟨hshard, fun i => ?_⟩
    have hi := hruns i
    simp only at hi
    by_cases heq : kv.getShard c.key = i
    · subst heq
      rw [Function.update_self] at hi
      rw [routed_cons_self, Run.run_cons, hs]
      exact hi
    · rw [Function.update_of_ne (Ne.symm heq)] at hi
      rw [routed_cons_of_ne heq]
      exact hi

/-- The engine performs what its shards can perform. -/
theorem exists_run (h : ∀ i, ∃ s,
    Run.run PetKV.step (kv.shmKv i) (routed kv.getShard i calls) = some s) :
    ∃ kv', Run.run step kv calls = some kv' := by
  induction calls generalizing kv with
  | nil => exact ⟨kv, rfl⟩
  | cons c calls ih =>
    obtain ⟨s', hs'⟩ := h (kv.getShard c.key)
    rw [routed_cons_self] at hs'
    obtain ⟨s, hs, hrest⟩ := Option.bind_eq_some_iff.mp hs'
    have hstep : step kv c =
        some { kv with shmKv := Function.update kv.shmKv (kv.getShard c.key) s } := by
      rw [step, put, PetMultiKV.update, PetKV.step_eq_some.mp hs]
      rfl
    have hshards : ∀ i, ∃ t, Run.run PetKV.step (Function.update kv.shmKv (kv.getShard c.key) s i)
        (routed kv.getShard i calls) = some t := by
      intro i
      by_cases heq : kv.getShard c.key = i
      · subst heq
        exact ⟨s', by rw [Function.update_self]; exact hrest⟩
      · obtain ⟨t, ht⟩ := h i
        rw [routed_cons_of_ne heq] at ht
        exact ⟨t, by rw [Function.update_of_ne (Ne.symm heq)]; exact ht⟩
    obtain ⟨kv', hkv'⟩ : ∃ kv', Run.run step
        { kv with shmKv := Function.update kv.shmKv (kv.getShard c.key) s } calls = some kv' :=
      ih hshards
    exact ⟨kv', by rw [Run.run_cons, hstep, Option.bind_some, hkv']⟩

/-- No shard evicts where the engine does not. -/
theorem guarded_routed_iff (h : Run.run step kv calls = some kv') :
    Run.Guarded step Calm kv calls ↔
      ∀ i, Run.Guarded PetKV.step PetKV.Calm (kv.shmKv i) (routed kv.getShard i calls) := by
  induction calls generalizing kv with
  | nil => exact iff_of_true trivial fun i => trivial
  | cons c calls ih =>
    obtain ⟨kv₁, hstep, hrest⟩ := Option.bind_eq_some_iff.mp h
    obtain ⟨s, hs, rfl⟩ := step_eq_some hstep
    rw [Run.guarded_cons hstep, ih hrest, Calm]
    simp only
    constructor
    · rintro ⟨hcalm, hrests⟩ i
      have hi := hrests i
      by_cases heq : kv.getShard c.key = i
      · subst heq
        rw [Function.update_self] at hi
        rw [routed_cons_self]
        exact (Run.guarded_cons hs).mpr ⟨hcalm, hi⟩
      · rw [Function.update_of_ne (Ne.symm heq)] at hi
        rwa [routed_cons_of_ne heq]
    · intro hall
      have hself := hall (kv.getShard c.key)
      rw [routed_cons_self, Run.guarded_cons hs] at hself
      refine ⟨hself.1, fun i => ?_⟩
      by_cases heq : kv.getShard c.key = i
      · subst heq
        rw [Function.update_self]
        exact hself.2
      · have hi := hall i
        rw [routed_cons_of_ne heq] at hi
        rwa [Function.update_of_ne (Ne.symm heq)]

section Create

variable {getShard : UInt64 → Fin 16} {valueSize capacity : ℕ} {kv₀ : PetMultiKV} {c : PetKV.Call}

theorem nodup_routed (hkeys : (calls.map PetKV.Call.key).Nodup) (i : Fin 16) :
    ((routed getShard i calls).map PetKV.Call.key).Nodup :=
  hkeys.sublist (List.filter_sublist.map PetKV.Call.key)

/-- The keys of a run are right or missing. -/
theorem read_new_key (hnew : create getShard valueSize capacity = .ok kv₀)
    (hkeys : (calls.map PetKV.Call.key).Nodup) (hrun : Run.run step kv₀ calls = some kv)
    (hc : c ∈ calls) :
    ((kv.shmKv (getShard c.key)).dict.Absent c.key → kv.read c.key = .ok none) ∧
      (¬ (kv.shmKv (getShard c.key)).dict.Absent c.key → kv.read c.key = .ok (some c.log)) := by
  obtain ⟨s, hs, rfl⟩ := create_eq hnew
  obtain ⟨hshard, hruns⟩ := run_routed hrun
  rw [PetMultiKV.read, hshard]
  exact PetKV.read_new_key hs (nodup_routed hkeys _) (hruns (getShard c.key))
    (List.mem_filter.mpr ⟨hc, decide_eq_true rfl⟩)

/-- **When all keys of a run are there.** -/
theorem all_stored_iff (hnew : create getShard valueSize capacity = .ok kv₀)
    (hkeys : (calls.map PetKV.Call.key).Nodup) (hrun : Run.run step kv₀ calls = some kv) :
    (∀ c ∈ calls, (kv.stored c.key).isSome) ↔ Run.Guarded step Calm kv₀ calls := by
  have hstored : ∀ c ∈ calls, (kv.stored c.key).isSome ↔
      ¬ (kv.shmKv (getShard c.key)).dict.Absent c.key := by
    intro c hc
    obtain ⟨hgone, hthere⟩ := read_new_key hnew hkeys hrun hc
    rw [PetMultiKV.stored]
    by_cases habs : (kv.shmKv (getShard c.key)).dict.Absent c.key
    · simp [hgone habs, habs]
    · simp [hthere habs, habs]
  obtain ⟨s, hs, rfl⟩ := create_eq hnew
  obtain ⟨-, hruns⟩ := run_routed hrun
  rw [guarded_routed_iff hrun]
  constructor
  · intro hall i
    refine (PetKV.all_stored_iff hs (nodup_routed hkeys i) (hruns i)).mp fun c hc => ?_
    obtain ⟨hmem, hi⟩ := List.mem_filter.mp hc
    obtain rfl := of_decide_eq_true hi
    exact (hstored c hmem).mp (hall c hmem)
  · intro hcalm c hc
    refine (hstored c hc).mpr ((PetKV.all_stored_iff hs (nodup_routed hkeys _)
      (hruns (getShard c.key))).mpr (hcalm _) c ?_)
    exact List.mem_filter.mpr ⟨hc, decide_eq_true rfl⟩

/-- A store that has been given floats holds floats. -/
theorem holdsFloats_of_run (hnew : create getShard valueSize capacity = .ok kv₀)
    (hrun : Run.run step kv₀ calls = some kv) (hlogs : ∀ c ∈ calls, 4 ∣ c.log.length) :
    kv.HoldsFloats := by
  obtain ⟨s, hs, rfl⟩ := create_eq hnew
  obtain ⟨hshard, hruns⟩ := run_routed hrun
  have hfollows := fun i => PetKV.follows_run hs (hruns i)
  have hunknown : kv.preKnownValueSize = 0 := by
    refine Run.run_invariant (P := fun kv => kv.preKnownValueSize = 0)
      (fun kv c kv' hkv hstep => ?_) rfl hrun
    obtain ⟨s, -, rfl⟩ := step_eq_some hstep
    exact hkv
  refine ⟨hunknown, fun i => (hfollows i).inv.imp fun _ hinv => hinv.1, fun key bytes hbytes => ?_⟩
  obtain ⟨leaked, hinv, -⟩ := (hfollows (getShard key)).inv
  rw [PetMultiKV.stored, PetMultiKV.read, hshard] at hbytes
  by_cases habs : (kv.shmKv (getShard key)).dict.Absent key
  · simp only [hinv.read_of_notMem habs] at hbytes
    cases hbytes
  · rw [PetHash.Absent] at habs
    push Not at habs
    obtain ⟨v, hv⟩ := habs
    obtain ⟨log, hlast, hlog⟩ := (hfollows (getShard key)).stored key v hv
    simp only [hinv.read_of_mem hv hlog] at hbytes
    obtain rfl := Option.some.inj hbytes
    obtain ⟨c, hc, rfl⟩ := Option.map_eq_some_iff.mp hlast
    have hmem := List.mem_reverse.mp (List.mem_of_find?_eq_some hc)
    exact hlogs c (List.mem_filter.mp hmem).1

theorem length_routed (i : Fin 16) : (routed getShard i calls).length =
    (calls.map PetKV.Call.key).countP fun k => getShard k = i := by
  rw [routed, ← List.countP_eq_length_filter, List.countP_map]
  rfl

/-- A shard has a slab for each of `n` keys, and its dictionary has room. -/
def Room (kv : PetMultiKV) (valueSize capacity : ℕ) (i : Fin 16) (n : ℕ) : Prop :=
  n ≤ shardBlocks valueSize capacity ∧ ((kv.shmKv i).dict.chunkNum ≠ 1 ∨ n ≤ 14)

theorem Room.mono {i : Fin 16} {n m : ℕ} (h : Room kv valueSize capacity i n) (hle : m ≤ n) :
    Room kv valueSize capacity i m :=
  ⟨hle.trans h.1, h.2.imp_right hle.trans⟩

/-- **The runs of new keys that the engine performs.** -/
theorem exists_run_iff (hv : valueSize ≤ 1024) (hnew : create getShard valueSize capacity = .ok kv₀)
    (hcalls : PetKV.NewKeys valueSize calls) :
    (∃ kv, Run.run step kv₀ calls = some kv) ↔ ∀ i, Room kv₀ valueSize capacity i
      ((calls.map PetKV.Call.key).countP fun k => getShard k = i) := by
  obtain ⟨s, hs, rfl⟩ := create_eq hnew
  have hshard : ∀ i, (∃ s', Run.run PetKV.step s (routed getShard i calls) = some s') ↔
      Room ⟨getShard, fun _ => s, 0⟩ valueSize capacity i
        ((calls.map PetKV.Call.key).countP fun k => getShard k = i) := by
    intro i
    have hnews : PetKV.NewKeys valueSize (routed getShard i calls) :=
      ⟨nodup_routed hcalls.keys i, fun c hc => hcalls.logs c (List.mem_filter.mp hc).1⟩
    rw [(PetKV.run_newKeys (PetKV.filling_create hs _) (shard_classOf hv hs) hnews).2,
      shard_blocks hs, length_routed]
    rfl
  refine ⟨fun ⟨kv, hrun⟩ i => (hshard i).mp ⟨_, (run_routed hrun).2 i⟩, fun hroom => ?_⟩
  exact exists_run fun i => (hshard i).mpr (hroom i)

end Create

end KVEnginePetKV

/-! ### The helper -/

/-- `LoadDBHelper`, and what it reads. -/
structure LoadDBHelper where
  /-- `ShardManager::KeyPartition`. -/
  keyPartition : UInt64 → ℕ
  serverId : ℕ
  warmThreadCount : ℕ
  warmCapacity : ℕ
  /-- `FLAGS_value_size`. -/
  valueSize : ℕ
  /-- The bytes of `(float)key`. -/
  toFloat : UInt64 → List UInt8
  /-- `std::fabs(emb[k] - key) < 1e-6`, for the bytes of `emb[k]`. -/
  close : List UInt8 → UInt64 → Bool

namespace LoadDBHelper

variable (h : LoadDBHelper)

/-- The keys of thread `i` of `threads`. -/
def keysOf (threads i : ℕ) : List UInt64 :=
  (Split.part h.warmCapacity threads i).map fun j => UInt64.ofNat (j + 1)

/-- The keys up to the warm capacity. -/
def warmKeys : List UInt64 := (List.range h.warmCapacity).map fun j => UInt64.ofNat (j + 1)

/-- The keys of this server. -/
def mine (keys : List UInt64) : List UInt64 := keys.filter fun k => h.keyPartition k = h.serverId

/-- `warmup_kv_count_in_this_ps_`. -/
def warmupKvCount : ℕ := (h.mine h.warmKeys).length

/-- The value of a key: its float in all words, on a pool of letters `e`. -/
def value (key : UInt64) : List UInt8 :=
  (List.replicate (h.valueSize / 4) (h.toFloat key)).flatten ++ List.replicate (h.valueSize % 4) 101

/-- What the threads of `PreLoadDB` have before them. -/
def threads (shuffleLoad : Bool) : Except Abort (List (List UInt64)) :=
  if shuffleLoad then
    if h.warmThreadCount = 1 then .ok [h.mine h.warmKeys] else .error .check
  else .ok ((List.range h.warmThreadCount).map (h.keysOf h.warmThreadCount))

/-- A turn of a thread, with what its `Put` reads of the epoch manager. -/
structure Turn where
  thread : ℕ
  epochs : Epochs
  epochs' : Epochs

/-- The `Put` of a turn for `key`. -/
def Turn.call (t : Turn) (key : UInt64) : PetKV.Call := ⟨key, h.value key, t.epochs, t.epochs'⟩

/-- A turn of the loop: a key of another server is skipped. -/
def loadStep (s : PetMultiKV × List (List UInt64)) (t : Turn) :
    Option (PetMultiKV × List (List UInt64)) :=
  match s.2[t.thread]? with
  | some (key :: keys) =>
    if h.keyPartition key ≠ h.serverId then some (s.1, s.2.set t.thread keys)
    else (KVEnginePetKV.step s.1 (t.call h key)).map fun kv => (kv, s.2.set t.thread keys)
  | _ => none

/-- The `Put`s of an interleaving. -/
def loadCalls : List (List UInt64) → List Turn → List PetKV.Call
  | _, [] => []
  | left, t :: turns =>
    match left[t.thread]? with
    | some (key :: keys) =>
      (if h.keyPartition key ≠ h.serverId then [] else [t.call h key]) ++
        loadCalls (left.set t.thread keys) turns
    | _ => []

/-- A key in `CheckDBLoad`: whether it is right, and whether it is missing. -/
def checkKey (kv : PetMultiKV) (key : UInt64) : Except Abort (ℕ × ℕ) :=
  if h.keyPartition key ≠ h.serverId then .ok (0, 0)
  else
    match KVEnginePetKV.get kv key [] with
    | .error e => .error e
    | .ok value =>
      if value.isEmpty then .ok (0, 1)
      else if (List.range (h.valueSize / 4)).all fun k => h.close ((value.drop (k * 4)).take 4) key
        then .ok (1, 0)
      else .ok (0, 0)

/-- The sums of two counters. -/
def totals (counts : List (ℕ × ℕ)) : ℕ × ℕ :=
  ((counts.map Prod.fst).sum, (counts.map Prod.snd).sum)

/-- The keys of a checking thread. Its `int j` is negative when the start of the part is no `int`,
and then not below the end. -/
def checkKeys (i : ℕ) : List UInt64 :=
  if 1 + i * Split.perPart h.warmCapacity 36 < 2 ^ 31 then h.keysOf 36 i else []

/-- `CheckDBLoad`: `inserted_kv_nr` and `missing_kv_nr`. -/
def checkDBLoad (kv : PetMultiKV) : Except Abort (ℕ × ℕ) :=
  ((List.range 36).mapM fun i => ((h.checkKeys i).mapM (h.checkKey kv)).map totals).map totals

/-! ### What an interleaving does -/

variable {h}

theorem threads_flatten {shuffleLoad : Bool} {left : List (List UInt64)}
    (ht : 0 < h.warmThreadCount) (hleft : h.threads shuffleLoad = .ok left) :
    h.mine left.flatten = h.mine h.warmKeys := by
  rw [threads] at hleft
  split_ifs at hleft
  · obtain rfl := Except.ok.inj hleft
    rw [List.flatten_singleton, mine, mine, List.filter_filter]
    simp only [Bool.and_self]
  · obtain rfl := Except.ok.inj hleft
    rw [← List.flatMap_def, warmKeys, ← Split.flatMap_part h.warmCapacity ht, List.map_flatMap]
    rfl

/-- **What an interleaving of the loading threads does.** It performs its `Put`s, and the keys of
the `Put`s together with those that are left are the keys that there were. -/
theorem run_load {turns : List Turn} {kv kv' : PetMultiKV} {left left' : List (List UInt64)}
    (hrun : Run.run h.loadStep (kv, left) turns = some (kv', left')) :
    Run.run KVEnginePetKV.step kv (h.loadCalls left turns) = some kv' ∧
      ((h.loadCalls left turns).map PetKV.Call.key ++ h.mine left'.flatten).Perm
        (h.mine left.flatten) := by
  induction turns generalizing kv left with
  | nil =>
    cases hrun
    exact ⟨rfl, List.Perm.refl _⟩
  | cons t turns ih =>
    obtain ⟨⟨kv₁, left₁⟩, hstep, hrest⟩ := Option.bind_eq_some_iff.mp hrun
    obtain ⟨hcalls, hperm⟩ := ih hrest
    rw [loadStep] at hstep
    rw [loadCalls]
    split at hstep
    case h_2 => cases hstep
    case h_1 key keys hkey =>
      simp only at hkey hstep
      have hflat := (Threads.flatten_set_perm hkey).filter fun k => h.keyPartition k = h.serverId
      simp only [hkey]
      split_ifs at hstep ⊢ with hother
      · cases hstep
        rw [List.filter_cons_of_neg (by rw [decide_eq_true_iff]; exact hother)] at hflat
        exact ⟨hcalls, hperm.trans hflat.symm⟩
      · obtain ⟨kv₂, hput, heq⟩ := Option.map_eq_some_iff.mp hstep
        cases heq
        rw [List.filter_cons_of_pos (by rw [decide_eq_true_iff]; exact not_not.mp hother)] at hflat
        refine ⟨?_, (hperm.cons key).trans hflat.symm⟩
        rw [List.singleton_append, Run.run_cons, hput]
        exact hcalls

/-- The `Put`s of an interleaving put the values of the keys. -/
theorem log_of_mem_loadCalls {turns : List Turn} {left : List (List UInt64)} {c : PetKV.Call}
    (hc : c ∈ h.loadCalls left turns) : c.log = h.value c.key := by
  induction turns generalizing left with
  | nil => cases hc
  | cons t turns ih =>
    rw [loadCalls] at hc
    split at hc
    case h_2 => cases hc
    case h_1 key keys _ =>
      rcases List.mem_append.mp hc with hone | hrest
      · split_ifs at hone
        · cases hone
        · rw [List.mem_singleton.mp hone]
          rfl
      · exact ih hrest

theorem nodup_warmKeys (hcap : h.warmCapacity < 2 ^ 64) : h.warmKeys.Nodup := by
  refine List.Nodup.map_on (fun i hi j hj heq => ?_) List.nodup_range
  rw [List.mem_range] at hi hj
  have hnat := congrArg UInt64.toNat heq
  rw [UInt64.toNat_ofNat', UInt64.toNat_ofNat', Nat.mod_eq_of_lt (by omega),
    Nat.mod_eq_of_lt (by omega)] at hnat
  omega

/-- **A load that has ended** has put every key of the server once. -/
theorem load_ended {shuffleLoad : Bool} {left left' : List (List UInt64)} {turns : List Turn}
    {kv₀ kv : PetMultiKV} (ht : 0 < h.warmThreadCount) (hleft : h.threads shuffleLoad = .ok left)
    (hrun : Run.run h.loadStep (kv₀, left) turns = some (kv, left')) (hend : ∀ l ∈ left', l = []) :
    Run.run KVEnginePetKV.step kv₀ (h.loadCalls left turns) = some kv ∧
      ((h.loadCalls left turns).map PetKV.Call.key).Perm (h.mine h.warmKeys) := by
  obtain ⟨hcalls, hperm⟩ := run_load hrun
  have hnil : left'.flatten = [] := List.flatten_eq_nil_iff.mpr hend
  rw [threads_flatten ht hleft, hnil, mine, List.filter_nil, List.append_nil] at hperm
  exact ⟨hcalls, hperm⟩

/-! ### The check -/

section Check

variable {key : UInt64} {kv : PetMultiKV}

theorem length_value (hfloat : ∀ k, (h.toFloat k).length = 4) (key : UInt64) :
    (h.value key).length = h.valueSize := by
  rw [value, List.length_append, List.length_flatten, List.map_replicate, List.sum_replicate_nat,
    List.length_replicate, hfloat, Nat.mul_comm, Nat.div_add_mod]

/-- All words of a value are the float of its key. -/
theorem word_value (hfloat : ∀ k, (h.toFloat k).length = 4) {k : ℕ} (hk : k < h.valueSize / 4) :
    ((h.value key).drop (k * 4)).take 4 = h.toFloat key := by
  obtain ⟨n, hn⟩ : ∃ n, h.valueSize / 4 = k + (n + 1) := ⟨h.valueSize / 4 - k - 1, by omega⟩
  have hlen : (List.replicate k (h.toFloat key)).flatten.length = k * 4 := by
    rw [List.length_flatten, List.map_replicate, List.sum_replicate_nat, hfloat]
  rw [value, hn, List.replicate_add, List.flatten_append, List.append_assoc,
    List.drop_append_of_le_length (by rw [hlen]), List.drop_of_length_le (by rw [hlen]),
    List.nil_append, List.replicate_succ, List.flatten_cons, List.append_assoc]
  exact List.take_left' (hfloat key)

/-- What the check counts for a key of the server: right or missing. -/
def verdict (h : LoadDBHelper) (kv : PetMultiKV) (key : UInt64) : ℕ × ℕ :=
  if h.keyPartition key ≠ h.serverId then (0, 0)
  else if (kv.stored key).isSome then (1, 0) else (0, 1)

/-- The check counts the keys that are there, provided that they have their values. -/
theorem checkKey_eq (hfloat : ∀ k, (h.toFloat k).length = 4)
    (hclose : ∀ k, h.close (h.toFloat k) k = true) (hsize : 0 < h.valueSize)
    (hread : h.keyPartition key = h.serverId →
      kv.read key = .ok none ∨ kv.read key = .ok (some (h.value key))) :
    h.checkKey kv key = .ok (h.verdict kv key) := by
  rw [checkKey, verdict]
  split_ifs with hother hsome
  · rfl
  · rcases hread (not_not.mp hother) with hnone | hvalue
    · rw [PetMultiKV.stored, hnone] at hsome
      cases hsome
    · have hempty : (h.value key).isEmpty = false := by
        rw [List.isEmpty_eq_false_iff, ← List.length_pos_iff, length_value hfloat]
        exact hsize
      have hwords : ((List.range (h.valueSize / 4)).all fun k =>
          h.close (((h.value key).drop (k * 4)).take 4) key) = true := by
        refine List.all_eq_true.mpr fun k hk => ?_
        rw [word_value hfloat (List.mem_range.mp hk)]
        exact hclose key
      simp only [KVEnginePetKV.get, hvalue, hempty, hwords, if_true, Bool.false_eq_true, if_false]
  · rcases hread (not_not.mp hother) with hnone | hvalue
    · simp [KVEnginePetKV.get, hnone]
    · rw [PetMultiKV.stored, hvalue] at hsome
      exact absurd rfl hsome

theorem totals_flatMap (f : UInt64 → ℕ × ℕ) (parts : List (List UInt64)) :
    totals (parts.map fun keys => totals (keys.map f)) = totals (parts.flatten.map f) := by
  induction parts with
  | nil => rfl
  | cons keys parts ih =>
    rw [totals, Prod.mk.injEq] at ih
    simp only [totals, List.map_cons, List.sum_cons, List.flatten_cons, List.map_append,
      List.sum_append, Prod.mk.injEq]
    exact ⟨congrArg _ ih.1, congrArg _ ih.2⟩

/-- The checking threads have all keys. -/
theorem checkKeys_flatten (hcap : h.warmCapacity < 2 ^ 31) :
    ((List.range 36).map h.checkKeys).flatten = h.warmKeys := by
  have hkeys : ∀ i, h.checkKeys i = h.keysOf 36 i := by
    intro i
    rw [checkKeys]
    split_ifs with hint
    · rfl
    · -- the part starts behind the end
      rw [keysOf, Split.part, Nat.sub_eq_zero_of_le, List.range'_zero, List.map_nil]
      exact (min_le_right _ _).trans (by omega)
  rw [← List.flatMap_def, warmKeys, ← Split.flatMap_part h.warmCapacity (show 0 < 36 by decide),
    List.map_flatMap]
  exact List.flatMap_congr fun i _ => hkeys i

/-- The counters of a check. -/
theorem checkDBLoad_eq (hcap : h.warmCapacity < 2 ^ 31)
    (hkeys : ∀ key ∈ h.warmKeys, h.checkKey kv key = .ok (h.verdict kv key)) :
    h.checkDBLoad kv = .ok (totals (h.warmKeys.map (h.verdict kv))) := by
  have hthread : ∀ i ∈ List.range 36, ((h.checkKeys i).mapM (h.checkKey kv)).map totals =
      .ok (totals ((h.checkKeys i).map (h.verdict kv))) := by
    intro i hi
    have hsub : ∀ key ∈ h.checkKeys i, h.checkKey kv key = .ok (h.verdict kv key) := by
      intro key hkey
      refine hkeys key ?_
      rw [← checkKeys_flatten hcap]
      exact List.mem_flatten_of_mem (List.mem_map_of_mem hi) hkey
    rw [Batch.mapM_eq_ok_map hsub]
    rfl
  rw [checkDBLoad, Batch.mapM_eq_ok_map hthread]
  show Except.ok _ = Except.ok _
  rw [← checkKeys_flatten hcap, ← totals_flatMap, List.map_map]
  rfl

/-- The counters count the keys of the server that are there, and those that are not. -/
theorem totals_verdict (keys : List UInt64) :
    totals (keys.map (h.verdict kv)) = ((h.mine keys).countP fun k => (kv.stored k).isSome,
      (h.mine keys).countP fun k => ¬ (kv.stored k).isSome) := by
  induction keys with
  | nil => rfl
  | cons key keys ih =>
    rw [totals, Prod.mk.injEq] at ih
    rw [totals, List.map_cons, List.map_cons, List.map_cons, List.sum_cons, List.sum_cons, ih.1,
      ih.2, verdict]
    by_cases hother : h.keyPartition key = h.serverId
    · have hmine : h.mine (key :: keys) = key :: h.mine keys :=
        List.filter_cons_of_pos (decide_eq_true hother)
      rw [hmine, if_neg (not_not.mpr hother), List.countP_cons, List.countP_cons]
      cases hsome : (kv.stored key).isSome with
      | true => exact Prod.ext (Nat.add_comm _ _) (Nat.zero_add _)
      | false => exact Prod.ext (Nat.zero_add _) (Nat.add_comm _ _)
    · have hmine : h.mine (key :: keys) = h.mine keys :=
        List.filter_cons_of_neg (by rw [decide_eq_true_iff]; exact hother)
      rw [hmine, if_pos hother, Nat.zero_add, Nat.zero_add]

end Check

/-- A helper whose keys go to two servers in turn, and whose floats are whole numbers. -/
def sample (warmThreadCount warmCapacity valueSize : ℕ) : LoadDBHelper where
  keyPartition k := k.toNat % 2
  serverId := 1
  warmThreadCount := warmThreadCount
  warmCapacity := warmCapacity
  valueSize := valueSize
  toFloat k := Bytes.encode32 k.toNat
  close w k := w == Bytes.encode32 k.toNat

/-! ### Loads that have ended -/

section Load

variable {getShard : UInt64 → Fin 16} {capacity : ℕ} {kv₀ kv : PetMultiKV} {shuffleLoad : Bool}
  {left left' : List (List UInt64)} {turns : List Turn}

/-- **The check after a load.** For every interleaving of the loading threads that ends, on a new
store, every key of the server is found right or missing, and all are found right exactly if no
`Put` of the load has evicted a key. -/
theorem preLoadDB_checkDBLoad (hfloat : ∀ k, (h.toFloat k).length = 4)
    (hclose : ∀ k, h.close (h.toFloat k) k = true) (hsize : 0 < h.valueSize)
    (hcap : h.warmCapacity < 2 ^ 31) (ht : 0 < h.warmThreadCount)
    (hnew : KVEnginePetKV.create getShard h.valueSize capacity = .ok kv₀)
    (hleft : h.threads shuffleLoad = .ok left)
    (hrun : Run.run h.loadStep (kv₀, left) turns = some (kv, left')) (hend : ∀ l ∈ left', l = []) :
    ∃ inserted missing, h.checkDBLoad kv = .ok (inserted, missing) ∧
      inserted + missing = h.warmupKvCount ∧
      (inserted = h.warmupKvCount ↔
        Run.Guarded KVEnginePetKV.step KVEnginePetKV.Calm kv₀ (h.loadCalls left turns)) := by
  obtain ⟨hcalls, hperm⟩ := load_ended ht hleft hrun hend
  have hkeys : ((h.loadCalls left turns).map PetKV.Call.key).Nodup :=
    hperm.nodup_iff.mpr ((nodup_warmKeys (hcap.trans (by decide))).filter _)
  have hmem : ∀ key ∈ h.mine h.warmKeys, ∃ c ∈ h.loadCalls left turns, c.key = key :=
    fun key hkey => List.mem_map.mp (hperm.mem_iff.mpr hkey)
  have hcheck : ∀ key ∈ h.warmKeys, h.checkKey kv key = .ok (h.verdict kv key) := by
    intro key hkey
    refine checkKey_eq hfloat hclose hsize fun hpart => ?_
    obtain ⟨c, hc, rfl⟩ := hmem key (List.mem_filter.mpr ⟨hkey, decide_eq_true hpart⟩)
    obtain ⟨hgone, hthere⟩ := KVEnginePetKV.read_new_key hnew hkeys hcalls hc
    rw [log_of_mem_loadCalls hc] at hthere
    exact (Classical.em _).imp hgone hthere
  refine ⟨_, _, (checkDBLoad_eq hcap hcheck).trans (congrArg Except.ok (totals_verdict _)),
    (List.length_eq_countP_add_countP _).symm, ?_⟩
  rw [← KVEnginePetKV.all_stored_iff hnew hkeys hcalls, warmupKvCount, List.countP_eq_length]
  constructor
  · intro hall c hc
    exact hall c.key (hperm.mem_iff.mp (List.mem_map_of_mem hc))
  · intro hall key hkey
    obtain ⟨c, hc, rfl⟩ := hmem key hkey
    exact hall c hc

/-- Two threads load the keys `1`, `2` and `3`, of which two are of the server. -/
theorem preLoadDB_checkDBLoad_three : ∃ kv₀ kv left left',
    KVEnginePetKV.create (fun _ => 0) 8 (16 * 1310720) = .ok kv₀ ∧
      (sample 2 3 8).threads false = .ok left ∧
      Run.run (sample 2 3 8).loadStep (kv₀, left)
        [⟨1, PetKV.quietEpochs, PetKV.quietEpochs⟩, ⟨0, PetKV.quietEpochs, PetKV.quietEpochs⟩,
          ⟨0, PetKV.quietEpochs, PetKV.quietEpochs⟩] = some (kv, left') ∧
      (sample 2 3 8).checkDBLoad kv = .ok (2, 0) := by
  have heval : ((KVEnginePetKV.create (fun _ => 0) 8 (16 * 1310720)).toOption.any fun kv₀ =>
      (Run.run (sample 2 3 8).loadStep (kv₀, [[1, 2], [3]])
        [⟨1, PetKV.quietEpochs, PetKV.quietEpochs⟩, ⟨0, PetKV.quietEpochs, PetKV.quietEpochs⟩,
          ⟨0, PetKV.quietEpochs, PetKV.quietEpochs⟩]).any fun s =>
        decide (s.2 = [[], []]) &&
        decide (Run.Guarded KVEnginePetKV.step KVEnginePetKV.Calm kv₀
          ((sample 2 3 8).loadCalls [[1, 2], [3]]
            [⟨1, PetKV.quietEpochs, PetKV.quietEpochs⟩, ⟨0, PetKV.quietEpochs, PetKV.quietEpochs⟩,
              ⟨0, PetKV.quietEpochs, PetKV.quietEpochs⟩]))) = true := by
    decide +kernel
  simp only [Option.any_eq_true, Bool.and_eq_true, decide_eq_true_eq] at heval
  obtain ⟨kv₀, hkv₀, ⟨kv, left'⟩, hrun, hend, hcalm⟩ := heval
  have hnew := eq_ok_of_toOption hkv₀
  simp only at hend
  subst hend
  have hleft : (sample 2 3 8).threads false = .ok [[1, 2], [3]] := rfl
  obtain ⟨inserted, missing, hcheck, hsum, hiff⟩ := preLoadDB_checkDBLoad
    (fun k => Bytes.length_encode32) (fun k => beq_self_eq_true _) (by decide) (by decide)
    (by decide) hnew hleft hrun (by decide)
  have hcount : (sample 2 3 8).warmupKvCount = 2 := by decide +kernel
  obtain rfl := hiff.mpr hcalm
  rw [hcount] at hcheck hsum
  obtain rfl : missing = 0 := by omega
  exact ⟨kv₀, kv, _, _, hnew, hleft, hrun, hcheck⟩

/-- The keys of the server that go to shard `i` of its store. -/
def shardCount (h : LoadDBHelper) (getShard : UInt64 → Fin 16) (i : Fin 16) : ℕ :=
  (h.mine h.warmKeys).countP fun k => getShard k = i

/-- The store has room for all keys of the server. -/
def Fits (h : LoadDBHelper) (getShard : UInt64 → Fin 16) (kv₀ : PetMultiKV) (capacity : ℕ) : Prop :=
  ∀ i, KVEnginePetKV.Room kv₀ h.valueSize capacity i (h.shardCount getShard i)

theorem newKeys_loadCalls (hfloat : ∀ k, (h.toFloat k).length = 4) {calls : List PetKV.Call}
    (hlogs : ∀ c ∈ calls, c.log = h.value c.key) {rest : List UInt64}
    (hcap : h.warmCapacity < 2 ^ 64)
    (hperm : (calls.map PetKV.Call.key ++ rest).Perm (h.mine h.warmKeys)) :
    PetKV.NewKeys h.valueSize calls := by
  refine ⟨?_, fun c hc => by rw [hlogs c hc, length_value hfloat]⟩
  exact (hperm.nodup_iff.mpr ((nodup_warmKeys hcap).filter _)).of_append_left

/-- A store without room does not come to the end of a load. -/
theorem fits_of_load_ended (hfloat : ∀ k, (h.toFloat k).length = 4) (hv : h.valueSize ≤ 1024)
    (hcap : h.warmCapacity < 2 ^ 64) (ht : 0 < h.warmThreadCount)
    (hnew : KVEnginePetKV.create getShard h.valueSize capacity = .ok kv₀)
    (hleft : h.threads shuffleLoad = .ok left)
    (hrun : Run.run h.loadStep (kv₀, left) turns = some (kv, left')) (hend : ∀ l ∈ left', l = []) :
    h.Fits getShard kv₀ capacity := by
  obtain ⟨hcalls, hperm⟩ := load_ended ht hleft hrun hend
  have hall : ((h.loadCalls left turns).map PetKV.Call.key ++ []).Perm (h.mine h.warmKeys) := by
    rwa [List.append_nil]
  have hnews := newKeys_loadCalls hfloat (fun c => log_of_mem_loadCalls) hcap hall
  intro i
  have hroom := (KVEnginePetKV.exists_run_iff hv hnew hnews).mp ⟨kv, hcalls⟩ i
  rwa [hperm.countP_eq] at hroom

/-- A store with room performs the next turn of every interleaving. -/
theorem Fits.exists_step (hfits : h.Fits getShard kv₀ capacity)
    (hfloat : ∀ k, (h.toFloat k).length = 4) (hv : h.valueSize ≤ 1024)
    (hcap : h.warmCapacity < 2 ^ 64) (ht : 0 < h.warmThreadCount)
    (hnew : KVEnginePetKV.create getShard h.valueSize capacity = .ok kv₀)
    (hleft : h.threads shuffleLoad = .ok left)
    (hrun : Run.run h.loadStep (kv₀, left) turns = some (kv, left')) (t : Turn) {key : UInt64}
    {keys : List UInt64} (hkey : left'[t.thread]? = some (key :: keys)) :
    ∃ s, h.loadStep (kv, left') t = some s := by
  obtain ⟨hcalls, hperm⟩ := run_load hrun
  rw [threads_flatten ht hleft] at hperm
  have hflat := (Threads.flatten_set_perm hkey).filter fun k => h.keyPartition k = h.serverId
  rw [loadStep]
  simp only [hkey]
  split_ifs with hother
  · exact ⟨_, rfl⟩
  · rw [List.filter_cons_of_pos (by rw [decide_eq_true_iff]; exact not_not.mp hother)] at hflat
    -- the `Put`s so far and this one are distinct keys of the server
    have hmore : (((h.loadCalls left turns) ++ [t.call h key]).map PetKV.Call.key ++
        h.mine (left'.set t.thread keys).flatten).Perm (h.mine h.warmKeys) := by
      rw [List.map_append, List.append_assoc]
      exact (hflat.symm.append_left _).trans hperm
    have hlogs : ∀ c ∈ h.loadCalls left turns ++ [t.call h key], c.log = h.value c.key := by
      intro c hc
      rcases List.mem_append.mp hc with hin | hone
      · exact log_of_mem_loadCalls hin
      · rw [List.mem_singleton.mp hone]
        rfl
    obtain ⟨kv', hkv'⟩ := (KVEnginePetKV.exists_run_iff hv hnew
      (newKeys_loadCalls hfloat hlogs hcap hmore)).mpr fun i => (hfits i).mono (by
        rw [shardCount, ← hmore.countP_eq, List.countP_append]
        exact Nat.le_add_right _ _)
    obtain ⟨kv₁, hkv₁, hlast⟩ := Run.exists_of_run_append hkv'
    obtain rfl : kv = kv₁ := Option.some.inj (hcalls.symm.trans hkv₁)
    obtain ⟨kv₂, hput, -⟩ := Option.bind_eq_some_iff.mp hlast
    exact ⟨(kv₂, left'.set t.thread keys), by rw [hput]; rfl⟩

/-- **Which loads end.** When the store has room for the keys of the server, no interleaving of the
loading threads is ever stopped by a `Put`. When it has not, no interleaving comes to its end. -/
theorem preLoadDB_returns_iff (hfloat : ∀ k, (h.toFloat k).length = 4) (hv : h.valueSize ≤ 1024)
    (hcap : h.warmCapacity < 2 ^ 64) (ht : 0 < h.warmThreadCount)
    (hnew : KVEnginePetKV.create getShard h.valueSize capacity = .ok kv₀)
    (hleft : h.threads shuffleLoad = .ok left)
    (hrun : Run.run h.loadStep (kv₀, left) turns = some (kv, left')) :
    (h.Fits getShard kv₀ capacity → ∀ (t : Turn) (key : UInt64) (keys : List UInt64),
      left'[t.thread]? = some (key :: keys) → ∃ s, h.loadStep (kv, left') t = some s) ∧
    (¬ h.Fits getShard kv₀ capacity → ∃ l ∈ left', l ≠ []) := by
  refine ⟨fun hfits t key keys hkey =>
    hfits.exists_step hfloat hv hcap ht hnew hleft hrun t hkey, fun hfits => ?_⟩
  by_contra hend
  push Not at hend
  exact hfits (fits_of_load_ended hfloat hv hcap ht hnew hleft hrun hend)

/-- A turn each of the first two threads: key `1` is put, key `277` too. -/
def firstTurns : List Turn :=
  [⟨0, PetKV.quietEpochs, PetKV.quietEpochs⟩, ⟨1, PetKV.quietEpochs, PetKV.quietEpochs⟩]

/-- The shard of a store for 163840 values of 1024 bytes has room for 9920 keys. -/
theorem preLoadDB_returns_shard : ∃ kv₀ left kv left',
    KVEnginePetKV.create (fun _ => 0) 1024 163840 = .ok kv₀ ∧
      (sample 36 9920 1024).threads false = .ok left ∧
      Run.run (sample 36 9920 1024).loadStep (kv₀, left) firstTurns = some (kv, left') ∧
      (kv.shmKv 0).dict.size = 2 ∧
      ∀ (t : Turn) (key : UInt64) (keys : List UInt64), left'[t.thread]? = some (key :: keys) →
        ∃ s, (sample 36 9920 1024).loadStep (kv, left') t = some s := by
  obtain ⟨s₀, hs₀, hchunks, hblocks⟩ := KVEnginePetKV.exists_shard
  have hnew : KVEnginePetKV.create (fun _ => 0) 1024 163840 = .ok ⟨fun _ => 0, fun _ => s₀, 0⟩ := by
    rw [KVEnginePetKV.create, hs₀]
  have hfits : (sample 36 9920 1024).Fits (fun _ => 0) ⟨fun _ => 0, fun _ => s₀, 0⟩ 163840 := by
    refine fun i => ⟨?_, Or.inl hchunks⟩
    calc (sample 36 9920 1024).shardCount (fun _ => 0) i
        ≤ ((sample 36 9920 1024).mine (sample 36 9920 1024).warmKeys).length :=
          List.countP_le_length
      _ ≤ (sample 36 9920 1024).warmKeys.length := List.length_filter_le _ _
      _ = 9920 := by rw [warmKeys, List.length_map, List.length_range]; rfl
      _ = KVEnginePetKV.shardBlocks (sample 36 9920 1024).valueSize 163840 := hblocks.symm
  have hleft : (sample 36 9920 1024).threads false =
    .ok ((List.range 36).map ((sample 36 9920 1024).keysOf 36)) := rfl
  have heval : ((KVEnginePetKV.create (fun _ => 0) 1024 163840).toOption.any fun kv₀ =>
      (Run.run (sample 36 9920 1024).loadStep
        (kv₀, (List.range 36).map ((sample 36 9920 1024).keysOf 36)) firstTurns).any fun s =>
          decide ((s.1.shmKv 0).dict.size = 2)) = true := by
    decide +kernel
  simp only [hnew, Except.toOption, Option.any_some, Option.any_eq_true,
    decide_eq_true_eq] at heval
  obtain ⟨⟨kv, left'⟩, hrun, hsize⟩ := heval
  exact ⟨_, _, kv, left', hnew, hleft, hrun, hsize,
    (preLoadDB_returns_iff (fun k => Bytes.length_encode32) le_rfl
      (show 9920 < 2 ^ 64 by decide) (show 0 < 36 by decide) hnew hleft hrun).1 hfits⟩

/-! ### The whole key space -/

/-- The servers of a cluster, taken together, have too few slabs for the keys from which their
capacity was computed. -/
theorem exists_not_fits (hv : h.valueSize ≤ 1024) {numServers : ℕ} (hservers : 0 < numServers)
    (hpart : ∀ k ∈ h.warmKeys, h.keyPartition k < numServers)
    (hnew : KVEnginePetKV.create getShard h.valueSize (h.warmCapacity / numServers) = .ok kv₀) :
    ∃ id < numServers,
      ¬ ({ h with serverId := id } : LoadDBHelper).Fits getShard kv₀
        (h.warmCapacity / numServers) := by
  by_contra hno
  push Not at hno
  obtain ⟨s, hs, rfl⟩ := KVEnginePetKV.create_eq hnew
  obtain ⟨-, hlt⟩ := KVEnginePetKV.shardBlocks_lt hv (PetKV.create_sized hs).room
  have hcount : ∀ id i, ({ h with serverId := id } : LoadDBHelper).shardCount getShard i =
      h.warmKeys.countP fun k => (h.keyPartition k, getShard k) = (id, i) := by
    intro id i
    rw [shardCount, mine, List.countP_filter]
    refine List.countP_congr fun k _ => ?_
    simp [and_comm]
  have hall : ∑ x ∈ Finset.range numServers ×ˢ (Finset.univ : Finset (Fin 16)),
      (h.warmKeys.countP fun k => (h.keyPartition k, getShard k) = x) = h.warmCapacity := by
    rw [Tally.sum_countP fun k hk => Finset.mem_product.mpr
      ⟨Finset.mem_range.mpr (hpart k hk), Finset.mem_univ _⟩, warmKeys, List.length_map,
      List.length_range]
  set blocks := KVEnginePetKV.shardBlocks h.valueSize (h.warmCapacity / numServers)
  have hle : h.warmCapacity ≤ numServers * 16 * blocks :=
    calc h.warmCapacity = ∑ x ∈ Finset.range numServers ×ˢ (Finset.univ : Finset (Fin 16)),
          (h.warmKeys.countP fun k => (h.keyPartition k, getShard k) = x) := hall.symm
      _ ≤ (Finset.range numServers ×ˢ (Finset.univ : Finset (Fin 16))).card • blocks := by
          refine Finset.sum_le_card_nsmul _ _ blocks fun x hx => ?_
          have hid := Finset.mem_range.mp (Finset.mem_product.mp hx).1
          exact (hcount x.1 x.2).symm.le.trans (hno x.1 hid x.2).1
      _ = numServers * 16 * blocks := by
          rw [Finset.card_product, Finset.card_range, Finset.card_univ, Fintype.card_fin,
            Nat.nsmul_eq_mul]
  have hless : numServers * 16 * (blocks + 1) ≤ h.warmCapacity :=
    calc numServers * 16 * (blocks + 1)
        ≤ numServers * 16 * (h.warmCapacity / numServers / 16) := Nat.mul_le_mul_left _ hlt
      _ = numServers * (16 * (h.warmCapacity / numServers / 16)) := Nat.mul_assoc _ _ _
      _ ≤ numServers * (h.warmCapacity / numServers) :=
          Nat.mul_le_mul_left _ (Nat.mul_div_le _ _)
      _ ≤ h.warmCapacity := Nat.mul_div_le _ _
  have hmul := hless.trans hle
  rw [Nat.mul_succ] at hmul
  omega

/-- **No cluster loads its whole key space.** `config.capacity` of a server is the key space divided
by the number of servers. When the warm capacity is the whole key space, then for every hash
function there is a server on which no interleaving of the loading threads comes to its end. -/
theorem preLoadDB_whole_space (hfloat : ∀ k, (h.toFloat k).length = 4) (hv : h.valueSize ≤ 1024)
    (hcap : h.warmCapacity < 2 ^ 64) (ht : 0 < h.warmThreadCount) {numServers : ℕ}
    (hservers : 0 < numServers) (hpart : ∀ k, h.keyPartition k < numServers)
    (hnew : KVEnginePetKV.create getShard h.valueSize (h.warmCapacity / numServers) = .ok kv₀) :
    ∃ id < numServers, ∀ shuffleLoad left,
      ({ h with serverId := id } : LoadDBHelper).threads shuffleLoad = .ok left →
      ∀ turns kv left', Run.run ({ h with serverId := id } : LoadDBHelper).loadStep (kv₀, left)
        turns = some (kv, left') → ∃ l ∈ left', l ≠ [] := by
  obtain ⟨id, hid, hnot⟩ := exists_not_fits hv hservers (fun k _ => hpart k) hnew
  refine ⟨id, hid, fun shuffleLoad left hleft turns kv left' hrun => ?_⟩
  by_contra hend
  push Not at hend
  exact hnot (fits_of_load_ended (h := { h with serverId := id }) hfloat hv hcap ht hnew hleft
    hrun hend)

/-- Two servers, and a key space of 327680 values of 1024 bytes. -/
theorem preLoadDB_whole_space_two : ∃ kv₀,
    KVEnginePetKV.create (fun _ => 0) 1024 163840 = .ok kv₀ ∧
      ∃ id < 2, ∀ shuffleLoad left,
        ({ sample 36 327680 1024 with serverId := id } : LoadDBHelper).threads shuffleLoad =
          .ok left →
        ∀ turns kv left',
          Run.run ({ sample 36 327680 1024 with serverId := id } : LoadDBHelper).loadStep
            (kv₀, left) turns = some (kv, left') → ∃ l ∈ left', l ≠ [] := by
  obtain ⟨s₀, hs₀, -, -⟩ := KVEnginePetKV.exists_shard
  have hnew : KVEnginePetKV.create (fun _ => 0) 1024 163840 = .ok ⟨fun _ => 0, fun _ => s₀, 0⟩ := by
    rw [KVEnginePetKV.create, hs₀]
  exact ⟨_, hnew, preLoadDB_whole_space (h := sample 36 327680 1024)
    (fun k => Bytes.length_encode32) le_rfl (show 327680 < 2 ^ 64 by decide)
    (show 0 < 36 by decide) (show 0 < 2 by decide) (fun k => Nat.mod_lt _ (by decide)) hnew⟩

end Load

end LoadDBHelper

end PetPS

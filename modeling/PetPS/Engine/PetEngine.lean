import PetPS.PetKV.Process
import PetPS.Ps.Server

/-!
# `KVEnginePetKV`

`engine_pethash.h`: the engine over sixteen `PetKV` shards. Each shard gets a sixteenth of the value
bytes as its pool and a sixteenth of the capacity as its dictionary; the latter passes through an
`int` parameter on its way.

`PetMultiKV` is the store of one engine in the default configuration. Among the stores of a process
it is `PetMultiKV.toMultiKV`, whose `Get` also depends on the configuration.

## Main results

* `petEngine_reads_last_put` — after any run of `Put`s in which no shard evicts a key, `Get`
  finds the value last put
* `process_get` — the engine as the store of a process: it is constructed and read alike
-/

namespace PetPS

/-- `PetMultiKV::Update`. -/
def PetMultiKV.update (kv : PetMultiKV) (epochs epochs' : Epochs) (key : UInt64)
    (log : List UInt8) :
    Except Abort PetMultiKV :=
  match (kv.shmKv (kv.getShard key)).update epochs epochs' key log with
  | .error e => .error e
  | .ok s => .ok { kv with shmKv := Function.update kv.shmKv (kv.getShard key) s }

open PetKVData (Config)

/-- The same store among those of a process. -/
def PetMultiKV.toMultiKV (kv : PetMultiKV) : MultiKV :=
  ⟨fun key => kv.getShard key, List.ofFn kv.shmKv, kv.preKnownValueSize⟩

/-- `Get` of it, in the default configuration. -/
theorem PetMultiKV.toMultiKV_get (kv : PetMultiKV) (hzero : kv.preKnownValueSize = 0) {key : UInt64}
    (hsound : (kv.shmKv (kv.getShard key)).Sound Config.default)
    (outside : ℤ → Except Abort ℕ) :
    kv.toMultiKV.get Config.default outside key =
      ((kv.shmKv (kv.getShard key)).get key).map
        (Option.map fun r => ⟨r.expireTimet, r.data, r.size⟩) := by
  have hshard : (List.ofFn kv.shmKv)[(kv.getShard key : ℕ)]? =
      some (kv.shmKv (kv.getShard key)) := by
    rw [List.getElem?_ofFn, dif_pos (kv.getShard key).isLt]
  simp only [PetMultiKV.toMultiKV, MultiKV.get, hshard, hzero]
  exact PetKV.getIn_default hsound outside key

namespace KVEnginePetKV

/-- An `int64` that is passed as an `int` and then converted to `uint64_t`. -/
def throughInt (x : ℕ) : ℕ := toUInt64 (toInt32 x)

/-- A shard of the constructor, in a new directory. -/
def shard (valueSize capacity : ℕ) : Except Abort PetKV :=
  PetKV.create (valueSize * capacity / 16) (throughInt (capacity / 16))

/-- The constructor. -/
def create (getShard : UInt64 → Fin 16) (valueSize capacity : ℕ) : Except Abort PetMultiKV :=
  match shard valueSize capacity with
  | .error e => .error e
  | .ok s => .ok ⟨getShard, fun _ => s, 0⟩

/-- `Get(key, value)`: what it leaves in `value`. Nothing is assigned for a missing key. -/
def get (kv : PetMultiKV) (key : UInt64) (value : List UInt8) : Except Abort (List UInt8) :=
  match kv.read key with
  | .error e => .error e
  | .ok none => .ok value
  | .ok (some bytes) => .ok bytes

/-- `Put`: `CHECK(shm_kv->Update(..))`, which returns `true` or does not return. -/
def put (kv : PetMultiKV) (c : PetKV.Call) : Except Abort PetMultiKV :=
  kv.update c.epochs c.epochs' c.key c.log

/-- The engine after a `Put` that returns. -/
def step (kv : PetMultiKV) (c : PetKV.Call) : Option PetMultiKV := (put kv c).toOption

/-- The `Put` evicts no key. -/
def Calm (kv : PetMultiKV) (c : PetKV.Call) : Prop := (kv.shmKv (kv.getShard c.key)).Calm c

instance (kv : PetMultiKV) (c : PetKV.Call) : Decidable (Calm kv c) :=
  inferInstanceAs (Decidable (PetKV.Calm _ _))

/-! ### Runs -/

/-- The calls that go to shard `i`. -/
def routed (getShard : UInt64 → Fin 16) (i : Fin 16) (calls : List PetKV.Call) : List PetKV.Call :=
  calls.filter fun c => getShard c.key = i

theorem lastLog_routed (getShard : UInt64 → Fin 16) (calls : List PetKV.Call) (key : UInt64) :
    PetKV.lastLog (routed getShard (getShard key) calls) key = PetKV.lastLog calls key := by
  rw [PetKV.lastLog, PetKV.lastLog, Run.lastOn, Run.lastOn, routed, ← List.filter_reverse,
    List.find?_filter]
  congr 2
  funext c
  by_cases hkey : c.key = key
  · simp [hkey]
  · simp [hkey]

/-- What a `Put` that returns does to the shards. -/
theorem step_eq_some {kv kv' : PetMultiKV} {c : PetKV.Call} (h : step kv c = some kv') :
    ∃ s, (kv.shmKv (kv.getShard c.key)).step c = some s ∧
      kv' = { kv with shmKv := Function.update kv.shmKv (kv.getShard c.key) s } := by
  rw [step, put, PetMultiKV.update] at h
  cases hup : (kv.shmKv (kv.getShard c.key)).update c.epochs c.epochs' c.key c.log with
  | error e => rw [hup] at h; cases h
  | ok s =>
    rw [hup] at h
    cases h
    exact ⟨s, PetKV.step_eq_some.mpr hup, rfl⟩

/-- Every shard has performed the calls that go to it, and has evicted nothing. -/
structure Follows (kv₀ : PetMultiKV) (calls : List PetKV.Call) (kv : PetMultiKV) : Prop where
  getShard : kv.getShard = kv₀.getShard
  shards : ∀ i, PetKV.Follows (kv₀.shmKv i) (routed kv₀.getShard i calls) (kv.shmKv i)
  calm : ∀ i, Run.Guarded PetKV.step PetKV.Calm (kv₀.shmKv i) (routed kv₀.getShard i calls)

theorem Follows.step {kv₀ kv kv' : PetMultiKV} {calls : List PetKV.Call} {c : PetKV.Call}
    (h : Follows kv₀ calls kv) (hcalm : Calm kv c) (hs : KVEnginePetKV.step kv c = some kv') :
    Follows kv₀ (calls ++ [c]) kv' := by
  obtain ⟨s, hstep, rfl⟩ := step_eq_some hs
  have hrouted : ∀ i, routed kv₀.getShard i (calls ++ [c]) =
      routed kv₀.getShard i calls ++ if kv₀.getShard c.key = i then [c] else [] := fun i => by
    rw [routed, List.filter_append, ← routed]
    simp only [List.filter_cons, List.filter_nil, decide_eq_true_eq]
  rw [Calm, h.getShard] at hcalm
  rw [h.getShard] at hstep
  refine ⟨h.getShard, fun i => ?_, fun i => ?_⟩
  · rw [hrouted, h.getShard]
    by_cases hi : kv₀.getShard c.key = i
    · subst hi
      simp only [if_true, Function.update_self]
      exact (h.shards _).step hstep
    · simp only [if_neg hi, List.append_nil, Function.update_of_ne (Ne.symm hi)]
      exact h.shards i
  · rw [hrouted]
    by_cases hi : kv₀.getShard c.key = i
    · subst hi
      rw [if_pos rfl, Run.guarded_concat (h.shards _).run]
      exact ⟨h.calm _, hcalm⟩
    · rw [if_neg hi, List.append_nil]
      exact h.calm i

theorem create_eq {getShard : UInt64 → Fin 16} {valueSize capacity : ℕ} {kv : PetMultiKV}
    (h : create getShard valueSize capacity = .ok kv) :
    ∃ s, shard valueSize capacity = .ok s ∧ kv = ⟨getShard, fun _ => s, 0⟩ := by
  rw [create] at h
  cases hs : shard valueSize capacity with
  | error e => rw [hs] at h; cases h
  | ok s =>
    rw [hs] at h
    exact ⟨s, rfl, (Except.ok.inj h).symm⟩

/-- **`Get` after any run of `Put`s** in which no key is evicted. -/
theorem petEngine_reads_last_put {getShard : UInt64 → Fin 16} {valueSize capacity : ℕ}
    {kv₀ kv : PetMultiKV} {calls : List PetKV.Call}
    (hnew : create getShard valueSize capacity = .ok kv₀) (hcalm : Run.Guarded step Calm kv₀ calls)
    (hrun : Run.run step kv₀ calls = some kv) (key : UInt64) (value : List UInt8) :
    get kv key value = .ok ((PetKV.lastLog calls key).getD value) := by
  obtain ⟨s, hs, rfl⟩ := create_eq hnew
  have h : Follows ⟨getShard, fun _ => s, 0⟩ calls kv :=
    Run.run_history (P := Follows ⟨getShard, fun _ => s, 0⟩)
      (fun _ _ _ _ h hc hs => h.step hc hs) []
      ⟨rfl, fun _ => PetKV.follows_create hs, fun _ => trivial⟩ hcalm hrun
  have hread : kv.read key = .ok (PetKV.lastLog calls key) := by
    rw [PetMultiKV.read, h.getShard, ← lastLog_routed getShard calls key]
    rcases (h.shards (getShard key)).read key with hread | ⟨-, hev⟩
    · exact hread
    · exact absurd hev (PetKV.not_evictedSince (h.calm (getShard key)) key)
  rw [get, hread]
  cases PetKV.lastLog calls key <;> rfl

/-! ### The engine as a store of a process -/

/-- The parameters that the constructor passes to `PetMultiKV`, over new directories. -/
def setup (getShard : UInt64 → Fin 16) (valueSize capacity : ℕ) : Setup :=
  ⟨16, (valueSize * capacity / 16 : ℕ), throughInt (capacity / 16), 0, fun key => getShard key,
    fun _ => none⟩

theorem loadShards_setup {getShard : UInt64 → Fin 16} {valueSize capacity : ℕ} {s : PetKV}
    (h : shard valueSize capacity = .ok s) (shards : List ℕ) :
    loadShards (setup getShard valueSize capacity) shards = .ok (shards.map fun _ => s) := by
  induction shards with
  | nil => rfl
  | cons i rest ih =>
    have hload : PetKV.load (valueSize * capacity / 16) (throughInt (capacity / 16)) 0 none =
        .ok s := by rwa [PetKV.load_none]
    rw [loadShards, ih]
    simp only [setup, Int.toNat_natCast, hload, List.map_cons]

/-- The constructor is that of `PetMultiKV`. -/
theorem construct_setup {getShard : UInt64 → Fin 16} {valueSize capacity : ℕ} {kv : PetMultiKV}
    (h : create getShard valueSize capacity = .ok kv)
    (hsmall : valueSize * capacity / 16 < 2 ^ 35) :
    Process.initial.construct (setup getShard valueSize capacity) =
      .ok ⟨Config.default, [kv.toMultiKV]⟩ := by
  obtain ⟨s, hs, rfl⟩ := create_eq h
  have hmemory : ((valueSize * capacity / 16 : ℕ) : ℤ) < 2 ^ 35 := by exact_mod_cast hsmall
  have hconfig : Config.default.configure (setup getShard valueSize capacity).shardMemory =
      .ok Config.default := Config.configure_small _ hmemory
  simp only [Process.construct, Process.initial, hconfig, loadShards_setup hs, List.nil_append]
  rfl

/-- **The engine in a process.** What `Put`s have made of it is a store of a process that has
constructed it and written its contents, and `Get` of that store is `Get` of the shard. -/
theorem process_get {getShard : UInt64 → Fin 16} {valueSize capacity : ℕ} {kv₀ kv : PetMultiKV}
    {calls : List PetKV.Call} (hnew : create getShard valueSize capacity = .ok kv₀)
    (hsmall : valueSize * capacity / 16 < 2 ^ 35) (hrun : Run.run step kv₀ calls = some kv)
    (hsound : ∀ i, (kv.shmKv i).Sound Config.default) :
    ∃ p, Run.run Process.step Process.initial
        [.construct (setup getShard valueSize capacity), .write 0 (List.ofFn kv.shmKv)] = some p ∧
      p.stores[0]? = some kv.toMultiKV ∧
      ∀ outside key, kv.toMultiKV.get p.kConfig outside key =
        ((kv.shmKv (kv.getShard key)).get key).map
          (Option.map fun r => ⟨r.expireTimet, r.data, r.size⟩) := by
  have hsame : kv.getShard = kv₀.getShard ∧ kv.preKnownValueSize = kv₀.preKnownValueSize :=
    Run.run_invariant (P := fun kv => kv.getShard = kv₀.getShard ∧
      kv.preKnownValueSize = kv₀.preKnownValueSize) (fun _ _ _ h hs => by
        obtain ⟨s, -, rfl⟩ := step_eq_some hs
        exact h) ⟨rfl, rfl⟩ hrun
  have hzero : kv.preKnownValueSize = 0 := by
    obtain ⟨s, -, rfl⟩ := create_eq hnew
    exact hsame.2
  have hwritten :
      ({ kv₀.toMultiKV with shmKv := List.ofFn kv.shmKv } : MultiKV) = kv.toMultiKV := by
    rw [PetMultiKV.toMultiKV, PetMultiKV.toMultiKV, hsame.1, hsame.2]
  refine ⟨⟨Config.default, [kv.toMultiKV]⟩, ?_, rfl, fun outside key =>
    kv.toMultiKV_get hzero (hsound _) outside⟩
  simp only [Run.run, Process.step, construct_setup hnew hsmall,
    Except.toOption]
  rw [← hwritten]
  rfl

end KVEnginePetKV

end PetPS

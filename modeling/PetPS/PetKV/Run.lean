import PetPS.PetKV.Update

/-!
# Runs of `Update`s

A call carries what it reads of the epoch manager, so a run ranges over every way in which the
blocks of overwritten values are freed and handed out again.

## Main results

* `Follows.step` — one more `Update`
* `petkv_run_reads_last_update` — after any run, `Get` yields the bytes of the last `Update` of its
  key, unless the key was evicted since
-/

namespace PetPS

namespace PetKV

/-- A call of `Update`. -/
structure Call where
  key : UInt64
  /-- The bytes. -/
  log : List UInt8
  /-- The epochs while the old block is recycled. -/
  epochs : Epochs
  /-- The epochs at the end of the call. -/
  epochs' : Epochs

/-- The store after a call that returns. -/
def step (s : PetKV) (c : Call) : Option PetKV :=
  (s.update c.epochs c.epochs' c.key c.log).toOption

/-- The bytes of the last `Update` of `key`. -/
def lastLog (calls : List Call) (key : UInt64) : Option (List UInt8) :=
  (Run.lastOn Call.key calls key).map Call.log

/-- The call evicts no key. -/
def Calm (s : PetKV) (c : Call) : Prop := s.evicts c.key = none

instance (s : PetKV) (c : Call) : Decidable (s.Calm c) := inferInstanceAs (Decidable (_ = _))

/-- `key` was evicted by one of the calls and not updated since. -/
def EvictedSince (s : PetKV) (calls : List Call) (key : UInt64) : Prop :=
  ∃ pre c post, calls = pre ++ c :: post ∧ (∃ s' ∈ Run.run step s pre, s'.evicts c.key = some key) ∧
    ∀ d ∈ c :: post, d.key ≠ key

theorem step_eq_some {s s' : PetKV} {c : Call} :
    s.step c = some s' ↔ s.update c.epochs c.epochs' c.key c.log = .ok s' := by
  rw [step]
  cases s.update c.epochs c.epochs' c.key c.log <;> simp [Except.toOption]

theorem lastLog_concat (calls : List Call) (c : Call) (key : UInt64) :
    lastLog (calls ++ [c]) key = if c.key = key then some c.log else lastLog calls key := by
  rw [lastLog, Run.lastOn_concat, lastLog]
  split_ifs <;> rfl

theorem lastLog_eq_none {calls : List Call} {key : UInt64} :
    lastLog calls key = none ↔ ∀ c ∈ calls, c.key ≠ key := by
  rw [lastLog, Option.map_eq_none_iff, Run.lastOn_eq_none]

/-- Where no call evicts, no key is evicted. -/
theorem not_evictedSince {s : PetKV} {calls : List Call} (h : Run.Guarded step Calm s calls)
    (key : UInt64) : ¬ s.EvictedSince calls key := by
  rintro ⟨pre, c, post, rfl, ⟨s', hs', hev⟩, -⟩
  have hcalm := ((h.append).2 s' hs').1
  rw [Calm, hev] at hcalm
  cases hcalm

theorem EvictedSince.concat {s : PetKV} {calls : List Call} {key : UInt64}
    (h : s.EvictedSince calls key) {c : Call} (hc : c.key ≠ key) :
    s.EvictedSince (calls ++ [c]) key := by
  obtain ⟨pre, d, post, rfl, hev, hne⟩ := h
  refine ⟨pre, d, post ++ [c], by simp, hev, fun e he => ?_⟩
  rcases List.mem_cons.mp he with rfl | he
  · exact hne e List.mem_cons_self
  · rcases List.mem_append.mp he with he | he
    · exact hne e (List.mem_cons_of_mem _ he)
    · rw [List.mem_singleton.mp he]
      exact hc

/-- What is known after `calls` have led from `s₀` to `s`. -/
structure Follows (s₀ : PetKV) (calls : List Call) (s : PetKV) : Prop where
  run : Run.run step s₀ calls = some s
  /-- The store is in order, and only evictions leak. -/
  inv : ∃ leaked, s.Inv leaked ∧ (leaked = 0 ↔ Run.Guarded step Calm s₀ calls)
  /-- What is stored is what was last written. -/
  stored : ∀ key v, ⟨key, v⟩ ∈ s.dict.entries →
    ∃ log, lastLog calls key = some log ∧ Contains s.pool (blockOf ⟨key, v⟩) log
  /-- What is not stored was never written or has been evicted. -/
  absent : ∀ key, s.dict.Absent key → lastLog calls key = none ∨ s₀.EvictedSince calls key
  /-- The parameters stay. -/
  layout : PersistMemoryPool.SameLayout s₀.pool s.pool
  chunkNum : s.dict.chunkNum = s₀.dict.chunkNum

/-- What is stored and what is not, in a state that an `Update` could leave. -/
theorem Follows.updated {s₀ s s' : PetKV} {calls : List Call} {c : Call} (h : Follows s₀ calls s)
    (hup : Updated s s' c.key c.log) (hdict : s'.dict.Inv) :
    (∀ key v, ⟨key, v⟩ ∈ s'.dict.entries → ∃ log, lastLog (calls ++ [c]) key = some log ∧
        Contains s'.pool (blockOf ⟨key, v⟩) log) ∧
      ∀ key, s'.dict.Absent key →
        lastLog (calls ++ [c]) key = none ∨ s₀.EvictedSince (calls ++ [c]) key := by
  constructor
  · intro key v hv
    rw [lastLog_concat]
    split_ifs with hkey
    · obtain ⟨w, hw, hlog⟩ := hup.self
      subst hkey
      rw [hdict.nodup.value_unique hv hw]
      exact ⟨c.log, rfl, hlog⟩
    · obtain ⟨hold, -⟩ := (hup.other key v (Ne.symm hkey)).mp hv
      obtain ⟨log, hlast, hlog⟩ := h.stored key v hold
      exact ⟨log, hlast, hup.contents key v log (Ne.symm hkey) hv hlog⟩
  · intro key habs
    have hne : c.key ≠ key := by
      rintro rfl
      obtain ⟨w, hw, -⟩ := hup.self
      exact habs w hw
    rw [lastLog_concat, if_neg hne]
    by_cases hev : s.evicts c.key = some key
    · refine Or.inr ⟨calls, c, [], rfl, ⟨s, h.run, hev⟩, fun d hd => ?_⟩
      rw [List.mem_singleton.mp hd]
      exact hne
    · have habs' : s.dict.Absent key := fun v hv =>
        habs v ((hup.other key v hne.symm).mpr ⟨hv, hev⟩)
      exact (h.absent key habs').imp id fun hs => hs.concat hne

/-- **One more `Update`.** -/
theorem Follows.step {s₀ s s' : PetKV} {calls : List Call} {c : Call} (h : Follows s₀ calls s)
    (hs : s.step c = some s') : Follows s₀ (calls ++ [c]) s' := by
  obtain ⟨leaked, hinv, hleak⟩ := h.inv
  obtain ⟨hup, lost, hinv', hlost⟩ := hinv.update (step_eq_some.mp hs)
  obtain ⟨hstored, habsent⟩ := h.updated hup hinv'.dict
  refine ⟨Run.run_concat h.run hs, ⟨lost + leaked, hinv', ?_⟩, hstored, habsent,
    h.layout.trans hup.layout, hup.chunkNum.trans h.chunkNum⟩
  have hlost0 : lost = 0 ↔ s.Calm c := by
    rw [← Multiset.card_eq_zero, hlost, Calm]
    cases s.evicts c.key <;> simp
  rw [Run.guarded_concat h.run, add_eq_zero, hlost0, hleak, and_comm]

theorem follows_create {memorySize capacity : ℕ} {s₀ : PetKV}
    (h : create memorySize capacity = .ok s₀) : Follows s₀ [] s₀ := by
  obtain ⟨hinv, hent, -⟩ := create_inv h
  refine ⟨rfl, ⟨0, hinv, iff_of_true rfl trivial⟩, fun key v hv => ?_, fun key _ => Or.inl rfl,
    ⟨rfl, rfl, rfl⟩, rfl⟩
  simp [hent] at hv

theorem follows_run {memorySize capacity : ℕ} {s₀ s : PetKV} {calls : List Call}
    (hnew : create memorySize capacity = .ok s₀) (hrun : Run.run step s₀ calls = some s) :
    Follows s₀ calls s :=
  Run.run_history (P := Follows s₀) (G := fun _ _ => True) (fun _ _ _ _ h _ hs => h.step hs) []
    (follows_create hnew) (Run.guarded_of_forall (fun _ _ => trivial) s₀ calls) hrun

/-- What is read is what was last written. -/
theorem Follows.read {s₀ s : PetKV} {calls : List Call} (h : Follows s₀ calls s) (key : UInt64) :
    s.read key = .ok (lastLog calls key) ∨ s.read key = .ok none ∧ s₀.EvictedSince calls key := by
  obtain ⟨leaked, hinv, -⟩ := h.inv
  by_cases habs : s.dict.Absent key
  · have hread := hinv.read_of_notMem habs
    rcases h.absent key habs with hlast | hev
    · exact Or.inl (hlast ▸ hread)
    · exact Or.inr ⟨hread, hev⟩
  · rw [PetHash.Absent] at habs
    push Not at habs
    obtain ⟨v, hv⟩ := habs
    obtain ⟨log, hlast, hlog⟩ := h.stored key v hv
    exact Or.inl (hlast ▸ hinv.read_of_mem hv hlog)

/-- **`Get` after any run** of `Update`s of a new store: the bytes of the last `Update` of the key;
or nothing, if the key has never been updated or was evicted after its last `Update`. -/
theorem petkv_run_reads_last_update {memorySize capacity : ℕ} {s₀ s : PetKV} {calls : List Call}
    (hnew : create memorySize capacity = .ok s₀) (hrun : Run.run step s₀ calls = some s)
    (key : UInt64) :
    s.read key = .ok (lastLog calls key) ∨ s.read key = .ok none ∧ s₀.EvictedSince calls key :=
  (follows_run hnew hrun).read key

/-- The epochs of a manager that has nothing safe yet. -/
def quietEpochs : Epochs := ⟨1, fun _ => 0⟩

/-- The epochs of a manager that lets everything be freed. -/
def safeEpochs : Epochs := ⟨0, fun _ => 0⟩

/-- Key 7 twice, with the first block freed at once and handed to key 9. -/
def reuseCalls : List Call :=
  [⟨7, [1, 2, 3], quietEpochs, quietEpochs⟩, ⟨7, [4], safeEpochs, quietEpochs⟩,
    ⟨9, [5, 6], quietEpochs, quietEpochs⟩]

theorem petkv_run_reads_last_update_reuse :
    ∃ s₀ s : PetKV, create (5 * kChunkSize) 1 = .ok s₀ ∧ Run.run step s₀ reuseCalls = some s ∧
      s.read 7 = .ok (some [4]) := by
  have heval : ((create (5 * kChunkSize) 1).toOption.any fun s₀ =>
      (Run.run step s₀ reuseCalls).any fun s => decide ((s.read 7).toOption = some (some [4]))) =
        true := by
    decide +kernel
  simp only [Option.any_eq_true, decide_eq_true_eq] at heval
  obtain ⟨s₀, hs₀, s, hs, hread⟩ := heval
  have hnew := eq_ok_of_toOption hs₀
  refine ⟨s₀, s, hnew, hs, ?_⟩
  rcases petkv_run_reads_last_update hnew hs 7 with h | ⟨h, -⟩
  · exact h
  · rw [h] at hread
    cases hread

end PetKV

end PetPS

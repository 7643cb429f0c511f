import PetPS.PetHash.Refine

/-!
# Forced insertion

A forced `Set` makes room by evicting a key of the chunk at which it finds the table full. The
eviction takes one of the `chunk_num_` turns of the loop and the insertion needs another one. So
in a table with two chunks or more a forced `Set` always succeeds, and in a table with a single
chunk it evicts, falls out of the loop and ends in "dict OOM" (`Good.insert_fatal`).

## Main results

* `Good.crowded_iff_of_single` — when the table with one chunk is crowded
* `forced_set_succeeds_iff` — the forced `Set`s that succeed, in every state that `Set`s and
  `Delete`s lead to
-/

namespace PetPS

namespace PetHash

variable {V : Type}

/-! ### What a forced `Set` leaves behind -/

/-- The table `t'` is `t` with `key` set to `value`, and at most one other key is gone. That key was
stored in a chunk on the probe path of `key`. -/
structure Forced (t t' : PetHash V) (key : UInt64) (value : V) (gone : Option UInt64) : Prop where
  /-- The key has its value. -/
  self : t'.get key = .ok (some value)
  /-- The other keys are as before. -/
  other : ∀ k, k ≠ key → k ∉ gone → t'.get k = t.get k
  /-- A key that is gone was another key, stored where the insertion probed. -/
  gone : ∀ k ∈ gone, k ≠ key ∧ t'.get k = .ok none ∧
    ∃ j < t.chunkNum, ∃ i v, t.slotEntry (t.probeAt key j, i) = some ⟨k, v⟩

/-- A `Set` that replaces at most the entry of its own key. -/
theorem Good.forced_of_rest {t t' : PetHash V} (h : t.Inv) (h' : t'.Inv) {key : UInt64} {value : V}
    {rest : Multiset (EntryT V)} (hent : t'.entries = ⟨key, value⟩ ::ₘ rest)
    (hrest : ∀ k x, k ≠ key → (⟨k, x⟩ ∈ rest ↔ ⟨k, x⟩ ∈ t.entries)) :
    Forced t t' key value none := by
  refine ⟨h'.get_of_mem (hent ▸ Multiset.mem_cons_self _ _), fun k hk _ => ?_,
    fun k hk => absurd hk (Option.not_mem_none k)⟩
  refine h.get_eq_of_mem_iff h' fun x => ?_
  rw [h'.nodup.mem_iff hent, if_neg hk, hrest k x hk]

/-- A `Set` that evicts. -/
theorem Good.forced_of_evict {t t' : PetHash V} (h : t.Inv) (h' : t'.Inv) {key : UInt64} {value : V}
    (habs : t.Absent key) (hcrowd : t.Crowded key) {v : V} {rest : Multiset (EntryT V)}
    (hrest : t.entries = ⟨t.evictee key, v⟩ ::ₘ rest) (hent : t'.entries = ⟨key, value⟩ ::ₘ rest) :
    Forced t t' key value (some (t.evictee key)) := by
  have hne : t.evictee key ≠ key := by
    intro heq
    exact habs v (heq ▸ hrest ▸ Multiset.mem_cons_self _ _)
  refine ⟨h'.get_of_mem (hent ▸ Multiset.mem_cons_self _ _),
    fun k hk hgone => ?_, fun k hgone => ?_⟩
  · have hke : k ≠ t.evictee key := fun heq => hgone (heq ▸ rfl)
    refine h.get_eq_of_mem_iff h' fun x => ?_
    rw [h'.nodup.mem_iff hent, if_neg hk, h.nodup.mem_iff hrest, if_neg hke]
  · obtain rfl : t.evictee key = k := Option.some.inj hgone
    refine ⟨hne, h'.get_of_notMem fun x => ?_, 0, h.shape.chunkNum_pos, evictSlot key,
      ((t.chunkTable (t.homeChunk key)).value (evictSlot key)).second, ?_⟩
    · rw [h'.nodup.mem_iff hent, if_neg hne]
      exact h.nodup.notMem_rest hrest
    · rw [h.shape.probeAt_zero]
      exact h.slotEntry_of_full (h.shape.homeChunk_lt key) hcrowd.1 (evictSlot key)

/-! ### When it succeeds -/

/-- The table with one chunk is crowded as soon as the chunk is full. -/
theorem Good.crowded_iff_of_single {t : PetHash V} (h : t.Inv) (hone : t.chunkNum = 1)
    (key : UInt64) : t.Crowded key ↔ 14 ≤ t.size := by
  have hhome : t.homeChunk key = 0 := by
    have := h.shape.homeChunk_lt key
    omega
  have hsize : t.size = (t.chunkTable 0).size := by
    rw [h.size, h.shape.card_entries, hone, Finset.sum_range_one]
  rw [Crowded, Roomy, hhome, h.full_iff, hone, ← hsize]
  omega

/-- A table in which a forced `Set` of `key` succeeds: it has a second chunk, or room in its
only one, or the key itself. -/
def Admits (t : PetHash V) (key : UInt64) : Prop :=
  t.chunkNum ≠ 1 ∨ t.size < 14 ∨ t.get key ≠ .ok none

theorem Good.forced_set {t : PetHash V} (h : t.Inv) {key : UInt64} (value : V)
    (hadm : t.Admits key) :
    ∃ t' gone, t.set key value none true = .ok t' ∧ Forced t t' key value gone := by
  by_cases habs : t.Absent key
  · rw [h.set_of_absent habs]
    by_cases hcrowd : t.Crowded key
    · have hN : 1 < t.chunkNum := by
        have hpos := h.shape.chunkNum_pos
        by_contra hle
        have hone : t.chunkNum = 1 := by omega
        have hfull := (h.crowded_iff_of_single hone key).mp hcrowd
        rcases hadm with hne | hlt | hget
        · exact hne hone
        · omega
        · exact hget (h.get_of_notMem habs)
      obtain ⟨t', pos, id, v, rest, hins, hinv, -, -, -, hrest, hent⟩ :=
        h.insert_evict habs hcrowd hN value
      rw [hins]
      exact ⟨t', _, rfl, h.forced_of_evict hinv habs hcrowd hrest hent⟩
    · obtain ⟨t', pos, id, hins, hinv, -, -, -, hent⟩ := h.insert_plain habs hcrowd value true
      rw [hins]
      exact ⟨t', none, rfl, h.forced_of_rest hinv hent fun _ _ _ => Iff.rfl⟩
  · rw [Absent] at habs
    push Not at habs
    obtain ⟨v, hv⟩ := habs
    obtain ⟨t', rest, hset, hinv, -, hrest, hent⟩ := h.set_of_mem hv value none true
    refine ⟨t', none, hset, h.forced_of_rest hinv hent fun k x hk => ?_⟩
    rw [h.nodup.mem_iff hrest, if_neg hk]

/-- In the single full chunk a forced `Set` of a new key is fatal. -/
theorem Good.forced_set_fatal {t : PetHash V} (h : t.Inv) {key : UInt64} (value : V)
    (hadm : ¬ t.Admits key) : t.set key value none true = .error .dictOOM := by
  rw [Admits] at hadm
  push Not at hadm
  obtain ⟨hone, hfull, hget⟩ := hadm
  have habs : t.Absent key := by
    intro v hv
    rw [h.get_of_mem hv] at hget
    cases hget
  have hcrowd := (h.crowded_iff_of_single hone key).mpr hfull
  rw [h.set_of_absent habs, (h.insert_fatal habs hcrowd value).2 hone]

/-! ### Over whole runs -/

/-- Every operation keeps the invariant. -/
theorem Good.op {t t' : PetHash V} (h : t.Inv) {op : Op V} (hstep : t.step op = some t') :
    t'.Inv := by
  have hexec := eq_ok_of_toOption hstep
  cases op with
  | set key value isForce => exact (h.set hexec).1
  | delete key =>
    obtain ⟨t₁, hdel, hinv, -⟩ := h.delete key
    rw [Op.exec, hdel, Except.ok.injEq] at hexec
    exact hexec ▸ hinv

/-- **The forced `Set`s that succeed.** Whatever the capacity, in every table that `Set`s, forced
or not, and `Delete`s lead to, a forced `Set` returns a pointer, `Get` then finds the value, and at
most one other key, stored on the probe path, is removed, exactly if the table has more than one
chunk, or fewer than 14 elements, or holds the key already. -/
theorem forced_set_succeeds_iff [Inhabited V] {capacity : ℕ} {ignoreLoadFactor : Bool}
    {t₀ t : PetHash V} (hinit : initializeTable capacity ignoreLoadFactor = some t₀)
    {ops : List (Op V)} (hrun : Run.run step t₀ ops = some t)
    (key : UInt64) (value : V) :
    (∃ t' gone, t.set key value none true = .ok t' ∧ Forced t t' key value gone) ↔
      t.chunkNum ≠ 1 ∨ t.size < 14 ∨ t.get key ≠ .ok none := by
  have hinv : t.Inv := Run.run_invariant (P := PetHash.Inv) (fun _ _ _ h hstep => h.op hstep)
    (initializeTable_inv hinit).1 hrun
  change _ ↔ t.Admits key
  refine ⟨?_, hinv.forced_set value⟩
  rintro ⟨t', gone, hset, -⟩
  by_contra hadm
  rw [hinv.forced_set_fatal value hadm] at hset
  cases hset

/-- Fourteen keys in the table with one chunk. -/
def fourteen : List (Op UInt64) := (List.range 14).map fun k => .set (UInt64.ofNat k) 7 true

/-- The fifteenth key evicts one of the fourteen and is then not inserted. -/
theorem forced_set_single_chunk : ∃ t₀ t : PetHash UInt64, initializeTable 1 true = some t₀ ∧
    Run.run step t₀ fourteen = some t ∧ t.set 14 7 none true = .error .dictOOM := by
  have heval : ((initializeTable 1 true : Option (PetHash UInt64)).any fun t₀ =>
      (Run.run step t₀ fourteen).any fun t =>
        match t.set 14 7 none true with
        | .error e => decide (e = .dictOOM)
        | .ok _ => false) = true := by
    decide +kernel
  simp only [Option.any_eq_true] at heval
  obtain ⟨t₀, hinit, t, hrun, hset⟩ := heval
  refine ⟨t₀, t, hinit, hrun, ?_⟩
  cases hres : t.set 14 7 none true with
  | error e =>
    rw [hres] at hset
    rw [of_decide_eq_true hset]
  | ok t' => rw [hres] at hset; cases hset

/-- Thirty keys in a table with two chunks. -/
theorem forced_set_succeeds_two_chunks : ∃ t₀ t t' : PetHash UInt64,
    initializeTable 28 true = some t₀ ∧
      Run.run step t₀ ((List.range 30).map fun k => .set (UInt64.ofNat k) 7 true) = some t ∧
      t.set 30 8 none true = .ok t' ∧ t'.get 30 = .ok (some 8) := by
  have heval : ((initializeTable 28 true : Option (PetHash UInt64)).any fun t₀ =>
      (Run.run step t₀ ((List.range 30).map fun k => .set (UInt64.ofNat k) 7 true)).any fun t =>
        decide (t.chunkNum = 2)) = true := by
    decide +kernel
  simp only [Option.any_eq_true, decide_eq_true_eq] at heval
  obtain ⟨t₀, hinit, t, hrun, htwo⟩ := heval
  obtain ⟨t', gone, hset, h'⟩ :=
    (forced_set_succeeds_iff hinit hrun 30 8).mpr (Or.inl (by omega))
  exact ⟨t₀, t, t', hinit, hrun, hset, h'.self⟩

end PetHash

end PetPS

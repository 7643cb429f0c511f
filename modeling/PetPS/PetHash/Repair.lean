import PetPS.PetHash.Invariant
import PetPS.PetHash.Recovery

/-!
# What `Reload` repairs

A power cut can leave anything in the fields that the code does not flush: the tags, the element
counts, the overflow counters, the migration marks. `Reload` takes the keys for granted and rebuilds
the rest, but not all of it. The first pass skips the slots with the key `-1` and leaves their
tags as they are, and the second pass goes by the tags; and the migration marks are never reset. So
the table is repaired exactly when no slot with the key `-1` has a tag and no chunk is marked.

After a clean shutdown there is nothing to repair, and `Reload` changes nothing.

## Main results

* `reload_eq_recounted` — the loops in the order of the positions compute what every schedule does
* `reload_repairs_iff` — which images are repaired
* `reload_unchanged` — `Reload` after a clean shutdown
-/

namespace PetPS

namespace Recovery

variable {V : Type}

open PetHash

/-! ### The loops in the order of the positions -/

theorem incAll_overflowCount (ps : List ℕ) (t : PetHash V) (p : ℕ) :
    ((t.incAll ps).chunkTable p).overflowCount
      = (Tally.inc 255)^[ps.count p] (t.chunkTable p).overflowCount := by
  induction ps generalizing t with
  | nil => rfl
  | cons q ps ih =>
    have hstep : t.incAll (q :: ps) = (t.modifyChunk q F14Chunk.incOverflow).incAll ps := rfl
    rw [hstep, ih, incAt_overflowCount, List.count_cons]
    by_cases hpq : p = q
    · rw [if_pos hpq, hpq, beq_self_eq_true, if_pos rfl, Function.iterate_succ_apply]
    · rw [if_neg hpq, beq_false_of_ne (Ne.symm hpq), if_neg (by simp), Nat.add_zero]

theorem reloadCounts_overflowCount : ∀ (ss : List (ℕ × Slot)) {t t' : PetHash V},
    (∃ k, t.chunkNum = 2 ^ k) → (∀ s ∈ ss, s.1 < t.chunkNum) → reloadCounts ss t = .ok t' →
      ∀ p, (t'.chunkTable p).overflowCount
        = (Tally.inc 255)^[((ss.map t.owedBy).sum).count p] (t.chunkTable p).overflowCount := by
  intro ss
  induction ss with
  | nil =>
    intro t t' _ _ hrun p
    obtain rfl := Except.ok.inj hrun
    simp
  | cons s ss ih =>
    intro t t' hpow hlt hrun p
    obtain ⟨ps, hps, hone⟩ := reloadCount_eq hpow (hlt s List.mem_cons_self)
    have hr := incAll_recount ps t
    rw [reloadCounts, hone] at hrun
    have hrest := ih (hr.chunkNum ▸ hpow)
      (fun s' hs' => hr.chunkNum ▸ hlt s' (List.mem_cons_of_mem _ hs')) hrun p
    rw [hrest, incAll_overflowCount, ← Function.iterate_add_apply, List.map_cons, List.sum_cons,
      Multiset.count_add, ← hps, Multiset.coe_count, Nat.add_comm,
      List.map_congr_left fun s _ => hr.owedBy s]

theorem lt_of_mem_owedBy {t : PetHash V} {k : ℕ} (hN : t.chunkNum = 2 ^ k) {s : ℕ × Slot} {p : ℕ}
    (hp : p ∈ t.owedBy s) : p < t.chunkNum := by
  rw [owedBy] at hp
  cases he : t.slotEntry s with
  | none => simp [he] at hp
  | some e =>
    rw [he, Option.elim_some, Multiset.mem_coe] at hp
    exact Walk.lt_of_mem_trail (homeChunk_lt hN _) hp

/-- `Reload` in the order of the positions does what the threads do. -/
theorem reload_eq_recounted (t : PetHash V) {capacity chunkNum k : ℕ} (ignoreLoadFactor : Bool)
    (hN : overFallChunkNum (scaleCapacity capacity ignoreLoadFactor) = chunkNum)
    (hpow : chunkNum = 2 ^ k) :
    t.reload capacity ignoreLoadFactor = .ok (recounted (sized t chunkNum).reloadSlots) := by
  obtain ⟨u, hu⟩ : ∃ u, u = (sized t chunkNum).reloadSlots := ⟨_, rfl⟩
  have huN : u.chunkNum = chunkNum := hu ▸ reloadSlots_chunkNum _
  have hslots : ({ t with chunkNum := chunkNum, capacity := chunkNum * 14 } : PetHash V).reloadSlots
      = u := by
    rw [hu, reloadSlots, reloadSlots, PetHash.mk.injEq]
    refine ⟨?_, ?_, rfl, funext fun p => ?_⟩
    · rw [(modifyAll_capacity_size _ _ _).1, (modifyAll_capacity_size _ _ _).1]
      rfl
    · rw [modifyAll_chunkNum, modifyAll_chunkNum]
      rfl
    · rw [modifyAll_chunkTable List.nodup_range, modifyAll_chunkTable List.nodup_range]
      rfl
  have hlt : ∀ s ∈ slotList chunkNum, s.1 < u.chunkNum := fun s hs => huN ▸ mem_slotList.mp hs
  obtain ⟨t', hrun, hr, -⟩ := reloadCounts_spec (slotList chunkNum) ⟨k, huN.trans hpow⟩ hlt
  have hcount := reloadCounts_overflowCount _ ⟨k, huN.trans hpow⟩ hlt hrun
  rw [PetHash.reload, hN, hslots, ← hu, hrun]
  refine congrArg Except.ok (eq_recounted hr fun p => ?_)
  rw [hcount]
  split_ifs with hp
  · have hzero : (u.chunkTable p).overflowCount = 0 := by
      rw [hu, reloadSlots_chunkTable _ (huN ▸ hp : p < chunkNum), F14Chunk.reload_eq]
    rw [hzero, Tally.inc_iterate (Nat.zero_le _), Nat.zero_add, ← huN,
      count_owed ⟨k, huN.trans hpow⟩ hp]
  · have hnone : (((slotList chunkNum).map u.owedBy).sum).count p = 0 := by
      refine Multiset.count_eq_zero.mpr fun hmem => hp ?_
      rw [← List.sum_toFinset _ (nodup_slotList _)] at hmem
      obtain ⟨s, -, hs⟩ := Multiset.mem_sum.mp hmem
      exact lt_of_mem_owedBy (huN.trans hpow) hs
    rw [hnone]
    rfl

/-! ### What is repaired -/

/-- The number of keys, as `Reload` takes them, whose probe path passes over chunk `c`. -/
def keyedPassCount (t : PetHash V) (c : ℕ) : ℕ :=
  ∑ s ∈ t.slots, (t.keyedEntry s).elim 0 fun e =>
    if Passes t.chunkNum (t.homeChunk e.first) e.first s.1 c then 1 else 0

/-- `t'` is the image `t` with everything that is not flushed rebuilt from the keys, and
`mallocSetValid` has been called with `calls`. -/
structure Repaired (t t' : PetHash V) (calls : List (EntryT V)) : Prop where
  value : ∀ p < t.chunkNum, (t'.chunkTable p).value = (t.chunkTable p).value
  /-- The tag of a slot is that of its key, and `0` for the key `-1`. -/
  tags : ∀ p < t.chunkNum, ∀ i, (t'.chunkTable p).tags i
    = if ((t.chunkTable p).value i).first = emptyKey then 0
      else tagOf ((t.chunkTable p).value i).first
  /-- A chunk counts its keys. -/
  chunkSize : ∀ p < t.chunkNum, (t'.chunkTable p).size
    = (Finset.univ.filter fun i => ((t.chunkTable p).value i).first ≠ emptyKey).card
  /-- The table counts all of them. -/
  size : t'.size = t.keyedEntries.card
  /-- The overflow counters count the keys that pass by, up to 255. -/
  counts : ∀ p < t.chunkNum, (t'.chunkTable p).overflowCount = min 255 (keyedPassCount t p)
  /-- `mallocSetValid` has been called once for each key, and for nothing else. -/
  calls : (calls : Multiset (EntryT V)) = t.keyedEntries
  /-- No chunk is marked. -/
  calm : ∀ p < t.chunkNum, (t'.chunkTable p).isMigrating = false
  /-- `Get` returns. -/
  get_returns : ∀ key, ∃ r, t'.get key = .ok r
  /-- It finds the stored keys and no others. -/
  get : ∀ key v, t'.get key = .ok (some v) ↔ ⟨key, v⟩ ∈ t.keyedEntries

theorem recounted_chunkTable (t : PetHash V) {p : ℕ} (hp : p < t.chunkNum) :
    (recounted (sized t t.chunkNum).reloadSlots).chunkTable p
      = { t.chunkTable p with
          size := (t.chunkTable p).keyed.card
          overflowCount := min 255 ((sized t t.chunkNum).reloadSlots.passCount p)
          tags := fun i => if i ∈ (t.chunkTable p).keyed then tagOf ((t.chunkTable p).value i).first
            else (t.chunkTable p).tags i } := by
  have hN := (sized t t.chunkNum).reloadSlots_chunkNum
  rw [recounted]
  simp only
  rw [if_pos (hN.symm ▸ hp : p < _), (sized t t.chunkNum).reloadSlots_chunkTable hp,
    F14Chunk.reload_eq]
  rfl

section Repair

variable {t : PetHash V} {capacity : ℕ} {ignoreLoadFactor : Bool}

/-- **What is not repaired**: the tags of the slots with the key `-1`, and the marks. -/
theorem Repaired.settled {calls : List (EntryT V)}
    (h : Repaired t (recounted (sized t t.chunkNum).reloadSlots) calls) :
    (∀ p < t.chunkNum, (t.chunkTable p).TagsKeyed) ∧
      ∀ p < t.chunkNum, (t.chunkTable p).isMigrating = false := by
  refine ⟨fun p hp i hi hkey => hi ?_, fun p hp => ?_⟩
  · have htag := h.tags p hp i
    rw [recounted_chunkTable t hp, if_pos hkey] at htag
    simp only at htag
    rwa [if_neg fun hk => F14Chunk.mem_keyed.mp hk hkey] at htag
  · have hcalm := h.calm p hp
    rwa [recounted_chunkTable t hp] at hcalm

theorem passCount_reloadSlots (h : t.Reloadable) (p : ℕ) :
    (sized t t.chunkNum).reloadSlots.passCount p = keyedPassCount t p := by
  have hsized : (sized t t.chunkNum).Reloadable := ⟨h.pow, h.fits, h.tags, h.calm, h.nodup⟩
  have hslots := (hsized.reloadSlots rfl).2.1
  have huN := (sized t t.chunkNum).reloadSlots_chunkNum
  rw [passCount, slotSum, slots_congr huN]
  refine Finset.sum_congr rfl fun s hs => ?_
  rw [hslots s hs]
  simp only [huN, homeChunk_congr huN]
  rfl

theorem repaired_of_reloadable (h : t.Reloadable)
    (hN : overFallChunkNum (scaleCapacity capacity ignoreLoadFactor) = t.chunkNum)
    {calls : List (EntryT V)}
    (hcalls : (calls : Multiset (EntryT V)) = (sized t t.chunkNum).reloadSlots.entries) :
    Repaired t (recounted (sized t t.chunkNum).reloadSlots) calls := by
  obtain ⟨k, hk⟩ := h.pow
  obtain ⟨t', hrun, hinv, hent, -⟩ := h.reload ignoreLoadFactor hN.symm
  rw [reload_eq_recounted t ignoreLoadFactor hN hk] at hrun
  obtain rfl := Except.ok.inj hrun
  have hsized : (sized t t.chunkNum).Reloadable := ⟨h.pow, h.fits, h.tags, h.calm, h.nodup⟩
  have hslots := (hsized.reloadSlots rfl).2.1
  have huN := (sized t t.chunkNum).reloadSlots_chunkNum
  have hentries : (sized t t.chunkNum).reloadSlots.entries = t.keyedEntries := by
    rw [entries, slotSum, slots_congr huN]
    exact Finset.sum_congr rfl fun s hs => by rw [hslots s hs]; rfl
  refine ⟨fun p hp => ?_, fun p hp i => ?_, fun p hp => ?_, ?_,
    fun p hp => ?_, hcalls.trans hentries,
    fun p hp => ?_, fun key => ?_, fun key v => ?_⟩
  · rw [recounted_chunkTable t hp]
  · rw [recounted_chunkTable t hp]
    simp only
    by_cases hkey : ((t.chunkTable p).value i).first = emptyKey
    · rw [if_pos hkey, if_neg fun hk => F14Chunk.mem_keyed.mp hk hkey]
      by_contra htag
      exact h.tags p hp i htag hkey
    · rw [if_neg hkey, if_pos (F14Chunk.mem_keyed.mpr hkey)]
  · rw [recounted_chunkTable t hp]
    rfl
  · exact (reloadSlots_size _).trans rfl
  · rw [recounted_chunkTable t hp, passCount_reloadSlots h]
  · rw [recounted_chunkTable t hp]
    exact h.calm p hp
  · exact hinv.get_returns key
  · rw [hinv.get_eq_some_iff, hent]

/-- **Which images `Reload` repairs.** Any contents of the fields that are not flushed are repaired,
whatever the schedule of the threads, if and only if no slot with the key `-1` has a tag and no
chunk is marked as migrating. -/
theorem reload_repairs_iff
    (hN : overFallChunkNum (scaleCapacity capacity ignoreLoadFactor) = t.chunkNum)
    (hint : t.chunkNum ≤ 2 ^ 31) (hkeys : (t.keyedEntries.map EntryT.first).Nodup)
    {kRecoveryThread : ℕ} (hk : 1 ≤ kRecoveryThread) :
    ∃ bound, ∀ moves st, Run.run (Recovery.step kRecoveryThread)
        (start t capacity ignoreLoadFactor kRecoveryThread) moves = some st →
      moves.length ≤ bound ∧
      ((∀ m, Recovery.step kRecoveryThread st m = none) → st.returned.isSome = true) ∧
      ∀ t' calls, st.returned = some (t', calls) →
        (Repaired t t' calls ↔
          (∀ p < t.chunkNum, ∀ i, ((t.chunkTable p).value i).first = emptyKey →
            (t.chunkTable p).tags i = 0) ∧
          ∀ p < t.chunkNum, (t.chunkTable p).isMigrating = false) := by
  obtain ⟨k, hpow⟩ := exists_overFallChunkNum_eq (scaleCapacity capacity ignoreLoadFactor)
  rw [hN] at hpow
  obtain ⟨bound, hbound⟩ := run_reloaded t hN hpow hint hk
  refine ⟨bound, fun moves st hrun => ?_⟩
  obtain ⟨hlen, hstuck, hret⟩ := hbound moves st hrun
  refine ⟨hlen, hstuck, fun t' calls hst => ?_⟩
  obtain ⟨rfl, hcalls⟩ := hret t' calls hst
  constructor
  · intro hrep
    obtain ⟨htags, hcalm⟩ := hrep.settled
    refine ⟨fun p hp i hkey => ?_, hcalm⟩
    by_contra htag
    exact htags p hp i htag hkey
  · rintro ⟨htags, hcalm⟩
    refine repaired_of_reloadable ⟨⟨k, hpow⟩, ?_,
      fun p hp i htag hkey => ?_, hcalm, hkeys⟩ hN hcalls
    · rw [userSpace]
      omega
    · exact htag (htags p hp i hkey)

end Repair

/-- What a power cut can leave in a table of one chunk: the key `5` without its tag, and in slot `1`
a deleted key, whose tag may or may not have reached the memory. -/
def tornImage (tag : UInt8) : PetHash UInt64 where
  capacity := 14
  chunkNum := 1
  size := 9
  chunkTable _ :=
    { tags := fun i => if i = 1 then tag else 0
      size := 3
      overflowCount := 77
      isMigrating := false
      value := fun i => if i = 0 then ⟨5, 7⟩ else ⟨emptyKey, 8⟩ }

theorem nodup_tornImage : ((tornImage 0).keyedEntries.map EntryT.first).Nodup := by
  decide +kernel

theorem reload_repairs_torn : ∃ bound, ∀ moves st, Run.run (Recovery.step 4)
      (start (tornImage 0) 14 true 4) moves = some st → moves.length ≤ bound ∧
      ∀ t' calls, st.returned = some (t', calls) → Repaired (tornImage 0) t' calls := by
  have hN : overFallChunkNum (scaleCapacity 14 true) = (tornImage 0).chunkNum := by decide
  obtain ⟨bound, hbound⟩ := reload_repairs_iff hN (by decide) nodup_tornImage (by decide : 1 ≤ 4)
  refine ⟨bound, fun moves st hrun => ?_⟩
  obtain ⟨hlen, -, hret⟩ := hbound moves st hrun
  refine ⟨hlen, fun t' calls hst => (hret t' calls hst).mpr ⟨fun p _ i _ => ?_, fun p _ => rfl⟩⟩
  exact ite_self 0

/-- The schedule that lets the first thread do everything. -/
def firstThread : List Move := .thread 0 :: .join :: List.replicate 16 (.thread 0)

/-- The tag of the deleted key survives `Reload`, and `mallocSetValid` is called for the key
`-1`. -/
theorem reload_keeps_stale_tag :
    ∃ st t' calls, ((tornImage 0x80).keyedEntries.map EntryT.first).Nodup ∧
    Run.run (Recovery.step 4) (start (tornImage 0x80) 14 true 4) firstThread = some st ∧
    st.returned = some (t', calls) ∧ ⟨emptyKey, 8⟩ ∈ calls ∧
      ¬ Repaired (tornImage 0x80) t' calls := by
  have heval : ((Run.run (Recovery.step 4)
    (start (tornImage 0x80) 14 true 4) firstThread).any fun st =>
      st.returned.any fun r =>
        decide (⟨emptyKey, 8⟩ ∈ r.2) && decide ((r.1.chunkTable 0).tags 1 = 0x80))
        = true := by
    decide +kernel
  simp only [Option.any_eq_true, Bool.and_eq_true, decide_eq_true_eq] at heval
  obtain ⟨st, hrun, ⟨t', calls⟩, hret, hcall, htag⟩ := heval
  refine ⟨st, t', calls, nodup_tornImage, hrun, hret, hcall, fun hrep => ?_⟩
  have hzero := hrep.tags 0 (by decide) 1
  rw [htag] at hzero
  exact absurd hzero (by decide)

/-! ### After a clean shutdown -/

/-- A table in order, without the key `-1` and with no counter stuck, is rebuilt as it is. -/
theorem recounted_eq_self {t : PetHash V} (h : t.Inv) (habs : t.Absent emptyKey)
    (hlow : ∀ p < t.chunkNum, (t.chunkTable p).overflowCount ≠ 255) :
    recounted (sized t t.chunkNum).reloadSlots = t := by
  obtain ⟨hre, hent⟩ := h.reloadable habs
  have huN := (sized t t.chunkNum).reloadSlots_chunkNum
  have hpass : ∀ p, keyedPassCount t p = t.passCount p := fun p =>
    Finset.sum_congr rfl fun s hs => by rw [h.keyedEntry_eq habs (mem_slots.mp hs)]
  have htable : ∀ p, (recounted (sized t t.chunkNum).reloadSlots).chunkTable p =
    t.chunkTable p := by
    intro p
    by_cases hp : p < t.chunkNum
    · have hsound := h.shape.sound p hp
      have hcount : min 255 ((sized t t.chunkNum).reloadSlots.passCount p)
          = (t.chunkTable p).overflowCount := by
        have hle := hsound.count
        have hne := hlow p hp
        have hexact := h.overflowCount_eq hp
        rw [passCount_reloadSlots hre, hpass]
        omega
      have hkeyed : (t.chunkTable p).keyed = (t.chunkTable p).used := by
        refine (h.shape.keyed_subset_used hp).antisymm fun i hi => ?_
        exact F14Chunk.mem_keyed.mpr (hre.tags p hp i (F14Chunk.mem_used.mp hi))
      have htags : (fun i =>
        if i ∈ (t.chunkTable p).keyed then tagOf ((t.chunkTable p).value i).first
          else (t.chunkTable p).tags i) = (t.chunkTable p).tags := by
        funext i
        split_ifs with hi
        · rw [hkeyed, F14Chunk.mem_used] at hi
          exact (hsound.tag i hi).symm
        · rfl
      rw [recounted_chunkTable t hp, hcount, htags, hkeyed, ← hsound.size]
    · rw [recounted]
      simp only
      rw [if_neg (huN.symm ▸ hp), reloadSlots]
      simp only
      rw [modifyAll_chunkTable List.nodup_range]
      exact if_neg fun hmem => hp (List.mem_range.mp hmem)
  obtain ⟨capacity, chunkNum, size, table⟩ := t
  rw [recounted, PetHash.mk.injEq]
  refine ⟨?_, huN, ?_, funext htable⟩
  · exact (modifyAll_capacity_size _ _ _).1.trans h.shape.capacity.symm
  · rw [reloadSlots_size]
    exact (congrArg Multiset.card hent).trans h.size.symm

/-- **`Reload` is the identity on a table that was shut down cleanly**, whatever the schedule of the
threads. A counter that has come to 255 stays there; so it is enough that none is there in the
end. -/
theorem reload_unchanged [Inhabited V] {capacity : ℕ} {ignoreLoadFactor : Bool} {t₀ t : PetHash V}
    (hinit : initializeTable capacity ignoreLoadFactor = some t₀) {changes : List (Change V)}
    (hok : Run.Guarded changeStep (fun t c => c.Ok t) t₀ changes)
    (hrun : Run.run changeStep t₀ changes = some t) (hkey : t.Absent emptyKey)
    (hlow : ∀ p < t.chunkNum, (t.chunkTable p).overflowCount ≠ 255) (hint : t.chunkNum ≤ 2 ^ 31)
    {kRecoveryThread : ℕ} (hk : 1 ≤ kRecoveryThread) :
    ∃ bound, ∀ moves st, Run.run (Recovery.step kRecoveryThread)
        (start t capacity ignoreLoadFactor kRecoveryThread) moves = some st →
      moves.length ≤ bound ∧
      ((∀ m, Recovery.step kRecoveryThread st m = none) → st.returned.isSome = true) ∧
      ∀ t' calls, st.returned = some (t', calls) → t' = t := by
  obtain ⟨hinv, hchunk⟩ := run_inv hinit hok hrun
  have hN := hchunk.trans (initializeTable_chunkNum hinit)
  obtain ⟨k, hpow⟩ := hinv.shape.pow
  obtain ⟨bound, hbound⟩ := run_reloaded t hN.symm hpow hint hk
  refine ⟨bound, fun moves st hmoves => ?_⟩
  obtain ⟨hlen, hstuck, hret⟩ := hbound moves st hmoves
  refine ⟨hlen, hstuck, fun t' calls hst => ?_⟩
  rw [(hret t' calls hst).1]
  exact recounted_eq_self hinv hkey hlow

/-- Sixteen keys in a table of two chunks, two of which pass over chunk `0`. -/
def evenSets : List (Change UInt64) :=
  (List.range 16).map fun i => .set (.ofNat (2 * i)) (.ofNat i) none false

theorem reload_unchanged_two_chunks :
    ∃ t₀ t : PetHash UInt64, initializeTable 28 true = some t₀ ∧
      Run.run changeStep t₀ evenSets = some t ∧ (t.chunkTable 0).overflowCount = 2 ∧
      ∃ bound, ∀ moves st, Run.run (Recovery.step 3) (start t 28 true 3) moves = some st →
        moves.length ≤ bound ∧ ∀ t' calls, st.returned = some (t', calls) → t' = t := by
  have heval : ((initializeTable 28 true : Option (PetHash UInt64)).any fun t₀ =>
      (Run.run changeStep t₀ evenSets).any fun t =>
        decide ((t.chunkTable 0).overflowCount = 2) && (decide (t.chunkNum = 2) &&
          (decide ((t.get emptyKey).toOption = some none) &&
            decide ((t.chunkTable 1).overflowCount = 0)))) = true := by
    decide +kernel
  simp only [Option.any_eq_true, Bool.and_eq_true, decide_eq_true_eq] at heval
  obtain ⟨t₀, hinit, t, hrun, hcount, hN, hget, hcount₁⟩ := heval
  have hok : Run.Guarded changeStep (fun t c => c.Ok t) t₀ evenSets :=
    (Run.guarded_of_forall (G := fun _ _ => True) (fun _ _ => trivial) t₀ evenSets).and_of_forall
      (Q := fun c => ∀ t : PetHash UInt64, c.Ok t) (fun c hc t => by
        obtain ⟨i, -, rfl⟩ := List.mem_map.mp hc
        trivial) |>.mono fun t c h => h.1 t
  have habs : t.Absent emptyKey := fun v hv => by
    rw [(run_inv hinit hok hrun).1.get_of_mem hv] at hget
    cases hget
  have hlow : ∀ p < t.chunkNum, (t.chunkTable p).overflowCount ≠ 255 := fun p hp => by
    obtain rfl | rfl : p = 0 ∨ p = 1 := by omega
    · rw [hcount]
      decide
    · rw [hcount₁]
      decide
  obtain ⟨bound, hbound⟩ := reload_unchanged hinit hok hrun habs hlow (by rw [hN]; decide)
    (by decide : 1 ≤ 3)
  refine ⟨t₀, t, hinit, hrun, hcount, bound, fun moves st hmoves => ?_⟩
  obtain ⟨hlen, -, hret⟩ := hbound moves st hmoves
  exact ⟨hlen, hret⟩

end Recovery

end PetPS

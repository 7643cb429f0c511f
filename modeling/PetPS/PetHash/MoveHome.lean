import PetPS.PetHash.Migrate

/-!
# Moving a key into a home chunk with room

Case 1 of `HotnessAwareMigration` lowers the counter of the chunk that the hot key leaves, and
none of those on its way. After it the counters on the way are too high, which does no harm to
lookups. The counter of the chunk itself may be too low; it is not if it was `0`, since then it
wraps to `255` and stays there, or `255`, or higher than the number of the keys that pass over the
chunk.

`MoveOk` collects the turns that leave no counter too low, in either case.

## Main results

* `migrateToFree_spec` — case 1
* `Good.moveKey` — one hot key, under `MoveOk`
-/

namespace PetPS

namespace PetHash

variable {V : Type}

/-- Counters that are not too low are right up to counts made ahead. -/
theorem exists_ledger {t : PetHash V} (h : ∀ c < t.chunkNum, (t.chunkTable c).overflowCount = 255 ∨
    t.passCount c ≤ (t.chunkTable c).overflowCount) : ∃ ahead, t.Ledger ahead 0 := by
  refine ⟨∑ c ∈ Finset.range t.chunkNum,
    Multiset.replicate ((t.chunkTable c).overflowCount - t.passCount c) c, fun c hc => ?_⟩
  rw [Multiset.count_sum']
  simp only [Multiset.count_replicate]
  rw [Finset.sum_ite_eq' (Finset.range t.chunkNum) c, if_pos (Finset.mem_range.mpr hc),
    Multiset.count_zero]
  rcases h c hc with hcap | hle
  · exact Or.inl hcap
  · right
    omega

/-- Lowering the counter of the chunk `cur` does not leave it below the number of the keys that pass
over the chunk. -/
def LeavesEnough (t : PetHash V) (cur : ℕ) : Prop :=
  (t.chunkTable cur).overflowCount = 255 ∨
    t.passCount cur ≤ Tally.dec 255 (t.chunkTable cur).overflowCount

instance (t : PetHash V) (cur : ℕ) : Decidable (t.LeavesEnough cur) :=
  inferInstanceAs (Decidable (_ ∨ _))

/-- **Case 1.** The entries are the same, and no counter is too low. -/
theorem migrateToFree_spec {t : PetHash V} {ahead : Multiset ℕ} (hs : t.Shape)
    (hl : t.Ledger ahead 0) {key : UInt64} {v : V} {cur : ℕ} {id : Slot} (ha : t.Away key v cur id)
    (hhome : t.Roomy (t.homeChunk key)) (hleave : t.LeavesEnough cur) :
    ∃ t' ahead', t.migrateToFree key v cur id = .ok t' ∧ t'.Shape ∧ t'.Ledger ahead' 0 ∧
      t'.entries = t.entries ∧ t'.chunkNum = t.chunkNum ∧ t'.size = t.size ∧
      ∀ q, (t'.chunkTable q).isMigrating
        = if q ∈ t.chain key cur then false else (t.chunkTable q).isMigrating := by
  obtain ⟨k, hN⟩ := hs.pow
  have hH := hs.homeChunk_lt key
  -- the key goes home
  obtain ⟨c, i, hins, hs₂, hnone, hch, hcount, hmig, -⟩ := hs.put hH hhome key v
  obtain ⟨t₂, ht₂⟩ : ∃ t₂, t₂ = t.modifyChunk (t.homeChunk key) fun _ => c := ⟨_, rfl⟩
  have hcount₂ : ∀ p, (t₂.chunkTable p).overflowCount = (t.chunkTable p).overflowCount :=
    ht₂ ▸ modifyChunk_field _ _ _ F14Chunk.overflowCount hcount
  have hmig₂ : ∀ p, (t₂.chunkTable p).isMigrating = (t.chunkTable p).isMigrating :=
    ht₂ ▸ modifyChunk_field _ _ _ F14Chunk.isMigrating hmig
  rw [← ht₂] at hs₂ hch
  have hN₂ : t₂.chunkNum = t.chunkNum := hch.chunkNum
  have hent₂ : t₂.entries = ⟨key, v⟩ ::ₘ t.entries := entries_put hch (mem_slots.mpr hH) hnone
  have hl₂ : t₂.Ledger ahead 0 := by
    have hx := hl.change hN hH hch hcount₂
    rw [hnone, Option.elim_none, Option.elim_some, trail_home hs key] at hx
    exact hx.rebalance (by simp)
  -- and leaves its slot
  have he₂ : t₂.slotEntry (cur, id) = some ⟨key, v⟩ := by
    rw [hch.other _ fun heq => ha.ne (congrArg Prod.fst heq), ha.slot]
  obtain ⟨t₃, ht₃, hst₃, hent₃, hl₃⟩ := hs₂.clearSlot hl₂ (hN₂ ▸ ha.lt) he₂
  have hN₃ : t₃.chunkNum = t.chunkNum := hst₃.change.chunkNum.trans hN₂
  have hcount₃ : (t₃.chunkTable cur).overflowCount = (t.chunkTable cur).overflowCount := by
    rw [← hcount₂, ht₃]
    exact modifyChunk_field _ _ _ F14Chunk.overflowCount rfl cur
  have hent : t₃.entries = t.entries := by
    rw [hent₂] at hent₃
    exact ((Multiset.cons_inj_right _).mp hent₃).symm
  -- the counter of the chunk it leaves
  obtain ⟨t₄, ht₄⟩ : ∃ t₄, t₄ = t₃.modifyChunk cur F14Chunk.decOverflow := ⟨_, rfl⟩
  have hr₄ : Recount t₃ t₄ := ht₄ ▸ Recount.decAt t₃ cur
  have hs₄ : t₄.Shape := ht₄ ▸ hst₃.shape.decAt cur
  have hl₄ := hl₃.decAt hst₃.shape cur
  rw [← ht₄] at hl₄
  have hN₄ : t₄.chunkNum = t.chunkNum := hr₄.chunkNum.trans hN₃
  have hcur₄ : (t₄.chunkTable cur).overflowCount =
    Tally.dec 255 (t.chunkTable cur).overflowCount := by
    rw [← hcount₃, ht₄, modifyChunk_self]
    rfl
  have hself : (t₂.trail key cur).count cur = 0 :=
    List.count_eq_zero.mpr (hs₂.notMem_trail_self key (hN₂ ▸ ha.lt))
  -- the chain
  have htrav := hs₄.chainTraverseReverse_eq key (hN₄ ▸ ha.lt) fun _ => setMigrating false
  have hnodup : (t₄.chain key cur).Nodup := Walk.nodup_chain (hs₄.coprime key) (hN₄ ▸ ha.lt)
  obtain ⟨hs₅, hsame, hfields⟩ := hs₄.mark hnodup false
  obtain ⟨ahead', hl₅⟩ := exists_ledger (t := t₄.modifyAll (t₄.chain key cur) fun _ =>
      setMigrating false) fun q hq => by
    rw [(hfields q).1, passCount_congr hsame.chunkNum hsame.entry]
    rw [hsame.chunkNum] at hq
    have hq₄ := hl₄ q hq
    by_cases hqc : q = cur
    · subst hqc
      by_cases hcap : (t.chunkTable q).overflowCount = 255
      · left
        rw [hcur₄, hcap]
        rfl
      · right
        have hpass : t₄.passCount q = t.passCount q := by
          have hbefore := (hl q (hN₄ ▸ hq)).resolve_left hcap
          have hafter := (hl₃ q (hN₃ ▸ hN₄ ▸ hq)).resolve_left (hcount₃ ▸ hcap)
          rw [passCount_congr hr₄.chunkNum hr₄.entry]
          rw [Multiset.count_add, Multiset.coe_count, hself, hcount₃] at hafter
          omega
        rw [hcur₄, hpass]
        exact hleave.resolve_left hcap
    · rw [Multiset.count_cons_of_ne hqc, Multiset.count_zero] at hq₄
      rcases hq₄ with hcap | heq
      · exact Or.inl hcap
      · right
        omega
  refine ⟨_, ahead', ?_, hs₅, hl₅, ?_, hsame.chunkNum.trans hN₄, ?_, fun q => ?_⟩
  · have hhome₄ : t₄.homeChunk key = t.homeChunk key := homeChunk_congr hN₄ key
    rw [hhome₄] at htrav
    rw [migrateToFree]
    simp only [hins]
    rw [← ht₂, ← ht₃, ← ht₄, htrav]
  · rw [hsame.entries, hr₄.entries, hent]
  · rw [hsame.size, hr₄.size, hst₃.size, ht₂]
    rfl
  · rw [(hfields q).2, hr₄.migrating, hst₃.migrating, hmig₂, chain, hN₄, homeChunk_congr hN₄, chain]

/-! ### One hot key, in either case -/

/-- The turn of `key` leaves no counter too low and runs to its end: there is nothing to do; or
the home chunk has room, and the chunk that the key leaves has a counter to spare; or the home chunk
is full, and the victim finds a place on its own probe path. -/
def MoveOk (t : PetHash V) (key : UInt64) : Prop :=
  t.InHome key ∨
    (t.Roomy (t.homeChunk key) ∧ ∀ cur id, t.getInternal key = .found cur id → t.LeavesEnough cur) ∨
    ¬ t.Roomy (t.homeChunk key) ∧ ¬ t.Full ∧ t.VictimFits key

/-- What is asked of the chunk where a lookup finds its key can be decided. -/
def Lookup.decidableFound (P : ℕ → Prop) [DecidablePred P] :
    (l : Lookup) → Decidable (∀ cur id, l = .found cur id → P cur)
  | .found cur id => decidable_of_iff (P cur)
    ⟨fun h _ _ heq => (Lookup.found.inj heq).1 ▸ h, fun h => h cur id rfl⟩
  | .absent => .isTrue fun _ _ heq => Lookup.noConfusion heq
  | .retry => .isTrue fun _ _ heq => Lookup.noConfusion heq

instance (t : PetHash V) (key : UInt64) : Decidable (t.MoveOk key) :=
  have := Lookup.decidableFound t.LeavesEnough (t.getInternal key)
  inferInstanceAs (Decidable (_ ∨ _ ∧ _ ∨ _))

/-- **One hot key.** What the table holds does not change, and no counter is too low. -/
theorem Good.moveKey {t : PetHash V} {ahead : Multiset ℕ} (h : t.Good ahead) {key : UInt64} {v : V}
    (hv : ⟨key, v⟩ ∈ t.entries) (hok : t.MoveOk key) :
    ∃ t' ahead', t.migrateKey key = .ok t' ∧ t'.Good ahead' ∧ t'.entries = t.entries ∧
      t'.chunkNum = t.chunkNum := by
  rcases hok with hin | ⟨hhome, hleave⟩ | ⟨hhome, hfull, hfits⟩
  · exact ⟨t, ahead, migrateKey_of_inHome hin, h, rfl, rfl⟩
  · rcases h.inHome_or_away hv with hin | ⟨cur, id, ha⟩
    · exact ⟨t, ahead, migrateKey_of_inHome hin, h, rfl, rfl⟩
    · obtain ⟨hs₁, hsame, hl₁, hcount₁, -⟩ := h.marked_spec key ha.lt
      have hleave₁ : (t.marked key cur).LeavesEnough cur := by
        rw [LeavesEnough, hcount₁, passCount_congr hsame.chunkNum hsame.entry]
        exact hleave cur id (h.getInternal_of_mem (s := (cur, id)) ha.lt ha.slot)
      obtain ⟨t', ahead', hrun, hs', hl', hent, hN', hsize, hmig⟩ :=
        migrateToFree_spec hs₁ hl₁ (ha.marked hsame) ((hsame.roomy_home_iff key).mpr hhome) hleave₁
      have hN := hN'.trans hsame.chunkNum
      obtain ⟨hgood, hent'⟩ := h.unmarked ha.lt hs' hl' hent hN (hsize.trans hsame.size) hmig
      refine ⟨t', ahead', ?_, hgood, hent', hN⟩
      rw [h.migrateKey_eq ha, if_pos hhome, hrun]
  · obtain ⟨t', hrun, hgood, hent, hN⟩ := h.migrateKey hfull hv (Or.inr ⟨hhome, hfits⟩)
    exact ⟨t', ahead, hrun, hgood, hent, hN⟩

end PetHash

end PetPS

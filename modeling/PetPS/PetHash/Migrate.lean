import PetPS.Lib.Run
import PetPS.PetHash.Chain
import PetPS.PetHash.Insert

/-!
# Hotness-aware migration

`HotnessAwareMigration` moves a hot key into its home chunk. With the home chunk full (case 2) it
displaces the key in slot `0`, the victim, along the victim's own probe path, and takes back one
count from every chunk of the hot key's path. That keeps the counters exact as long as the victim's
walk does not come round to the victim's own home, where its path would start anew
(`VictimFits`).

With room in the home chunk (case 1) the code takes back one count from the chunk the key leaves,
instead of from those its path passed over. The chunk it leaves loses a count that belongs to some
other key, which may become unreachable (`migration_loses_key`).

## Main results

* `placeVictim_spec` — the walk of the victim
* `Good.migrateKey` — one hot key, under `MigrationOk`
* `migration_preserves_table` — whole runs
-/

namespace PetPS

namespace PetHash

variable {V : Type}

/-! ### Updates of counters and marks -/

/-- An update of a chunk that leaves its slots alone. -/
structure KeepsSlots (f : F14Chunk V → F14Chunk V) : Prop where
  /-- The tags are kept. -/
  tags : ∀ c, (f c).tags = c.tags
  /-- The items are kept. -/
  value : ∀ c, (f c).value = c.value
  /-- The count is kept. -/
  size : ∀ c, (f c).size = c.size

theorem keepsSlots_setMigrating (b : Bool) :
    KeepsSlots (setMigrating b : F14Chunk V → F14Chunk V) :=
  ⟨fun _ => rfl, fun _ => rfl, fun _ => rfl⟩

theorem sameSlots_modifyAll {ps : List ℕ} (hnodup : ps.Nodup) (t : PetHash V)
    (func : ℕ → F14Chunk V → F14Chunk V) (hf : ∀ p, KeepsSlots (func p)) :
    SameSlots t (t.modifyAll ps func) where
  chunkNum := modifyAll_chunkNum t ps func
  capacity := (modifyAll_capacity_size t ps func).1
  size := (modifyAll_capacity_size t ps func).2
  tags p := by
    rw [modifyAll_chunkTable hnodup]
    split_ifs
    exacts [(hf p).tags _, rfl]
  value p := by
    rw [modifyAll_chunkTable hnodup]
    split_ifs
    exacts [(hf p).value _, rfl]
  chunkSize p := by
    rw [modifyAll_chunkTable hnodup]
    split_ifs
    exacts [(hf p).size _, rfl]

theorem SameSlots.shape {t t' : PetHash V} (h : SameSlots t t') (hs : t.Shape)
    (hcount : ∀ p < t.chunkNum, (t'.chunkTable p).overflowCount ≤ 255) : t'.Shape where
  pow := by rw [h.chunkNum]; exact hs.pow
  fits := by rw [h.chunkNum]; exact hs.fits
  capacity := by rw [h.chunkNum, h.capacity]; exact hs.capacity
  sound p hp := by
    rw [h.chunkNum] at hp
    have hp' := hs.sound p hp
    refine ⟨fun i => ?_, fun i => ?_, ?_, hcount p hp⟩
    · rw [h.tags, h.value]; exact hp'.tag i
    · rw [h.tags, h.value]; exact hp'.empty i
    · rw [h.chunkSize, hp'.size]
      refine congrArg Finset.card (Finset.ext fun i => ?_)
      rw [F14Chunk.mem_used, F14Chunk.mem_used, h.tags]

/-- **Marking a chain** changes nothing but the marks. -/
theorem Shape.mark {t : PetHash V} (h : t.Shape) {ps : List ℕ} (hnodup : ps.Nodup) (b : Bool) :
    (t.modifyAll ps fun _ => setMigrating b).Shape ∧
      SameSlots t (t.modifyAll ps fun _ => setMigrating b) ∧
      ∀ q, ((t.modifyAll ps fun _ => setMigrating b).chunkTable q).overflowCount
          = (t.chunkTable q).overflowCount ∧
        ((t.modifyAll ps fun _ => setMigrating b).chunkTable q).isMigrating
          = if q ∈ ps then b else (t.chunkTable q).isMigrating := by
  have hsame := sameSlots_modifyAll hnodup t (fun _ => setMigrating b) fun _ =>
    keepsSlots_setMigrating b
  have hfield : ∀ q, ((t.modifyAll ps fun _ => setMigrating b).chunkTable q).overflowCount
      = (t.chunkTable q).overflowCount := fun q => by
    rw [modifyAll_chunkTable hnodup]
    split_ifs <;> rfl
  refine ⟨hsame.shape h fun p hp => hfield p ▸ (h.sound p hp).count, hsame, fun q => ⟨hfield q, ?_⟩⟩
  rw [modifyAll_chunkTable hnodup]
  split_ifs <;> rfl

/-- The last traversal of case 2: unmark the chain, and take back a count from every chunk of it
but `cur`. -/
theorem Shape.unmarkDec {t : PetHash V} (h : t.Shape) (key : UInt64) {cur : ℕ}
    (hcur : cur < t.chunkNum) {plus minus : Multiset ℕ} (hl : t.Ledger plus minus) :
    ∃ t', t.chainTraverseReverse (t.homeChunk key) cur (stepOf key) (fun pos c =>
        if pos = cur then setMigrating false c else (setMigrating false c).decOverflow) = .ok t' ∧
      t'.Shape ∧ SameSlots t t' ∧ t'.Ledger plus (t.trail key cur + minus) ∧
      ∀ q, (t'.chunkTable q).isMigrating
        = if q ∈ t.chain key cur then false else (t.chunkTable q).isMigrating := by
  obtain ⟨k, hN⟩ := h.pow
  have hnodup : (t.chain key cur).Nodup := Walk.nodup_chain (h.coprime key) hcur
  set func : ℕ → F14Chunk V → F14Chunk V := fun pos c =>
    if pos = cur then setMigrating false c else (setMigrating false c).decOverflow with hfunc
  have hkeep : ∀ p, KeepsSlots (func p) := fun p => by
    simp only [hfunc]
    split_ifs
    · exact keepsSlots_setMigrating false
    · exact ⟨fun _ => rfl, fun _ => rfl, fun _ => rfl⟩
  have hsame := sameSlots_modifyAll hnodup t func hkeep
  -- the chunks of the chain other than `cur` are those of the trail
  have hcount : ∀ q < t.chunkNum, ((t.modifyAll (t.chain key cur) func).chunkTable q).overflowCount
      = if q ∈ t.trail key cur then Tally.dec 255 (t.chunkTable q).overflowCount
        else (t.chunkTable q).overflowCount := by
    intro q hq
    rw [modifyAll_chunkTable hnodup]
    have hmem := h.mem_chain key hcur hq
    have hself := h.notMem_trail_self key hcur
    by_cases hqc : q = cur
    · subst hqc
      rw [if_pos (hmem.mpr (Or.inr rfl)), if_neg hself]
      simp [hfunc, setMigrating]
    · by_cases hqt : q ∈ t.trail key cur
      · rw [if_pos (hmem.mpr (Or.inl hqt)), if_pos hqt]
        simp only [hfunc, if_neg hqc]
        rfl
      · rw [if_neg fun hx => (hmem.mp hx).elim hqt hqc, if_neg hqt]
  refine ⟨_, h.chainTraverseReverse_eq key hcur func, hsame.shape h fun p hp => ?_, hsame,
    fun c hc => ?_, fun q => ?_⟩
  · rw [hcount p hp]
    have hle := (h.sound p hp).count
    split_ifs
    exacts [Tally.dec_le hle, hle]
  · rw [hsame.chunkNum] at hc
    have hle := (h.sound c hc).count
    have htrail : (t.trail key cur).Nodup :=
      Walk.nodup_trail (h.coprime key) (h.homeChunk_lt key) hcur
    rw [hcount c hc, passCount_congr hsame.chunkNum hsame.entry, Multiset.count_add,
      Multiset.coe_count, htrail.count]
    by_cases hct : c ∈ t.trail key cur
    · rw [if_pos hct, if_pos hct, Nat.add_comm]
      exact (hl c hc).dec hle
    · rw [if_neg hct, if_neg hct, Nat.zero_add]
      exact hl c hc
  · rw [modifyAll_chunkTable hnodup]
    split_ifs
    · simp only [hfunc]
      split_ifs <;> rfl
    · rfl

/-! ### The walk of the victim -/

/-- The `i`-th chunk of the walk along the probe step of `key` that starts at chunk `start`. -/
def walkFrom (t : PetHash V) (key : UInt64) (start i : ℕ) : ℕ :=
  Walk.strideAt t.chunkNum (stepOf key) start i

theorem walkFrom_congr {t t' : PetHash V} (h : t'.chunkNum = t.chunkNum)
    (key : UInt64) (start : ℕ) :
    t'.walkFrom key start = t.walkFrom key start := by
  funext i
  rw [walkFrom, walkFrom, h]

/-- `t'` is `t` with the entry `e` put into the empty slot `s`, up to counters. -/
structure Placed (t t' : PetHash V) (s : ℕ × Slot) (e : EntryT V) : Prop where
  /-- The slot was empty. -/
  empty : t.slotEntry s = none
  /-- It holds `e`, and the other slots are as they were. -/
  change : SlotChange t t' s (some e)
  /-- The capacity is the same. -/
  capacity : t'.capacity = t.capacity
  /-- `size_` is not touched. -/
  size : t'.size = t.size
  /-- The marks are the same. -/
  migrating : ∀ p, (t'.chunkTable p).isMigrating = (t.chunkTable p).isMigrating
  /-- No counter is lowered. -/
  counts : ∀ p, (t.chunkTable p).overflowCount ≤ (t'.chunkTable p).overflowCount

/-- **The victim's walk.** It raises the counters of the full chunks it meets and puts the victim
into the first chunk with room, the `m`-th of the walk. -/
theorem placeVictim_spec (victim : EntryT V) {start : ℕ} :
    ∀ (fuel j m : ℕ) {t : PetHash V} {plus minus : Multiset ℕ}, t.Shape → t.Ledger plus minus →
      ¬ t.Full → j ≤ m → m < j + fuel →
      (∀ i, j ≤ i → i < m → ¬ t.Roomy (t.walkFrom victim.first start i)) →
      t.Roomy (t.walkFrom victim.first start m) → start ≠ t.walkFrom victim.first start m →
      ∃ t' id, placeVictim victim start fuel (t.walkFrom victim.first start j) t = .ok t' ∧
        t'.Shape ∧ Placed t t' (t.walkFrom victim.first start m, id) victim ∧
        t'.Ledger (plus + ((List.range' j (m - j)).map (t.walkFrom victim.first start) : List ℕ))
          (minus + t.trail victim.first (t.walkFrom victim.first start m)) ∧
        ∀ i, j ≤ i → i < m →
          0 < (t'.chunkTable (t.walkFrom victim.first start i)).overflowCount := by
  intro fuel
  induction fuel with
  | zero => intro j m t plus minus _ _ _ _ hm; omega
  | succ fuel ih =>
    intro j m t plus minus hs hl hfull hjm hm hocc hroom hne
    have hpos : ∀ i, t.walkFrom victim.first start i < t.chunkNum :=
      fun i => Walk.strideAt_lt hs.chunkNum_pos
    rw [placeVictim]
    rcases Nat.eq_or_lt_of_le hjm with rfl | hlt
    · -- this chunk has room
      obtain ⟨k, hN⟩ := hs.pow
      obtain ⟨c, id, hins, hs', hnone, hch, hcount, hmig, -⟩ :=
        hs.put (hpos j) hroom victim.first victim.second
      have hsize : (t.chunkTable (t.walkFrom victim.first start j)).size ≠ 14 := Nat.ne_of_lt hroom
      rw [if_pos hsize, hins]
      simp only [if_neg hne]
      refine ⟨_, id, rfl, hs', ⟨hnone, hch, rfl, rfl, fun p => ?_, fun p => ?_⟩, ?_,
        fun i hi hlt => absurd hlt (by omega)⟩
      · exact modifyChunk_field _ _ _ F14Chunk.isMigrating hmig p
      · exact (modifyChunk_field _ _ _ F14Chunk.overflowCount hcount p).ge
      · have hx := hl.change hN (hpos j) hch fun p =>
          modifyChunk_field _ _ _ F14Chunk.overflowCount hcount p
        rw [hnone] at hx
        simpa using hx
    · -- a full chunk: raise its counter and go on
      have hfullc := hocc j le_rfl hlt
      have hle := (hs.sound _ (hpos j)).size_le
      have hsize : ¬ (t.chunkTable (t.walkFrom victim.first start j)).size ≠ 14 := by
        rw [Roomy] at hfullc
        omega
      rw [if_neg hsize, if_neg hfull]
      set t₁ := t.modifyChunk (t.walkFrom victim.first start j) F14Chunk.incOverflow with ht₁
      have hr : Recount t t₁ := Recount.incAt t _
      have hw : t₁.walkFrom victim.first start = t.walkFrom victim.first start :=
        walkFrom_congr hr.chunkNum _ _
      have hnext : t.nextPos (stepOf victim.first) (t.walkFrom victim.first start j)
          = t.walkFrom victim.first start (j + 1) := by
        rw [hs.nextPos_eq, walkFrom, Walk.stride_strideAt, walkFrom]
      have hrest := ih (j + 1) m (hs.incAt (t.walkFrom victim.first start j))
        (hl.incAt (t.walkFrom victim.first start j))
      rw [← ht₁, hw, trail_congr hr.chunkNum] at hrest
      obtain ⟨t', id, hrun, hs', hplaced, hl', hraised⟩ :=
        hrest (hr.full_iff.not.mpr hfull) hlt (by omega)
        (fun i hi him => (hr.roomy_iff _).not.mpr (hocc i (by omega) him))
        ((hr.roomy_iff _).mpr hroom) hne
      have hcounts : ∀ p, (t.chunkTable p).overflowCount ≤ (t₁.chunkTable p).overflowCount := by
        intro p
        by_cases hp : p = t.walkFrom victim.first start j
        · rw [hp, ht₁, modifyChunk_self]
          exact Tally.le_inc
        · rw [ht₁, modifyChunk_of_ne _ _ _ hp]
      rw [hnext]
      refine ⟨t', id, hrun, hs', ?_, ?_, fun i hi him => ?_⟩
      · refine ⟨(hr.entry _).symm.trans hplaced.empty, ⟨hplaced.change.chunkNum.trans hr.chunkNum,
          hplaced.change.self, fun s' hs' => ?_⟩, hplaced.capacity.trans hr.capacity,
          hplaced.size.trans hr.size, fun p => ?_, fun p => (hcounts p).trans (hplaced.counts p)⟩
        · exact (hplaced.change.other s' hs').trans (hr.entry s')
        · exact (hplaced.migrating p).trans (hr.migrating p)
      · rw [show m - j = m - (j + 1) + 1 by omega, List.range'_succ, List.map_cons,
          ← Multiset.cons_coe, Multiset.add_cons, ← Multiset.cons_add]
        exact hl'
      · rcases Nat.eq_or_lt_of_le hi with rfl | hlater
        · refine lt_of_lt_of_le ?_ (hplaced.counts _)
          rw [ht₁, modifyChunk_self]
          exact Tally.inc_pos (by decide)
        · exact hraised i hlater him

/-- The victim's walk continues its probe path, as long as it does not come round to its home. -/
theorem Shape.walkFrom_eq_probeAt {t : PetHash V} (h : t.Shape) (key : UInt64) {start m : ℕ}
    (hstart : start < t.chunkNum)
    (hhome : ∀ i, 0 < i → i ≤ m → t.walkFrom key start i ≠ t.homeChunk key) :
    t.stepsTo key start + m < t.chunkNum ∧
      ∀ i, t.walkFrom key start i = t.probeAt key (t.stepsTo key start + i) := by
  have hlt := h.stepsTo_lt key hstart
  have hwalk : ∀ i, t.walkFrom key start i = t.probeAt key (t.stepsTo key start + i) := fun i => by
    have hat := h.probeAt_stepsTo key hstart
    rw [probeAt] at hat
    rw [walkFrom, probeAt, ← Walk.strideAt_strideAt, hat]
  refine ⟨?_, hwalk⟩
  -- otherwise the walk is back home after `chunkNum - stepsTo` turns
  by_contra hlong
  refine hhome (t.chunkNum - t.stepsTo key start) (by omega) (by omega) ?_
  rw [hwalk, show t.stepsTo key start + (t.chunkNum - t.stepsTo key start) =
    0 + t.chunkNum by omega,
    probeAt, Walk.strideAt_add_self, Walk.strideAt_zero (h.homeChunk_lt key)]

theorem Shape.trail_walkFrom {t : PetHash V} (h : t.Shape) (key : UInt64) {start m : ℕ}
    (hstart : start < t.chunkNum)
    (hhome : ∀ i, 0 < i → i ≤ m → t.walkFrom key start i ≠ t.homeChunk key) :
    t.trail key (t.walkFrom key start m)
      = t.trail key start ++ (List.range m).map (t.walkFrom key start) := by
  obtain ⟨hshort, hwalk⟩ := h.walkFrom_eq_probeAt key hstart hhome
  rw [hwalk m, h.trail_probeAt key hshort, walked, List.range_add, List.map_append, List.map_map]
  have hlt := h.stepsTo_lt key hstart
  have hfirst := h.trail_probeAt key hlt
  rw [h.probeAt_stepsTo key hstart] at hfirst
  rw [hfirst]
  refine congrArg _ (List.map_congr_left fun i _ => ?_)
  rw [hwalk, Function.comp_apply]

/-! ### The two stores of step 2.3 -/

/-- `t'` is `t` after an update of one slot, with the ledger that follows. -/
structure Stored (t t' : PetHash V) (s : ℕ × Slot) (o : Option (EntryT V)) : Prop where
  /-- The table is still well formed. -/
  shape : t'.Shape
  /-- The slot holds `o`. -/
  change : SlotChange t t' s o
  /-- `size_` is not touched. -/
  size : t'.size = t.size
  /-- The marks are the same. -/
  migrating : ∀ p, (t'.chunkTable p).isMigrating = (t.chunkTable p).isMigrating

theorem Shape.overwriteSlot {t : PetHash V} (h : t.Shape) {plus minus : Multiset ℕ}
    (hl : t.Ledger plus minus) {pos : ℕ} {i : Slot} {e : EntryT V} (hp : pos < t.chunkNum)
    (he : t.slotEntry (pos, i) = some e) (key : UInt64) (v : V) :
    ∃ t', t' = t.modifyChunk pos (fun c => c.set i (tagOf key) ⟨key, v⟩) ∧
      Stored t t' (pos, i) (some ⟨key, v⟩) ∧ e ::ₘ t'.entries = ⟨key, v⟩ ::ₘ t.entries ∧
      t'.Ledger (plus + t.trail e.first pos) (minus + t.trail key pos) := by
  obtain ⟨k, hN⟩ := h.pow
  obtain ⟨hs', hch⟩ := h.overwrite hp (F14Chunk.entry_eq_some.mp he).1 key v
  refine ⟨_, rfl, ⟨hs', hch, rfl, modifyChunk_field _ _ _ F14Chunk.isMigrating rfl⟩,
    entries_replace hch (mem_slots.mpr hp) he, ?_⟩
  have hl' := hl.change hN hp hch (modifyChunk_field _ _ _ F14Chunk.overflowCount rfl)
  rwa [he] at hl'

theorem Shape.clearSlot {t : PetHash V} (h : t.Shape) {plus minus : Multiset ℕ}
    (hl : t.Ledger plus minus) {pos : ℕ} {i : Slot} {e : EntryT V} (hp : pos < t.chunkNum)
    (he : t.slotEntry (pos, i) = some e) :
    ∃ t', t' = t.modifyChunk pos (fun c => c.delete i) ∧ Stored t t' (pos, i) none ∧
      t.entries = e ::ₘ t'.entries ∧ t'.Ledger (plus + t.trail e.first pos) minus := by
  obtain ⟨k, hN⟩ := h.pow
  obtain ⟨hs', hch⟩ := h.clear hp (F14Chunk.entry_eq_some.mp he).1
  refine ⟨_, rfl, ⟨hs', hch, rfl, modifyChunk_field _ _ _ F14Chunk.isMigrating rfl⟩,
    entries_clear hch (mem_slots.mpr hp) he, ?_⟩
  have hl' := hl.change hN hp hch (modifyChunk_field _ _ _ F14Chunk.overflowCount rfl)
  rwa [he, Option.elim_none, add_zero] at hl'

/-! ### One hot key -/

/-- The entry case 2 displaces. -/
def victimOf (t : PetHash V) (key : UInt64) : EntryT V := (t.chunkTable (t.homeChunk key)).value 0

/-- The walk of the victim finds a chunk with room before it meets the victim's own home chunk. -/
def VictimFits (t : PetHash V) (key : UInt64) : Prop :=
  ∃ m < t.chunkNum, t.Roomy (t.walkFrom (t.victimOf key).first (t.homeChunk key) m) ∧
    ∀ i < m + 1, 0 < i → t.walkFrom (t.victimOf key).first (t.homeChunk key) i
      ≠ t.homeChunk (t.victimOf key).first

instance (t : PetHash V) (key : UInt64) : Decidable (t.VictimFits key) :=
  inferInstanceAs (Decidable (∃ m < t.chunkNum, _))

/-- The hot key is in its home chunk already. -/
def InHome (t : PetHash V) (key : UInt64) : Prop :=
  ((t.chunkTable (t.homeChunk key)).find key (tagOf key)).isSome = true

instance (t : PetHash V) (key : UInt64) : Decidable (t.InHome key) :=
  inferInstanceAs (Decidable (_ = true))

/-- The migration of `key` keeps the counters exact: there is nothing to do, or the home chunk is
full and the victim finds a place on its own probe path. -/
def MigrationOk (t : PetHash V) (key : UInt64) : Prop :=
  t.InHome key ∨ ¬ t.Roomy (t.homeChunk key) ∧ t.VictimFits key

instance (t : PetHash V) (key : UInt64) : Decidable (t.MigrationOk key) :=
  inferInstanceAs (Decidable (_ ∨ _))

theorem trail_home {t : PetHash V} (h : t.Shape) (key : UInt64) :
    t.trail key (t.homeChunk key) = [] :=
  Walk.trail_self (h.coprime key) (h.homeChunk_lt key)

/-- The first chunk with room on the victim's walk. -/
theorem VictimFits.exists_first {t : PetHash V} {key : UInt64} (h : t.VictimFits key)
    (hs : t.Shape) (hfull : ¬ t.Roomy (t.homeChunk key)) :
    ∃ m, 0 < m ∧ m < t.chunkNum ∧
      t.Roomy (t.walkFrom (t.victimOf key).first (t.homeChunk key) m) ∧
      (∀ i < m, ¬ t.Roomy (t.walkFrom (t.victimOf key).first (t.homeChunk key) i)) ∧
      ∀ i, 0 < i → i ≤ m → t.walkFrom (t.victimOf key).first (t.homeChunk key) i
        ≠ t.homeChunk (t.victimOf key).first := by
  obtain ⟨m, hm, hroom, hhome⟩ := h
  have hex : ∃ m, t.Roomy (t.walkFrom (t.victimOf key).first (t.homeChunk key) m) := ⟨m, hroom⟩
  have hle : Nat.find hex ≤ m := Nat.find_min' hex hroom
  have hzero : t.walkFrom (t.victimOf key).first (t.homeChunk key) 0 = t.homeChunk key :=
    Walk.strideAt_zero (hs.homeChunk_lt key)
  refine ⟨Nat.find hex, Nat.pos_of_ne_zero fun h0 => hfull ?_, by omega, Nat.find_spec hex,
    fun i hi => Nat.find_min hex hi, fun i hi him => hhome i (by omega) hi⟩
  have hspec := Nat.find_spec hex
  rwa [h0, hzero] at hspec

section SameSlots

variable {t t' : PetHash V} (h : SameSlots t t')
include h

theorem SameSlots.roomy_home_iff (key : UInt64) :
    t'.Roomy (t'.homeChunk key) ↔ t.Roomy (t.homeChunk key) := by
  rw [homeChunk_congr h.chunkNum, h.roomy_iff]

theorem SameSlots.victimOf (key : UInt64) : t'.victimOf key = t.victimOf key := by
  rw [PetHash.victimOf, homeChunk_congr h.chunkNum, h.value, PetHash.victimOf]

theorem SameSlots.chain (key : UInt64) (cur : ℕ) : t'.chain key cur = t.chain key cur := by
  rw [PetHash.chain, h.chunkNum, homeChunk_congr h.chunkNum, PetHash.chain]

end SameSlots

theorem VictimFits.sameSlots {t t' : PetHash V} {key : UInt64} (h : t.VictimFits key)
    (hsame : SameSlots t t') : t'.VictimFits key := by
  obtain ⟨m, hm, hroom, hown⟩ := h
  have hhome := homeChunk_congr hsame.chunkNum key
  refine ⟨m, hsame.chunkNum ▸ hm, ?_, fun i hi h0 => ?_⟩
  · rw [hsame.victimOf, hhome, walkFrom_congr hsame.chunkNum, hsame.roomy_iff]
    exact hroom
  · rw [hsame.victimOf, hhome, walkFrom_congr hsame.chunkNum, homeChunk_congr hsame.chunkNum]
    exact hown i hi h0

/-- Step 2.2 of the turn of `key` has put the victim into slot `id` of the `m`-th chunk of its
walk. -/
structure VictimPlaced (t : PetHash V) (key : UInt64) (ahead : Multiset ℕ) (m : ℕ) (t' : PetHash V)
    (id : Slot) : Prop where
  run : placeVictim (t.victimOf key) (t.homeChunk key) t.chunkNum
    (t.nextPos (stepOf (t.victimOf key).first) (t.homeChunk key)) t = .ok t'
  shape : t'.Shape
  placed : Placed t t' (t.walkFrom (t.victimOf key).first (t.homeChunk key) m, id) (t.victimOf key)
  ledger : t'.Ledger
    (ahead + ((List.range' 1 (m - 1)).map
      (t.walkFrom (t.victimOf key).first (t.homeChunk key)) : List ℕ))
    (0 + t.trail (t.victimOf key).first (t.walkFrom (t.victimOf key).first (t.homeChunk key) m))
  raised : ∀ i, 1 ≤ i → i < m →
    0 < (t'.chunkTable (t.walkFrom (t.victimOf key).first (t.homeChunk key) i)).overflowCount
  pos : 0 < m
  away : t.homeChunk key ≠ t.walkFrom (t.victimOf key).first (t.homeChunk key) m
  own : ∀ i, 0 < i → i ≤ m → t.walkFrom (t.victimOf key).first (t.homeChunk key) i
    ≠ t.homeChunk (t.victimOf key).first

theorem walkFrom_zero {t : PetHash V} (key : UInt64) {start : ℕ} (h : start < t.chunkNum) :
    t.walkFrom key start 0 = start := Walk.strideAt_zero h

theorem VictimFits.exists_placed {t : PetHash V} {key : UInt64} (h : t.VictimFits key)
    (hs : t.Shape) {ahead : Multiset ℕ} (hl : t.Ledger ahead 0) (hfull : ¬ t.Full)
    (hhome : ¬ t.Roomy (t.homeChunk key)) :
    ∃ m t' id, t.VictimPlaced key ahead m t' id := by
  obtain ⟨m, hm0, hmN, hroom, hocc, hown⟩ := h.exists_first hs hhome
  have hH := hs.homeChunk_lt key
  have hnext : t.nextPos (stepOf (t.victimOf key).first) (t.homeChunk key)
      = t.walkFrom (t.victimOf key).first (t.homeChunk key) 1 := by
    have hturn : Walk.stride t.chunkNum (stepOf (t.victimOf key).first)
        (t.walkFrom (t.victimOf key).first (t.homeChunk key) 0)
          = t.walkFrom (t.victimOf key).first (t.homeChunk key) 1 := Walk.stride_strideAt
    rwa [walkFrom_zero _ hH, ← hs.nextPos_eq] at hturn
  have hmne : t.homeChunk key ≠ t.walkFrom (t.victimOf key).first (t.homeChunk key) m :=
    fun heq => hhome (heq ▸ hroom)
  obtain ⟨t', id, hrun, hs', hplaced, hl', hraised⟩ :=
    placeVictim_spec (t.victimOf key) t.chunkNum 1 m
    hs hl hfull hm0 (by omega) (fun i _ him => hocc i him) hroom hmne
  exact ⟨m, t', id, hnext ▸ hrun, hs', hplaced, hl', hraised, hm0, hmne, hown⟩

/-- A full home chunk has its victim in slot `0`. -/
theorem Shape.slotEntry_victim {t : PetHash V} (h : t.Shape) {key : UInt64}
    (hhome : ¬ t.Roomy (t.homeChunk key)) :
    t.slotEntry (t.homeChunk key, 0) = some (t.victimOf key) := by
  have hsound := h.sound _ (h.homeChunk_lt key)
  have hle := hsound.size_le
  exact F14Chunk.entry_eq_some.mpr ⟨hsound.inUse_of_full (by rw [Roomy] at hhome; omega) 0, rfl⟩

/-- **Case 2.** The entries are the same, and the counters exact. -/
theorem migrateByVictim_spec {t : PetHash V} {ahead : Multiset ℕ} (hs : t.Shape)
    (hl : t.Ledger ahead 0) (hfull : ¬ t.Full) {key : UInt64} {v : V} {cur : ℕ} {id : Slot}
    (hcur : cur < t.chunkNum)
    (he : t.slotEntry (cur, id) = some ⟨key, v⟩) (hne : cur ≠ t.homeChunk key)
    (hhome : ¬ t.Roomy (t.homeChunk key)) (hfits : t.VictimFits key) :
    ∃ t', t.migrateByVictim key v cur id = .ok t' ∧ t'.Shape ∧ t'.Ledger ahead 0 ∧
      t'.entries = t.entries ∧ t'.chunkNum = t.chunkNum ∧ t'.size = t.size ∧
      ∀ q, (t'.chunkTable q).isMigrating
        = if q ∈ t.chain key cur then false else (t.chunkTable q).isMigrating := by
  have hH := hs.homeChunk_lt key
  have hvic := hs.slotEntry_victim hhome
  have huse : (t.chunkTable (t.homeChunk key)).InUse 0 := (F14Chunk.entry_eq_some.mp hvic).1
  -- step 2.2
  obtain ⟨m, t₂, id₂, hplace, hs₂, hplaced, hl₂, -, hm0, hmne, hown⟩ :=
    hfits.exists_placed hs hl hfull hhome
  have hwalkm := hs.trail_walkFrom (t.victimOf key).first hH hown
  have hmlt : t.walkFrom (t.victimOf key).first (t.homeChunk key) m < t.chunkNum :=
    Walk.strideAt_lt hs.chunkNum_pos
  have hN₂ : t₂.chunkNum = t.chunkNum := hplaced.change.chunkNum
  have hent₂ : t₂.entries = t.victimOf key ::ₘ t.entries :=
    entries_put hplaced.change (mem_slots.mpr hmlt) hplaced.empty
  -- step 2.3: the counter of the home chunk
  obtain ⟨t₃, ht₃⟩ : ∃ t₃, t₃ = t₂.modifyChunk (t.homeChunk key) F14Chunk.incOverflow := ⟨_, rfl⟩
  have hr₃ : Recount t₂ t₃ := ht₃ ▸ Recount.incAt t₂ _
  have hs₃ : t₃.Shape := ht₃ ▸ hs₂.incAt _
  have hl₃ := hl₂.incAt (t.homeChunk key)
  rw [← ht₃] at hl₃
  have hN₃ : t₃.chunkNum = t.chunkNum := hr₃.chunkNum.trans hN₂
  have hvic₃ : t₃.slotEntry (t.homeChunk key, 0) = some (t.victimOf key) := by
    rw [hr₃.entry, hplaced.change.other _ fun heq => hmne (congrArg Prod.fst heq), hvic]
  -- the hot key takes the slot of the victim
  obtain ⟨t₄, ht₄, hst₄, hent₄, hl₄⟩ := hs₃.overwriteSlot hl₃ (hN₃ ▸ hH) hvic₃ key v
  have hN₄ : t₄.chunkNum = t.chunkNum := hst₄.change.chunkNum.trans hN₃
  have he₄ : t₄.slotEntry (cur, id) = some ⟨key, v⟩ := by
    rw [hst₄.change.other _ fun heq => hne (congrArg Prod.fst heq), hr₃.entry,
      hplaced.change.other, he]
    intro heq
    rw [heq, hplaced.empty] at he
    simp at he
  -- and leaves its own
  obtain ⟨t₅, ht₅, hst₅, hent₅, hl₅⟩ := hst₄.shape.clearSlot hl₄ (hN₄ ▸ hcur) he₄
  have hN₅ : t₅.chunkNum = t.chunkNum := hst₅.change.chunkNum.trans hN₄
  have hent : t₅.entries = t.entries := by
    rw [hent₅, hr₃.entries, hent₂, Multiset.cons_swap] at hent₄
    exact (Multiset.cons_inj_right _).mp ((Multiset.cons_inj_right _).mp hent₄)
  -- the chain of the hot key
  obtain ⟨t₆, htrav, hs₆, hsame₆, hl₆, hmig₆⟩ := hst₅.shape.unmarkDec key (hN₅ ▸ hcur) hl₅
  rw [homeChunk_congr hN₅] at htrav
  refine ⟨t₆, ?_, hs₆, ?_, hsame₆.entries.trans hent, hsame₆.chunkNum.trans hN₅, ?_, fun q => ?_⟩
  · rw [migrateByVictim]
    simp only [if_pos huse]
    rw [← victimOf, hplace]
    simp only
    rw [← ht₃, ← ht₄, ← ht₅, htrav]
  · rw [trail_congr hN₃, trail_congr hN₃, trail_congr hN₄, trail_congr hN₅, hwalkm,
      trail_home hs key] at hl₆
    have hrange : (List.range m).map (t.walkFrom (t.victimOf key).first (t.homeChunk key))
        = t.homeChunk key ::
          (List.range' 1 (m - 1)).map (t.walkFrom (t.victimOf key).first (t.homeChunk key)) := by
      obtain ⟨n, rfl⟩ : ∃ n, m = n + 1 := ⟨m - 1, by omega⟩
      rw [List.range_eq_range', List.range'_succ, List.map_cons, walkFrom_zero _ hH,
        Nat.add_sub_cancel]
    refine hl₆.rebalance ?_
    rw [hrange, ← Multiset.coe_add, ← Multiset.cons_coe, ← Multiset.singleton_add,
      ← Multiset.singleton_add, Multiset.coe_nil]
    abel
  · rw [hsame₆.size, hst₅.size, hst₄.size, hr₃.size, hplaced.size]
  · rw [hmig₆ q, hst₅.migrating, hst₄.migrating, hr₃.migrating, hplaced.migrating, chain, hN₅,
      homeChunk_congr hN₅, chain]

/-- The hot key `key` is in slot `id` of the chunk `cur`, which is not its home. -/
structure Away (t : PetHash V) (key : UInt64) (v : V) (cur : ℕ) (id : Slot) : Prop where
  lt : cur < t.chunkNum
  slot : t.slotEntry (cur, id) = some ⟨key, v⟩
  ne : cur ≠ t.homeChunk key
  find : (t.chunkTable (t.homeChunk key)).find key (tagOf key) = none

theorem Good.inHome_or_away {t : PetHash V} {ahead : Multiset ℕ} (h : t.Good ahead) {key : UInt64}
    {v : V} (hv : ⟨key, v⟩ ∈ t.entries) : t.InHome key ∨ ∃ cur id, t.Away key v cur id := by
  obtain ⟨⟨cur, id⟩, hcur, he⟩ := mem_entries.mp hv
  cases hfind : (t.chunkTable (t.homeChunk key)).find key (tagOf key) with
  | some i => exact Or.inl (by rw [InHome, hfind]; rfl)
  | none =>
    refine Or.inr ⟨cur, id, hcur, he, ?_, hfind⟩
    rintro rfl
    exact h.shape.find_ne_none (s := (t.homeChunk key, id)) hcur he hfind

theorem Away.not_inHome {t : PetHash V} {key : UInt64} {v : V} {cur : ℕ} {id : Slot}
    (h : t.Away key v cur id) : ¬ t.InHome key := by
  rw [InHome, h.find]
  exact Bool.false_ne_true

/-- The table with the chain of the hot key marked. -/
def marked (t : PetHash V) (key : UInt64) (cur : ℕ) : PetHash V :=
  t.modifyAll (t.chain key cur) fun _ => setMigrating true

theorem migrateKey_of_inHome {t : PetHash V} {key : UInt64} (h : t.InHome key) :
    t.migrateKey key = .ok t := by
  obtain ⟨i, hfind⟩ := Option.isSome_iff_exists.mp h
  rw [migrateKey]
  simp only [hfind]

/-- **The turn of a hot key** that is away from its home. -/
theorem Good.migrateKey_eq {t : PetHash V} {ahead : Multiset ℕ} (h : t.Good ahead) {key : UInt64}
    {v : V} {cur : ℕ} {id : Slot} (ha : t.Away key v cur id) :
    t.migrateKey key
      = if t.Roomy (t.homeChunk key) then (t.marked key cur).migrateToFree key v cur id
        else (t.marked key cur).migrateByVictim key v cur id := by
  have hget := h.getInternal_of_mem (s := (cur, id)) ha.lt ha.slot
  have hval : (t.chunkTable cur).value id = ⟨key, v⟩ :=
    (h.shape.tag_eq (s := (cur, id)) ha.lt ha.slot).2
  have htrav := h.shape.chainTraverseReverse_eq key ha.lt fun _ => setMigrating true
  have hchain : (t.chain key cur).Nodup := Walk.nodup_chain (h.shape.coprime key) ha.lt
  obtain ⟨-, hsame, -⟩ := h.shape.mark hchain true
  have hle := (h.shape.sound _ (h.shape.homeChunk_lt key)).size_le
  have hsize : ((t.marked key cur).chunkTable (t.homeChunk key)).size ≠ 14 ↔
      t.Roomy (t.homeChunk key) := by
    rw [marked, hsame.chunkSize, Roomy]
    omega
  rw [migrateKey]
  simp only [ha.find, hget, htrav, hval]
  rw [← marked]
  exact if_congr hsize rfl rfl

/-- What marking the chain keeps. -/
theorem Good.marked_spec {t : PetHash V} {ahead : Multiset ℕ} (h : t.Good ahead) (key : UInt64)
    {cur : ℕ} (hcur : cur < t.chunkNum) :
    (t.marked key cur).Shape ∧ SameSlots t (t.marked key cur) ∧ (t.marked key cur).Ledger ahead 0 ∧
      (∀ q, ((t.marked key cur).chunkTable q).overflowCount = (t.chunkTable q).overflowCount) ∧
      ∀ q, ((t.marked key cur).chunkTable q).isMigrating
        = if q ∈ t.chain key cur then true else (t.chunkTable q).isMigrating := by
  have hchain : (t.chain key cur).Nodup := Walk.nodup_chain (h.shape.coprime key) hcur
  obtain ⟨hs, hsame, hfields⟩ := h.shape.mark hchain true
  exact ⟨hs, hsame, h.ledger.congr hsame.chunkNum hsame.entry fun c => (hfields c).1,
    fun q => (hfields q).1, fun q => (hfields q).2⟩

theorem Away.marked {t : PetHash V} {key : UInt64} {v : V} {cur : ℕ} {id : Slot}
    (h : t.Away key v cur id) (hsame : SameSlots t (t.marked key cur)) :
    (t.marked key cur).Away key v cur id := by
  have hhome : (t.marked key cur).homeChunk key = t.homeChunk key :=
    homeChunk_congr hsame.chunkNum key
  refine ⟨hsame.chunkNum ▸ h.lt, (hsame.entry _).trans h.slot, hhome ▸ h.ne, ?_⟩
  rw [hhome, F14Chunk.find_eq_none_iff, hsame.tags, hsame.value, ← F14Chunk.find_eq_none_iff]
  exact h.find

/-- What is left to do when the chain is unmarked again. -/
theorem Good.unmarked {t t' : PetHash V} {ahead ahead' : Multiset ℕ} (h : t.Good ahead)
    {key : UInt64} {cur : ℕ} (hcur : cur < t.chunkNum) (hs : t'.Shape) (hl : t'.Ledger ahead' 0)
    (hent : t'.entries = (t.marked key cur).entries) (hN : t'.chunkNum = t.chunkNum)
    (hsize : t'.size = t.size)
    (hmig : ∀ q, (t'.chunkTable q).isMigrating = if q ∈ (t.marked key cur).chain key cur then false
      else ((t.marked key cur).chunkTable q).isMigrating) :
    t'.Good ahead' ∧ t'.entries = t.entries := by
  obtain ⟨-, hsame, -, -, hmark⟩ := h.marked_spec key hcur
  rw [hsame.chain] at hmig
  have hent' : t'.entries = t.entries := hent.trans hsame.entries
  refine ⟨⟨hs, fun p hp => ?_, hl, ?_, ?_⟩, hent'⟩
  · rw [hmig p, hmark p]
    split_ifs
    · rfl
    · exact h.calm p (hN ▸ hp)
  · rw [NodupKeys, hent']
    exact h.nodup
  · rw [hsize, hent']
    exact h.size

/-- **One hot key.** A stored key is migrated, and what the table holds does not change. -/
theorem Good.migrateKey {t : PetHash V} {ahead : Multiset ℕ} (h : t.Good ahead) (hfull : ¬ t.Full)
    {key : UInt64} {v : V} (hv : ⟨key, v⟩ ∈ t.entries) (hok : t.MigrationOk key) :
    ∃ t', t.migrateKey key = .ok t' ∧ t'.Good ahead ∧ t'.entries = t.entries ∧
      t'.chunkNum = t.chunkNum := by
  rcases h.inHome_or_away hv with hin | ⟨cur, id, ha⟩
  · exact ⟨t, migrateKey_of_inHome hin, h, rfl, rfl⟩
  · obtain ⟨hhome, hfits⟩ := hok.resolve_left ha.not_inHome
    obtain ⟨hs₁, hsame, hl₁, -, hmark⟩ := h.marked_spec key ha.lt
    have ha₁ := ha.marked hsame
    obtain ⟨t', hrun, hs', hl', hent, hN', hsize, hmig⟩ := migrateByVictim_spec hs₁ hl₁
      (hsame.full_iff.not.mpr hfull) ha₁.lt ha₁.slot ha₁.ne
        ((hsame.roomy_home_iff key).not.mpr hhome)
      (hfits.sameSlots hsame)
    have hN := hN'.trans hsame.chunkNum
    obtain ⟨hgood, hent'⟩ := h.unmarked ha.lt hs' hl' hent hN (hsize.trans hsame.size) hmig
    refine ⟨t', ?_, hgood, hent', hN⟩
    rw [h.migrateKey_eq ha, if_neg hhome, hrun]

/-! ### Whole calls and whole runs -/

/-- `Get` finds the key. -/
def has (t : PetHash V) (key : UInt64) : Bool :=
  match t.get key with
  | .ok (some _) => true
  | _ => false

theorem Good.exists_mem_of_has {t : PetHash V} (h : t.Inv) {key : UInt64} (hk : t.has key = true) :
    ∃ v, ⟨key, v⟩ ∈ t.entries := by
  by_contra habs
  push Not at habs
  rw [has, h.get_of_notMem habs] at hk
  simp at hk

/-- The turn of one hot key, when it completes. -/
def turn (t : PetHash V) (key : UInt64) : Option (PetHash V) := (t.migrateKey key).toOption

/-- The hot keys are stored, the table is not full, and each turn keeps the counters exact. -/
def HotKeysOk (t : PetHash V) (hotKeys : List UInt64) : Prop :=
  ¬ t.Full ∧ (∀ key ∈ hotKeys, t.has key = true) ∧ Run.Guarded turn MigrationOk t hotKeys

-- The list is walked: `UInt64` is finite, and its `Fintype` instance would try every key.
instance (t : PetHash V) (hotKeys : List UInt64) : Decidable (t.HotKeysOk hotKeys) :=
  letI : Decidable (∀ key ∈ hotKeys, t.has key = true) := List.decidableBAll _ _
  inferInstanceAs (Decidable (_ ∧ _ ∧ _))

/-- **A whole migration** leaves the contents alone. -/
theorem Good.hotnessAwareMigration {hotKeys : List UInt64} {t : PetHash V} (h : t.Inv)
    (hok : t.HotKeysOk hotKeys) :
    ∃ t', PetHash.hotnessAwareMigration hotKeys t = .ok t' ∧ t'.Inv ∧ t'.entries = t.entries ∧
      t'.chunkNum = t.chunkNum := by
  obtain ⟨hfull, hhas, hguard⟩ := hok
  have hmem : ∀ key ∈ hotKeys, ∃ v, ⟨key, v⟩ ∈ t.entries :=
    fun key hk => h.exists_mem_of_has (hhas key hk)
  clear hhas
  induction hotKeys generalizing t with
  | nil => exact ⟨t, rfl, h, rfl, rfl⟩
  | cons key keys ih =>
    obtain ⟨v, hv⟩ := hmem key List.mem_cons_self
    obtain ⟨t₁, hturn, h₁, hent₁, hN₁⟩ := h.migrateKey hfull hv hguard.1
    have hfull₁ : ¬ t₁.Full := by
      rw [h₁.full_iff, hN₁, h₁.size, hent₁, ← h.size, ← h.full_iff]
      exact hfull
    obtain ⟨t', hrun, h', hent', hN'⟩ := ih h₁ hfull₁
      (hguard.2 t₁ (by rw [turn, hturn]; rfl)) fun k hk => by
        rw [hent₁]
        exact hmem k (List.mem_cons_of_mem key hk)
    refine ⟨t', ?_, h', hent'.trans hent₁, hN'.trans hN₁⟩
    rw [PetHash.hotnessAwareMigration, hturn]
    exact hrun

/-- A call on the dictionary. -/
inductive Call (V : Type)
  /-- `Set`, with or without a callback, forced or not. -/
  | set (key : UInt64) (value : V) (checkFunc : Option (CheckFunc V)) (isForce : Bool)
  /-- `Delete`. -/
  | delete (key : UInt64)
  /-- `HotnessAwareMigration`. -/
  | migrate (hotKeys : List UInt64)

/-- Perform a call. -/
def Call.exec (t : PetHash V) : Call V → Except Abort (PetHash V)
  | .set key value checkFunc isForce => t.set key value checkFunc isForce
  | .delete key => t.delete key
  | .migrate hotKeys => hotnessAwareMigration hotKeys t

/-- The table after a call that returns. -/
def callStep (t : PetHash V) (c : Call V) : Option (PetHash V) := (c.exec t).toOption

/-- The condition on migrations. -/
def Call.Ok (t : PetHash V) : Call V → Prop
  | .migrate hotKeys => t.HotKeysOk hotKeys
  | _ => True

instance (t : PetHash V) : (c : Call V) → Decidable (c.Ok t)
  | .migrate hotKeys => inferInstanceAs (Decidable (t.HotKeysOk hotKeys))
  | .set .. => inferInstanceAs (Decidable True)
  | .delete _ => inferInstanceAs (Decidable True)

/-- **Every call keeps the invariant.** -/
theorem Good.call {t t' : PetHash V} (h : t.Inv) {c : Call V} (hok : c.Ok t)
    (hstep : t.callStep c = some t') : t'.Inv := by
  have hexec := eq_ok_of_toOption hstep
  cases c with
  | set key value checkFunc isForce => exact (h.set hexec).1
  | delete key =>
    obtain ⟨t₁, hdel, hinv, -⟩ := h.delete key
    rw [Call.exec, hdel, Except.ok.injEq] at hexec
    exact hexec ▸ hinv
  | migrate hotKeys =>
    obtain ⟨t₁, hmig, hinv, -⟩ := h.hotnessAwareMigration hok
    rw [Call.exec, hmig, Except.ok.injEq] at hexec
    exact hexec ▸ hinv

/-- A run keeps the invariant. -/
theorem Good.run_calls {t₀ t : PetHash V} (h : t₀.Inv) {calls : List (Call V)}
    (hok : Run.Guarded callStep (fun t c => c.Ok t) t₀ calls)
    (hrun : Run.run callStep t₀ calls = some t) :
    t.Inv :=
  Run.run_history (P := fun _ t => t.Inv) (fun _ _ _ _ h hg hstep => h.call hg hstep) [] h hok hrun

/-- **Migration preserves the table** in every run in which the migrations, this one included, only
move keys out of full home chunks whose victim finds room before its own home. -/
theorem migration_preserves_table [Inhabited V] {capacity : ℕ} {ignoreLoadFactor : Bool}
    {t₀ t : PetHash V} (hinit : initializeTable capacity ignoreLoadFactor = some t₀)
    {calls : List (Call V)} (hok : Run.Guarded callStep (fun t c => c.Ok t) t₀ calls)
    (hrun : Run.run callStep t₀ calls = some t) {hotKeys : List UInt64}
    (hhot : t.HotKeysOk hotKeys) :
    ∃ t', hotnessAwareMigration hotKeys t = .ok t' ∧ (∀ key, t'.get key = t.get key) ∧
      t'.sizeU32 = t.sizeU32 ∧ t'.chunkNum = t.chunkNum ∧
      ∑ p ∈ Finset.range t'.chunkNum, (t'.chunkTable p).size
        = ∑ p ∈ Finset.range t.chunkNum, (t.chunkTable p).size ∧
      ∀ c < t'.chunkNum, (t'.chunkTable c).overflowCount = 255 ∨
        (t'.chunkTable c).overflowCount = t'.passCount c := by
  have hinv : t.Inv := (initializeTable_inv hinit).1.run_calls hok hrun
  obtain ⟨t', hmig, hinv', hent, hN⟩ := hinv.hotnessAwareMigration hhot
  refine ⟨t', hmig, hinv.get_congr hinv' hent, ?_, hN, ?_, fun c hc => ?_⟩
  · rw [sizeU32, sizeU32, hinv'.size, hinv.size, hent]
  · rw [← hinv'.shape.card_entries, ← hinv.shape.card_entries, hent]
  · simpa [Tally.Tracks] using hinv'.ledger c hc

/-- Insertions of the even keys up to `28`, which in a table with two chunks all have home chunk
`0`. -/
def evenSets : List (Call UInt64) :=
  (List.range 15).map fun i => .set (.ofNat (2 * i)) (.ofNat i) none false

theorem migration_preserves_table_two_chunks :
    ∃ t₀ t t' : PetHash UInt64, initializeTable 28 true = some t₀ ∧
      Run.run callStep t₀
        ((List.range 15).map fun i => .set (.ofNat (2 * i)) (.ofNat i) none false) = some t ∧
      hotnessAwareMigration [28] t = .ok t' ∧ ¬ t.InHome 28 ∧ t'.get 28 = t.get 28 := by
  have heval : ((initializeTable 28 true : Option (PetHash UInt64)).any fun t₀ =>
      decide (Run.Guarded callStep (fun t c => c.Ok t) t₀ evenSets) &&
      (Run.run callStep t₀ evenSets).any fun t =>
          decide (t.HotKeysOk [28]) && decide (¬ t.InHome 28)) = true := by
    decide +kernel
  simp only [Option.any_eq_true, Bool.and_eq_true, decide_eq_true_eq] at heval
  obtain ⟨t₀, hinit, hok, t, hrun, hhot, hout⟩ := heval
  obtain ⟨t', hmig, hget, -⟩ := migration_preserves_table hinit hok hrun hhot
  exact ⟨t₀, t, t', hinit, hrun, hmig, hout, hget 28⟩

/-- **A migration loses a key.** All even keys have home chunk `0` and all odd keys home chunk `1`.
Key `28` overflows into chunk `1`, and later `27` out of chunk `1` into chunk `0`. Moving `28` home
takes the count of `27` from chunk `1`. -/
theorem migration_loses_key :
    ∃ t₀ t t' : PetHash UInt64, initializeTable 28 true = some t₀ ∧
      Run.run callStep t₀
        (((List.range 15).map fun i => .set (.ofNat (2 * i)) (.ofNat i) none false) ++
          [.delete 0, .delete 2, .delete 4] ++
          ((List.range 14).map fun i => .set (.ofNat (2 * i + 1)) (.ofNat i) none false) ++
          [.delete 6]) = some t ∧
      ¬ t.Full ∧ t.has 28 = true ∧ hotnessAwareMigration [28] t = .ok t' ∧
      t.get 27 = .ok (some 13) ∧ t'.get 27 = .ok none := by
  have heval : ((initializeTable 28 true : Option (PetHash UInt64)).any fun t₀ =>
      (Run.run callStep t₀ (evenSets ++ [Call.delete 0, Call.delete 2, Call.delete 4] ++
          ((List.range 14).map fun i => Call.set (.ofNat (2 * i + 1)) (.ofNat i) none false) ++
          [Call.delete 6])).any fun t =>
            decide (¬ t.Full) && t.has 28 && (hotnessAwareMigration [28] t).toOption.any fun t' =>
              decide (t.get 27 = .ok (some 13)) && decide (t'.get 27 = .ok none)) = true := by
    decide +kernel
  simp only [Option.any_eq_true, Bool.and_eq_true, decide_eq_true_eq] at heval
  obtain ⟨t₀, hinit, t, hrun, ⟨hfull, hhas⟩, t', hmig, hold, hnew⟩ := heval
  exact ⟨t₀, t, t', hinit, hrun, hfull, hhas, eq_ok_of_toOption hmig, hold, hnew⟩

end PetHash

end PetPS

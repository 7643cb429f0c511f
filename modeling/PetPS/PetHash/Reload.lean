import Mathlib.Data.List.ProdSigma
import PetPS.PetHash.Insert

/-!
# `Valid` and `Reload`: the dictionary after a restart

`Valid` decides whether the mapped table is used again. `Reload` then rebuilds what it does not
trust: the element counts and tags from the keys, and the overflow counters from the tags. A slot
counts when its key is not `-1`, whatever its tag says; so a table that stores the key `-1` loses it
from the count.

`Reload` works with four threads. The model here goes through the chunks in the order of their
positions; that every schedule of the threads ends in the same table is shown in `Recovery`. Both
passes count chunks in an `int`; `PetKV` makes tables for an `int` capacity, far below `2 ^ 31`
chunks, and the model here counts in `ℕ`. The callback `mallocSetValid` only writes a log line in
`PersistMemoryPool`.

## Main results

* `valid_counts` — what a table that passes `Valid` has in common with one in order
* `Good.valid` — a table in order passes
* `Reloadable.reload` — `Reload` makes a table in order out of the keys in its slots
* `reload_size` — and counts those keys
-/

namespace PetPS

variable {V : Type}

namespace F14Chunk

open PetHash (tagOf tagOf_ne_zero)

/-- One slot in the first pass of `Reload`. The second component is the share of `count_size`. A
tag that is right already is stored again. -/
def reloadSlot (r : F14Chunk V × ℕ) (i : Slot) : F14Chunk V × ℕ :=
  if (r.1.value i).first = emptyKey then r
  else
    ({ r.1 with
        size := (r.1.size + 1) % 256
        tags := Function.update r.1.tags i (tagOf (r.1.value i).first) }, r.2 + 1)

/-- One chunk in the first pass of `Reload`. -/
def reload (c : F14Chunk V) : F14Chunk V × ℕ :=
  (List.finRange 14).foldl reloadSlot ({ c with size := 0, overflowCount := 0 }, 0)

/-- The slots whose key is not `-1`. -/
def keyed (c : F14Chunk V) : Finset Slot := Finset.univ.filter fun i => (c.value i).first ≠ emptyKey

theorem mem_keyed {c : F14Chunk V} {i : Slot} : i ∈ c.keyed ↔ (c.value i).first ≠ emptyKey := by
  simp [keyed]

theorem card_keyed_le (c : F14Chunk V) : c.keyed.card ≤ 14 := by
  simpa using Finset.card_le_univ c.keyed

/-- The slots `l` in the first pass. -/
theorem foldl_reloadSlot : ∀ (l : List Slot) (c : F14Chunk V) (n : ℕ), l.Nodup →
    c.size + l.length < 256 →
      l.foldl reloadSlot (c, n) =
        ({ c with
            size := c.size + (l.filter (· ∈ c.keyed)).length
            tags := fun i =>
              if i ∈ l ∧ i ∈ c.keyed then tagOf (c.value i).first else c.tags i },
          n + (l.filter (· ∈ c.keyed)).length) := by
  intro l
  induction l with
  | nil => intro c n _ _; simp
  | cons i l ih =>
    intro c n hnodup hlt
    obtain ⟨hi, hl⟩ := List.nodup_cons.mp hnodup
    rw [List.length_cons] at hlt
    rw [List.foldl_cons, reloadSlot]
    by_cases hkey : (c.value i).first = emptyKey
    · have hnk : i ∉ c.keyed := fun h => mem_keyed.mp h hkey
      rw [if_pos hkey, ih c n hl (by omega), List.filter_cons_of_neg (by simpa using hnk)]
      congr 2
      funext j
      refine if_congr ?_ rfl rfl
      rw [List.mem_cons]
      constructor
      · exact fun h => ⟨Or.inr h.1, h.2⟩
      · rintro ⟨rfl | hj, hk⟩
        · exact absurd hk hnk
        · exact ⟨hj, hk⟩
    · have hk : i ∈ c.keyed := mem_keyed.mpr hkey
      have hkeyed : ∀ tags size,
        ({ c with size := size, tags := tags } : F14Chunk V).keyed = c.keyed :=
        fun _ _ => rfl
      rw [if_neg hkey, ih _ _ hl (by simp only; rw [Nat.mod_eq_of_lt (by omega)]; omega),
        List.filter_cons_of_pos (by simpa using hk)]
      simp only [hkeyed, List.length_cons]
      rw [Nat.mod_eq_of_lt (by omega : c.size + 1 < 256)]
      have htags : (fun j => if j ∈ l ∧ j ∈ c.keyed then tagOf (c.value j).first
            else Function.update c.tags i (tagOf (c.value i).first) j)
          = fun j => if j ∈ i :: l ∧ j ∈ c.keyed then tagOf (c.value j).first else c.tags j := by
        funext j
        by_cases hji : j = i
        · subst hji
          simp [hi, hk]
        · simp [hji]
      rw [htags]
      simp only [Nat.add_assoc, Nat.add_comm 1]

/-- **One chunk in the first pass.** -/
theorem reload_eq (c : F14Chunk V) :
    c.reload =
      ({ c with
          size := c.keyed.card
          overflowCount := 0
          tags := fun i => if i ∈ c.keyed then tagOf (c.value i).first else c.tags i },
        c.keyed.card) := by
  have hcard : ((List.finRange 14).filter (· ∈ c.keyed)).length = c.keyed.card := by
    rw [← List.toFinset_card_of_nodup ((List.nodup_finRange 14).filter _)]
    congr 1
    ext i
    simp
  have hkeyed : ({ c with size := 0, overflowCount := 0 } : F14Chunk V).keyed = c.keyed := rfl
  rw [reload, foldl_reloadSlot _ _ _ (List.nodup_finRange 14) (by simp), hkeyed, hcard]
  simp

/-- No slot in use has the key `-1`. -/
def TagsKeyed (c : F14Chunk V) : Prop := ∀ i, c.tags i ≠ 0 → (c.value i).first ≠ emptyKey

theorem TagsKeyed.sound_reload {c : F14Chunk V} (h : c.TagsKeyed) : c.reload.1.Sound := by
  have htags : ∀ i, (c.reload.1).tags i ≠ 0 ↔ i ∈ c.keyed := fun i => by
    rw [reload_eq]
    simp only
    split_ifs with hk
    · exact iff_of_true (tagOf_ne_zero _) hk
    · exact iff_of_false (fun hne => hk (mem_keyed.mpr (h i hne))) hk
  refine ⟨fun i hi => ?_, fun i hi => ?_, ?_, ?_⟩
  · have hk := (htags i).mp hi
    rw [reload_eq]
    exact if_pos hk
  · by_contra hne
    refine (htags i).mpr (mem_keyed.mpr ?_) hi
    rwa [reload_eq] at hne
  · have hused : c.reload.1.used = c.keyed := by
      ext i
      rw [mem_used, htags]
    rw [hused, reload_eq]
  · rw [reload_eq]
    exact Nat.zero_le _

end F14Chunk

namespace PetHash

/-! ### The definitions -/

/-- `IndexInUse`. -/
def indexInUse (t : PetHash V) (pos : ℕ) : Bool :=
  decide (pos < t.capacity ∧ (t.chunkTable (pos / 14)).InUse (Fin.ofNat 14 pos))

/-- `GetById`. -/
def getById (t : PetHash V) (pos : ℕ) : EntryT V :=
  (t.chunkTable (pos / 14)).value (Fin.ofNat 14 pos)

/-- The loop of `Valid` over the indices of slots: `none` when a slot in use has a key that `Get`
does not find, or the number of slots in use. -/
def validLoop (t : PetHash V) : List ℕ → ℕ → Except Abort (Option ℕ)
  | [], totalNum => .ok (some totalNum)
  | i :: is, totalNum =>
    if t.indexInUse i then
      match t.get (t.getById i).first with
      | .error e => .error e
      | .ok none => .ok none
      | .ok (some _) => t.validLoop is (totalNum + 1)
    else t.validLoop is totalNum

/-- `Valid(memory_size)`. The last loop counts chunks in an `int`, which does not come to `2 ^ 31`:
compared with the unsigned `chunk_num_`, what is after it is larger than every number of chunks. -/
def valid (t : PetHash V) (fileSize : ℕ) : Except Abort Bool :=
  if t.capacity = 0 ∧ 0 < fileSize then .ok false
  else if t.capacity < t.size then .ok false
  else if t.chunkNum * 14 % 2 ^ 64 ≠ t.capacity then .ok false
  else if fileSize ≠ memorySize t.capacity true then .ok false
  else
    match t.validLoop (List.range t.capacity) 0 with
    | .error e => .error e
    | .ok none => .ok false
    | .ok (some totalNum) =>
      let chunkTableTotalNum :=
        ((List.range (min t.chunkNum (2 ^ 31))).map fun p => (t.chunkTable p).size).sum
      .ok (totalNum == chunkTableTotalNum && totalNum == t.size)

/-- The first pass of `Reload`. -/
def reloadSlots (t : PetHash V) : PetHash V :=
  { t.modifyAll (List.range t.chunkNum) (fun _ c => c.reload.1) with
    size := ((List.range t.chunkNum).map fun p => (t.chunkTable p).reload.2).sum }

/-- One slot in the second pass of `Reload`. -/
def reloadCount (t : PetHash V) (s : ℕ × Slot) : Except Abort (PetHash V) :=
  if (t.chunkTable s.1).InUse s.2 then
    let key := ((t.chunkTable s.1).value s.2).first
    match Walk.whileNe (t.nextPos (stepOf key))
      (fun pos t => t.modifyChunk pos F14Chunk.incOverflow) s.1 t.chunkNum (t.homeChunk key) t with
    | none => .error .spin
    | some t => .ok t
  else .ok t

/-- The second pass of `Reload`, over a list of slots. -/
def reloadCounts : List (ℕ × Slot) → PetHash V → Except Abort (PetHash V)
  | [], t => .ok t
  | s :: ss, t =>
    match t.reloadCount s with
    | .error e => .error e
    | .ok t => reloadCounts ss t

/-- The slots of `n` chunks. -/
def slotList (n : ℕ) : List (ℕ × Slot) := List.product (List.range n) (List.finRange 14)

/-- `Reload`. -/
def reload (t : PetHash V) (capacity : ℕ) (ignoreLoadFactor : Bool) : Except Abort (PetHash V) :=
  let chunkNum := overFallChunkNum (scaleCapacity capacity ignoreLoadFactor)
  reloadCounts (slotList chunkNum)
    ({ t with chunkNum := chunkNum, capacity := chunkNum * 14 } : PetHash V).reloadSlots

/-! ### The second pass -/

theorem mem_slotList {n : ℕ} {s : ℕ × Slot} : s ∈ slotList n ↔ s.1 < n := by
  obtain ⟨p, i⟩ := s
  rw [slotList, List.pair_mem_product, List.mem_range]
  exact and_iff_left (List.mem_finRange i)

theorem nodup_slotList (n : ℕ) : (slotList n).Nodup :=
  List.nodup_range.product (List.nodup_finRange 14)

theorem toFinset_slotList (t : PetHash V) : (slotList t.chunkNum).toFinset = t.slots := by
  ext s
  rw [List.mem_toFinset, mem_slotList, mem_slots]

/-- The increments along a list of positions. -/
def incAll (t : PetHash V) (ps : List ℕ) : PetHash V :=
  ps.foldl (fun t pos => t.modifyChunk pos F14Chunk.incOverflow) t

theorem incAll_recount : ∀ (ps : List ℕ) (t : PetHash V), Recount t (t.incAll ps) := by
  intro ps
  induction ps with
  | nil => exact Recount.refl
  | cons p ps ih => exact fun t => (Recount.incAt t p).trans (ih _)

theorem incAll_spec : ∀ (ps : List ℕ) {t : PetHash V} {plus minus : Multiset ℕ}, t.Shape →
    t.Ledger plus minus → (t.incAll ps).Shape ∧ (t.incAll ps).Ledger (ps + plus) minus := by
  intro ps
  induction ps with
  | nil => intro t plus minus hs hl; exact ⟨hs, by simpa [incAll] using hl⟩
  | cons p ps ih =>
    intro t plus minus hs hl
    obtain ⟨hs', hl'⟩ := ih (hs.incAt p) (hl.incAt p)
    refine ⟨hs', ?_⟩
    rw [← Multiset.cons_coe, Multiset.cons_add, ← Multiset.add_cons]
    exact hl'

/-- The positions whose counters the entry of a slot is to raise. -/
def owedBy (t : PetHash V) (s : ℕ × Slot) : Multiset ℕ :=
  (t.slotEntry s).elim 0 fun e => (t.trail e.first s.1 : Multiset ℕ)

theorem Recount.owedBy {t t' : PetHash V} (h : Recount t t') (s : ℕ × Slot) :
    t'.owedBy s = t.owedBy s := by
  rw [PetHash.owedBy, h.entry, PetHash.owedBy]
  simp only [trail_congr h.chunkNum]

/-- **One slot in the second pass** raises the counters along the path of its entry. -/
theorem reloadCount_eq {t : PetHash V} (hpow : ∃ k, t.chunkNum = 2 ^ k) {s : ℕ × Slot}
    (hs : s.1 < t.chunkNum) : ∃ ps : List ℕ, (ps : Multiset ℕ) = t.owedBy s ∧
      t.reloadCount s = .ok (t.incAll ps) := by
  obtain ⟨k, hk⟩ := hpow
  rw [reloadCount, owedBy]
  by_cases huse : (t.chunkTable s.1).InUse s.2
  · have he : t.slotEntry s = some ((t.chunkTable s.1).value s.2) :=
      F14Chunk.entry_eq_some.mpr ⟨huse, rfl⟩
    refine ⟨t.trail ((t.chunkTable s.1).value s.2).first s.1, by rw [he]; rfl, ?_⟩
    simp only [if_pos huse, nextPos_eq_stride hk,
      Walk.whileNe_stride (coprime_stepOf hk _) (homeChunk_lt hk _) hs]
    rfl
  · have he : t.slotEntry s = none := F14Chunk.entry_eq_none.mpr (not_not.mp huse)
    exact ⟨[], by rw [he]; rfl, by rw [if_neg huse]; rfl⟩

/-- **The second pass.** It completes, and pays what the listed slots owe. -/
theorem reloadCounts_spec : ∀ (ss : List (ℕ × Slot)) {t : PetHash V}, (∃ k, t.chunkNum = 2 ^ k) →
    (∀ s ∈ ss, s.1 < t.chunkNum) → ∃ t', reloadCounts ss t = .ok t' ∧ Recount t t' ∧
      (t.Shape → t.Ledger 0 (ss.map t.owedBy).sum → t'.Shape ∧ t'.Ledger 0 0) := by
  intro ss
  induction ss with
  | nil => exact fun _ _ => ⟨_, rfl, Recount.refl _, fun hs hl => ⟨hs, hl⟩⟩
  | cons s ss ih =>
    intro t hpow hlt
    obtain ⟨ps, hps, hone⟩ := reloadCount_eq hpow (hlt s List.mem_cons_self)
    have hr := incAll_recount ps t
    obtain ⟨t', hrun, hr', hpay⟩ := ih (hr.chunkNum ▸ hpow) fun s' hs' =>
      hr.chunkNum ▸ hlt s' (List.mem_cons_of_mem _ hs')
    rw [reloadCounts, hone]
    refine ⟨t', hrun, hr.trans hr', fun hs hl => ?_⟩
    obtain ⟨hs₁, hl₁⟩ := incAll_spec ps hs hl
    refine hpay hs₁ (hl₁.rebalance ?_)
    rw [List.map_cons, List.sum_cons, hps, List.map_congr_left fun s _ => hr.owedBy s]
    abel

/-! ### The first pass -/

/-- What `Reload` takes a slot to hold. -/
def keyedEntry (t : PetHash V) (s : ℕ × Slot) : Option (EntryT V) :=
  if ((t.chunkTable s.1).value s.2).first = emptyKey then none
  else some ((t.chunkTable s.1).value s.2)

/-- What `Reload` takes the table to hold. -/
def keyedEntries (t : PetHash V) : Multiset (EntryT V) :=
  ∑ s ∈ t.slots, (t.keyedEntry s).elim 0 fun e => {e}

/-- A table that `Reload` can put in order. -/
structure Reloadable (t : PetHash V) : Prop where
  /-- The number of chunks is a power of two. -/
  pow : ∃ k, t.chunkNum = 2 ^ k
  /-- The table fits into the address space. -/
  fits : t.chunkNum * 320 ≤ userSpace
  /-- No slot in use has the key `-1`. -/
  tags : ∀ p < t.chunkNum, (t.chunkTable p).TagsKeyed
  /-- No migration is under way. -/
  calm : ∀ p < t.chunkNum, (t.chunkTable p).isMigrating = false
  /-- No key is in two slots. -/
  nodup : (t.keyedEntries.map EntryT.first).Nodup

theorem reloadSlots_chunkTable (t : PetHash V) {p : ℕ} (hp : p < t.chunkNum) :
    t.reloadSlots.chunkTable p = (t.chunkTable p).reload.1 := by
  rw [reloadSlots]
  simp only
  rw [modifyAll_chunkTable List.nodup_range, if_pos (List.mem_range.mpr hp)]

theorem reloadSlots_chunkNum (t : PetHash V) : t.reloadSlots.chunkNum = t.chunkNum :=
  modifyAll_chunkNum _ _ _

/-- The number of keyed slots, chunk by chunk. -/
theorem card_keyedEntries (t : PetHash V) :
    t.keyedEntries.card = ∑ p ∈ Finset.range t.chunkNum, (t.chunkTable p).keyed.card := by
  rw [keyedEntries, Multiset.card_sum, slots, Finset.sum_product]
  refine Finset.sum_congr rfl fun p _ => ?_
  rw [F14Chunk.keyed, Finset.card_filter]
  refine Finset.sum_congr rfl fun i _ => ?_
  rw [keyedEntry]
  by_cases hkey : ((t.chunkTable p).value i).first = emptyKey <;> simp [hkey]

theorem reloadSlots_size (t : PetHash V) : t.reloadSlots.size = t.keyedEntries.card := by
  rw [card_keyedEntries, reloadSlots, ← List.toFinset_range, List.sum_toFinset _ List.nodup_range]
  simp only [F14Chunk.reload_eq]

/-- **The first pass** leaves the keyed entries, all counters at `0`. -/
theorem Reloadable.reloadSlots {t : PetHash V} (h : t.Reloadable)
    (hcap : t.capacity = t.chunkNum * 14) :
    t.reloadSlots.Shape ∧ (∀ s ∈ t.slots, t.reloadSlots.slotEntry s = t.keyedEntry s) ∧
      (∀ p < t.chunkNum, (t.reloadSlots.chunkTable p).overflowCount = 0) ∧
      ∀ p < t.chunkNum, (t.reloadSlots.chunkTable p).isMigrating = false := by
  have hN := t.reloadSlots_chunkNum
  refine ⟨⟨hN ▸ h.pow, hN ▸ h.fits, ?_, fun p hp => ?_⟩, fun s hs => ?_, fun p hp => ?_,
    fun p hp => ?_⟩
  · rw [hN, ← hcap]
    exact (modifyAll_capacity_size _ _ _).1
  · rw [hN] at hp
    rw [t.reloadSlots_chunkTable hp]
    exact (h.tags p hp).sound_reload
  · have hp := mem_slots.mp hs
    rw [slotEntry, t.reloadSlots_chunkTable hp, F14Chunk.entry, F14Chunk.reload_eq, keyedEntry]
    by_cases hkey : ((t.chunkTable s.1).value s.2).first = emptyKey
    · have hk : s.2 ∉ (t.chunkTable s.1).keyed := fun hk => F14Chunk.mem_keyed.mp hk hkey
      have htag : (t.chunkTable s.1).tags s.2 = 0 := by
        by_contra hne
        exact h.tags s.1 hp s.2 hne hkey
      simp [hk, htag, hkey]
    · have hk : s.2 ∈ (t.chunkTable s.1).keyed := F14Chunk.mem_keyed.mpr hkey
      simp [hk, hkey, tagOf_ne_zero]
  · rw [t.reloadSlots_chunkTable hp, F14Chunk.reload_eq]
  · rw [t.reloadSlots_chunkTable hp, F14Chunk.reload_eq]
    exact h.calm p hp

/-! ### The whole of `Reload` -/

/-- The slots owe a counter what passes over its chunk. -/
theorem count_owed {t : PetHash V} (hpow : ∃ k, t.chunkNum = 2 ^ k) {c : ℕ} (hc : c < t.chunkNum) :
    (((slotList t.chunkNum).map t.owedBy).sum).count c = t.passCount c := by
  obtain ⟨k, hk⟩ := hpow
  rw [← List.sum_toFinset _ (nodup_slotList _), toFinset_slotList, Multiset.count_sum', passCount,
    slotSum]
  refine Finset.sum_congr rfl fun s hs => ?_
  rw [owedBy]
  cases t.slotEntry s with
  | none => simp
  | some e =>
    simp only [Option.elim_some, Multiset.coe_count]
    exact count_trail hk e.first (mem_slots.mp hs) hc

/-- With every counter at `0`, everything is owed. -/
theorem Shape.ledger_owed {t : PetHash V} (h : t.Shape)
    (hzero : ∀ p < t.chunkNum, (t.chunkTable p).overflowCount = 0) :
    t.Ledger 0 ((slotList t.chunkNum).map t.owedBy).sum := by
  intro c hc
  right
  rw [hzero c hc, Nat.zero_add, Multiset.count_zero, Nat.add_zero, count_owed h.pow hc]

/-- `Reload` completes and counts the keys in the slots. -/
theorem reload_size {t : PetHash V} {capacity : ℕ} (ignoreLoadFactor : Bool)
    (hN : t.chunkNum = overFallChunkNum (scaleCapacity capacity ignoreLoadFactor))
    (hpow : ∃ k, t.chunkNum = 2 ^ k) :
    ∃ t', t.reload capacity ignoreLoadFactor = .ok t' ∧ t'.size = t.keyedEntries.card := by
  have hself : t.keyedEntries
      = ({ t with chunkNum := t.chunkNum, capacity := t.chunkNum * 14 } :
        PetHash V).keyedEntries := rfl
  obtain ⟨t', hrun, hr, -⟩ := reloadCounts_spec (slotList t.chunkNum)
    (t := ({ t with chunkNum := t.chunkNum, capacity := t.chunkNum * 14 } : PetHash V).reloadSlots)
    (by rw [reloadSlots_chunkNum]; exact hpow)
    (fun s hs => by rw [reloadSlots_chunkNum]; exact mem_slotList.mp hs)
  refine ⟨t', ?_, ?_⟩
  · rw [reload, ← hN]
    exact hrun
  · rw [hr.size, reloadSlots_size, hself]

/-- **`Reload`** makes a table in order, with the keys in the slots as its entries. -/
theorem Reloadable.reload {t : PetHash V} (h : t.Reloadable) {capacity : ℕ}
    (ignoreLoadFactor : Bool)
    (hN : t.chunkNum = overFallChunkNum (scaleCapacity capacity ignoreLoadFactor)) :
    ∃ t', t.reload capacity ignoreLoadFactor = .ok t' ∧ t'.Inv ∧ t'.entries = t.keyedEntries ∧
      t'.chunkNum = t.chunkNum := by
  obtain ⟨u, hu⟩ : ∃ u : PetHash V,
    u = { t with chunkNum := t.chunkNum, capacity := t.chunkNum * 14 } :=
    ⟨_, rfl⟩
  have huN : u.chunkNum = t.chunkNum := by rw [hu]
  have hre : u.Reloadable := hu ▸ ⟨h.pow, h.fits, h.tags, h.calm, h.nodup⟩
  obtain ⟨hshape, hslots, hzero, hcalm⟩ := hre.reloadSlots (by rw [hu])
  have hN₁ := u.reloadSlots_chunkNum
  obtain ⟨t', hrun, hr, hpay⟩ := reloadCounts_spec (slotList u.chunkNum) (t := u.reloadSlots)
    hshape.pow fun s hs => hN₁ ▸ mem_slotList.mp hs
  obtain ⟨hshape', hledger⟩ := hpay hshape
    (hN₁ ▸ hshape.ledger_owed fun p hp => hzero p (hN₁ ▸ hp))
  have hent : t'.entries = t.keyedEntries := by
    rw [hr.entries, entries, slotSum, slots_congr hN₁]
    have hsum : ∑ s ∈ u.slots, (u.reloadSlots.slotEntry s).elim 0 (fun e => {e}) = u.keyedEntries :=
      Finset.sum_congr rfl fun s hs => by rw [hslots s hs]
    rw [hsum, hu]
    rfl
  refine ⟨t', ?_, ⟨hshape', fun p hp => ?_, hledger, ?_, ?_⟩, hent, ?_⟩
  · rw [PetHash.reload, ← hN, ← hu, ← huN]
    exact hrun
  · rw [hr.migrating]
    exact hcalm p (by rwa [hr.chunkNum, hN₁] at hp)
  · rw [NodupKeys, hent]
    exact h.nodup
  · rw [hr.size, reloadSlots_size, hent, hu]
    rfl
  · rw [hr.chunkNum, hN₁, huN]

/-! ### `Valid` -/

/-- The loop of `Valid` counts the slots in use. -/
theorem validLoop_eq_some {t : PetHash V} : ∀ {is : List ℕ} {m n : ℕ},
    t.validLoop is m = .ok (some n) → n = m + is.countP t.indexInUse := by
  intro is
  induction is with
  | nil => intro m n h; cases h; rfl
  | cons i is ih =>
    intro m n h
    rw [validLoop] at h
    by_cases huse : t.indexInUse i = true
    · rw [if_pos huse] at h
      split at h
      case h_1 => cases h
      case h_2 => cases h
      case h_3 => rw [ih h, List.countP_cons_of_pos huse]; omega
    · rw [if_neg huse] at h
      rw [ih h, List.countP_cons_of_neg huse]

theorem validLoop_of_found {t : PetHash V} : ∀ (is : List ℕ) {m : ℕ},
    (∀ i ∈ is, t.indexInUse i = true → ∃ v, t.get (t.getById i).first = .ok (some v)) →
      ∃ n, t.validLoop is m = .ok (some n) := by
  intro is
  induction is with
  | nil => exact fun _ => ⟨_, rfl⟩
  | cons i is ih =>
    intro m h
    rw [validLoop]
    by_cases huse : t.indexInUse i = true
    · obtain ⟨v, hv⟩ := h i List.mem_cons_self huse
      simp only [if_pos huse, hv]
      exact ih fun j hj => h j (List.mem_cons_of_mem i hj)
    · rw [if_neg huse]
      exact ih fun j hj => h j (List.mem_cons_of_mem i hj)

/-- The slots in use of one chunk, counted by index. -/
theorem countP_chunk (c : F14Chunk V) :
    (List.range 14).countP (fun i => decide (c.InUse (Fin.ofNat 14 i))) = c.used.card := by
  rw [← List.map_coe_finRange_eq_range, List.countP_map, List.countP_eq_length_filter,
    ← List.toFinset_card_of_nodup ((List.nodup_finRange 14).filter _)]
  congr 1
  ext i
  simp [F14Chunk.mem_used, F14Chunk.InUse]

/-- The slots in use, counted by index. -/
theorem countP_indexInUse {t : PetHash V} (hcap : t.capacity = t.chunkNum * 14) :
    (List.range t.capacity).countP t.indexInUse
      = ∑ p ∈ Finset.range t.chunkNum, (t.chunkTable p).used.card := by
  have hrange : ∀ n ≤ t.chunkNum, (List.range (n * 14)).countP t.indexInUse
      = ∑ p ∈ Finset.range n, (t.chunkTable p).used.card := by
    intro n
    induction n with
    | zero => simp
    | succ n ih =>
      intro hn
      rw [Nat.add_mul, Nat.one_mul, List.range_add, List.countP_append, ih (by omega),
        Finset.sum_range_succ, List.countP_map, ← countP_chunk]
      congr 1
      refine List.countP_congr fun i hi => ?_
      have hi := List.mem_range.mp hi
      have hslot : (Fin.ofNat 14 (n * 14 + i)) = Fin.ofNat 14 i := Fin.ext (by simp)
      simp only [indexInUse, Function.comp_apply, show (n * 14 + i) / 14 = n by omega, hslot,
        decide_eq_true_eq, and_iff_right_iff_imp]
      intro _
      omega
  rw [hcap]
  exact hrange _ le_rfl

/-- **A table that passes `Valid`** has as many slots in use as its counts say. -/
theorem valid_counts {t : PetHash V} {fileSize : ℕ} (hcap : t.capacity = t.chunkNum * 14)
    (hint : t.chunkNum ≤ 2 ^ 31) (h : t.valid fileSize = .ok true) :
    t.entries.card = t.size ∧
      t.entries.card = ∑ p ∈ Finset.range t.chunkNum, (t.chunkTable p).size := by
  rw [valid] at h
  split_ifs at h
  iterate 4 cases h
  cases hloop : t.validLoop (List.range t.capacity) 0 with
  | error e => rw [hloop] at h; cases h
  | ok r =>
    cases r with
    | none => rw [hloop] at h; cases h
    | some n =>
      simp only [hloop, min_eq_left hint, Except.ok.injEq, Bool.and_eq_true, beq_iff_eq] at h
      have hn := validLoop_eq_some hloop
      rw [Nat.zero_add, countP_indexInUse hcap, ← card_entries_eq_used] at hn
      refine ⟨hn ▸ h.2, ?_⟩
      rw [← hn, h.1, ← List.toFinset_range, List.sum_toFinset _ List.nodup_range]

theorem next2PowerLoop_pow {k : ℕ} : ∀ {fuel j : ℕ}, j ≤ k → k ≤ j + fuel →
    next2PowerLoop (2 ^ k) fuel (2 ^ j) = 2 ^ k := by
  intro fuel
  induction fuel with
  | zero =>
    intro j hj hk
    rw [next2PowerLoop, show j = k by omega]
  | succ fuel ih =>
    intro j hj hk
    rw [next2PowerLoop]
    rcases Nat.lt_or_eq_of_le hj with hlt | rfl
    · rw [if_pos (Nat.pow_lt_pow_right (by omega) hlt), ← pow_succ]
      exact ih hlt (by omega)
    · rw [if_neg (lt_irrefl _)]

theorem next2PowerLoop_le {size k : ℕ} (hsize : size ≤ 2 ^ k) : ∀ {fuel j : ℕ}, j ≤ k →
    next2PowerLoop size fuel (2 ^ j) ≤ 2 ^ k := by
  intro fuel
  induction fuel with
  | zero => exact fun hj => Nat.pow_le_pow_right (by omega) hj
  | succ fuel ih =>
    intro j hj
    rw [next2PowerLoop]
    split_ifs with hlt
    · have hjk : j < k := (Nat.pow_lt_pow_iff_right (by omega)).mp (hlt.trans_le hsize)
      rw [← pow_succ]
      exact ih hjk
    · exact Nat.pow_le_pow_right (by omega) hj

/-- A table for an `int` capacity has at most `2 ^ 28` chunks. -/
theorem overFallChunkNum_le {capacity : ℕ} (h : capacity < 2 ^ 31) :
    overFallChunkNum capacity ≤ 2 ^ 28 :=
  next2PowerLoop_le (by omega) (Nat.zero_le _)

/-- The dimensions that `Initialize` computes are kept by `MemorySize(capacity_, true)`. -/
theorem Shape.overFallChunkNum_capacity {t : PetHash V} (h : t.Shape) :
    overFallChunkNum t.capacity = t.chunkNum := by
  obtain ⟨k, hk⟩ := h.pow
  have hfits := h.fits
  rw [userSpace] at hfits
  have hk64 : k ≤ 0 + 64 := by
    by_contra hgt
    have : 2 ^ 65 ≤ t.chunkNum := hk ▸ Nat.pow_le_pow_right (by omega) (by omega)
    omega
  rw [overFallChunkNum, h.capacity,
    show (t.chunkNum * 14 + 13) % 2 ^ 64 / 14 = t.chunkNum by omega, hk, next2Power]
  exact next2PowerLoop_pow (Nat.zero_le k) hk64

/-- **A table in order passes `Valid`.** -/
theorem Good.valid {t : PetHash V} (h : t.Inv) (hint : t.chunkNum ≤ 2 ^ 31) :
    t.valid (memorySize t.capacity true) = .ok true := by
  have hpos := h.shape.chunkNum_pos
  have hcap := h.shape.capacity
  have hfits := h.shape.fits
  rw [userSpace] at hfits
  have hsize := h.size_le
  obtain ⟨n, hloop⟩ := validLoop_of_found (t := t) (List.range t.capacity) (m := 0)
    fun i hi huse => by
      rw [indexInUse, decide_eq_true_eq] at huse
      refine ⟨_, h.get_of_mem (v := (t.getById i).second)
        (mem_entries.mpr ⟨(i / 14, Fin.ofNat 14 i), ?_,
        F14Chunk.entry_eq_some.mpr ⟨huse.2, rfl⟩⟩)⟩
      simp only
      omega
  have hn := validLoop_eq_some hloop
  rw [Nat.zero_add, countP_indexInUse hcap, ← card_entries_eq_used] at hn
  have hsum : ((List.range t.chunkNum).map fun p => (t.chunkTable p).size).sum =
    t.entries.card := by
    rw [h.shape.card_entries, ← List.toFinset_range, List.sum_toFinset _ List.nodup_range]
  rw [PetHash.valid, if_neg (by omega), if_neg (by omega),
    if_neg (by rw [Nat.mod_eq_of_lt (by omega)]; omega), if_neg (by simp), hloop]
  simp only [min_eq_left hint, hsum, hn, h.size, BEq.rfl, Bool.and_self]

/-- Without the key `-1`, the tags and the keys agree on the slots in use. -/
theorem Good.keyedEntry_eq {t : PetHash V} (h : t.Inv) (habs : t.Absent emptyKey) {s : ℕ × Slot}
    (hs : s.1 < t.chunkNum) : t.keyedEntry s = t.slotEntry s := by
  cases he : t.slotEntry s with
  | none =>
    rw [keyedEntry, if_pos ((h.shape.sound s.1 hs).empty s.2 (F14Chunk.entry_eq_none.mp he))]
  | some e =>
    have hval := (h.shape.tag_eq hs he).2
    rw [keyedEntry, if_neg, hval]
    rw [hval]
    intro hkey
    exact habs e.second (mem_entries.mpr ⟨s, hs, by rw [he, ← hkey]⟩)

/-- A table in order without the key `-1` can be reloaded as it is. -/
theorem Good.reloadable {t : PetHash V} (h : t.Inv) (habs : t.Absent emptyKey) :
    t.Reloadable ∧ t.keyedEntries = t.entries := by
  have hent : t.keyedEntries = t.entries :=
    Finset.sum_congr rfl fun s hs => by rw [h.keyedEntry_eq habs (mem_slots.mp hs)]
  refine ⟨⟨h.shape.pow, h.shape.fits, fun p hp i hi hkey => ?_, h.calm, hent ▸ h.nodup⟩, hent⟩
  have he : t.slotEntry (p, i) = some ((t.chunkTable p).value i) :=
    F14Chunk.entry_eq_some.mpr ⟨hi, rfl⟩
  refine habs ((t.chunkTable p).value i).second (mem_entries.mpr ⟨(p, i), hp, ?_⟩)
  rw [he, ← hkey]

theorem Shape.keyed_subset_used {t : PetHash V} (h : t.Shape) {p : ℕ} (hp : p < t.chunkNum) :
    (t.chunkTable p).keyed ⊆ (t.chunkTable p).used := fun i hi => by
  rw [F14Chunk.mem_used]
  exact fun htag => F14Chunk.mem_keyed.mp hi ((h.sound p hp).empty i htag)

/-- **`Reload` counts every entry but that of the key `-1`.** -/
theorem Shape.card_keyedEntries_le {t : PetHash V} (h : t.Shape) :
    t.keyedEntries.card ≤ t.entries.card ∧
      (t.keyedEntries.card = t.entries.card → t.Absent emptyKey) := by
  have hle : ∀ p ∈ Finset.range t.chunkNum,
      (t.chunkTable p).keyed.card ≤ (t.chunkTable p).used.card := fun p hp =>
    Finset.card_le_card (h.keyed_subset_used (Finset.mem_range.mp hp))
  rw [card_keyedEntries, card_entries_eq_used]
  refine ⟨Finset.sum_le_sum hle, fun heq v hv => ?_⟩
  obtain ⟨s, hs, he⟩ := mem_entries.mp hv
  have hcard := (Finset.sum_eq_sum_iff_of_le hle).mp heq s.1 (Finset.mem_range.mpr hs)
  have hsets := Finset.eq_of_subset_of_card_le (h.keyed_subset_used hs) hcard.ge
  obtain ⟨hne, hval⟩ := F14Chunk.entry_eq_some.mp he
  have hkeyed : s.2 ∈ (t.chunkTable s.1).keyed := hsets ▸ F14Chunk.mem_used.mpr hne
  exact F14Chunk.mem_keyed.mp hkeyed (by rw [hval])

end PetHash

end PetPS

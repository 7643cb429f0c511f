import PetPS.PetHash.Shape

/-!
# Lookup and deletion

`Good t ahead` is the invariant of the dictionary in the form that also holds in the middle of
`Insert`, where the counters at the positions `ahead` have already been raised for a key that is not
there yet. `Inv t` is `Good t 0`.

A lookup stops at the first chunk whose counter is `0`. It is complete because nothing is ever owed:
every chunk a stored key passes over has a counter of at least the number of keys passing over it,
or 255 (`Ledger.count_pos`).

## Main results

* `Good.getInternal_of_mem`, `Good.getInternal_of_notMem` — a lookup finds exactly what is stored
* `Good.delete_of_mem`, `Good.delete_of_notMem` — `Delete`
-/

namespace PetPS

namespace PetHash

variable {V : Type}

/-- The table is in order, except that the counters at `ahead` have been raised for a key still to
come. -/
structure Good (t : PetHash V) (ahead : Multiset ℕ) : Prop where
  /-- The dimensions and the chunks. -/
  shape : t.Shape
  /-- No migration is under way. -/
  calm : ∀ p < t.chunkNum, (t.chunkTable p).isMigrating = false
  /-- The overflow counters. -/
  ledger : t.Ledger ahead 0
  /-- No key is stored twice. -/
  nodup : t.NodupKeys
  /-- `size_` is the number of entries. -/
  size : t.size = t.entries.card

/-- The invariant of the dictionary between two calls. -/
abbrev Inv (t : PetHash V) : Prop := t.Good 0

theorem Good.size_le {t : PetHash V} {ahead : Multiset ℕ} (h : t.Good ahead) :
    t.size ≤ t.chunkNum * 14 := h.size ▸ h.shape.card_entries_le

theorem Good.full_iff {t : PetHash V} {ahead : Multiset ℕ} (h : t.Good ahead) :
    t.Full ↔ t.chunkNum * 1260 ≤ t.size * 100 := h.shape.full_iff h.size_le

/-! ### Lookup -/

theorem passCount_pos {t : PetHash V} {s : ℕ × Slot} {e : EntryT V} {c : ℕ}
    (hs : s.1 < t.chunkNum) (he : t.slotEntry s = some e)
    (hp : Passes t.chunkNum (t.homeChunk e.first) e.first s.1 c) : 0 < t.passCount c := by
  have hle := Finset.single_le_sum (s := t.slots) (f := fun s => (t.slotEntry s).elim 0 fun e =>
    if Passes t.chunkNum (t.homeChunk e.first) e.first s.1 c then 1 else 0)
    (fun _ _ => Nat.zero_le _) (mem_slots.mpr hs)
  have hone : ((t.slotEntry s).elim 0 fun e =>
      if Passes t.chunkNum (t.homeChunk e.first) e.first s.1 c then 1 else 0) = 1 := by
    rw [he]; exact if_pos hp
  simp only [hone] at hle
  exact hle

/-- The slot a chunk-level search returns holds the key. -/
theorem slotEntry_of_find {t : PetHash V} {key : UInt64} {pos : ℕ} {i : Slot}
    (h : (t.chunkTable pos).find key (tagOf key) = some i) :
    ∃ e, t.slotEntry (pos, i) = some e ∧ e.first = key := by
  obtain ⟨htag, hkey⟩ := F14Chunk.find_eq_some h
  exact ⟨_, F14Chunk.entry_eq_some.mpr ⟨htag ▸ tagOf_ne_zero key, rfl⟩, hkey⟩

/-- The search does not miss a key in its own chunk. -/
theorem Shape.find_ne_none {t : PetHash V} (h : t.Shape) {s : ℕ × Slot} {e : EntryT V}
    (hs : s.1 < t.chunkNum) (he : t.slotEntry s = some e) :
    (t.chunkTable s.1).find e.first (tagOf e.first) ≠ none := by
  intro hnone
  obtain ⟨htag, hval⟩ := h.tag_eq hs he
  exact F14Chunk.find_eq_none_iff.mp hnone s.2 ⟨htag, by rw [hval]⟩

/-- **A stored key is found.** The induction is on the number of chunks between the present one and
the chunk of the key; each of them has a counter above `0`, so the loop goes on. -/
theorem getLoop_found {t : PetHash V} {ahead : Multiset ℕ} (h : t.Shape) (hl : t.Ledger ahead 0)
    {s : ℕ × Slot} {e : EntryT V} (hs : s.1 < t.chunkNum) (he : t.slotEntry s = some e) :
    ∀ (k j fuel : ℕ) (touch : Bool),
      j + k = Walk.steps t.chunkNum (stepOf e.first) (t.homeChunk e.first) s.1 → k < fuel →
      ∃ p i e', p < t.chunkNum ∧ t.slotEntry (p, i) = some e' ∧ e'.first = e.first ∧
        t.getLoop e.first fuel
          (Walk.strideAt t.chunkNum (stepOf e.first) (t.homeChunk e.first) j) touch =
            .found p i := by
  have hco := h.coprime e.first
  intro k
  induction k with
  | zero =>
    intro j fuel touch hj hf
    obtain ⟨fuel, rfl⟩ : ∃ m, fuel = m + 1 := ⟨fuel - 1, by omega⟩
    rw [show j = _ by omega, Walk.strideAt_steps _ hco hs, getLoop]
    cases hfind : (t.chunkTable s.1).find e.first (tagOf e.first) with
    | none => exact absurd hfind (h.find_ne_none hs he)
    | some i =>
      obtain ⟨e', he', hk⟩ := slotEntry_of_find hfind
      exact ⟨s.1, i, e', hs, he', hk, rfl⟩
  | succ k ih =>
    intro j fuel touch hj hf
    obtain ⟨fuel, rfl⟩ : ∃ m, fuel = m + 1 := ⟨fuel - 1, by omega⟩
    set pos := Walk.strideAt t.chunkNum (stepOf e.first) (t.homeChunk e.first) j with hpos
    have hposN : pos < t.chunkNum := Walk.strideAt_lt h.chunkNum_pos
    rw [getLoop]
    cases hfind : (t.chunkTable pos).find e.first (tagOf e.first) with
    | some i =>
      obtain ⟨e', he', hk⟩ := slotEntry_of_find hfind
      exact ⟨pos, i, e', hposN, he', hk, rfl⟩
    | none =>
      have hlt := Walk.steps_lt (t.homeChunk e.first) hco hs
      have hpass : Passes t.chunkNum (t.homeChunk e.first) e.first s.1 pos := by
        rw [Passes, hpos, Walk.steps_strideAt hco (by omega)]
        omega
      have hne := hl.count_pos hposN (passCount_pos hs he hpass)
      obtain ⟨p, i, e', hp, he', hk, hget⟩ := ih (j + 1) fuel
        (touch || (t.chunkTable pos).isMigrating) (by omega) (by omega)
      refine ⟨p, i, e', hp, he', hk, ?_⟩
      rw [← hget]
      simp only [hne, if_false]
      rw [h.nextPos_eq, hpos, Walk.stride_strideAt]

theorem getLoop_absent {t : PetHash V} (h : t.Shape)
    (hcalm : ∀ p < t.chunkNum, (t.chunkTable p).isMigrating = false) {key : UInt64}
    (habs : ∀ v, ⟨key, v⟩ ∉ t.entries) :
    ∀ (fuel pos : ℕ), pos < t.chunkNum → t.getLoop key fuel pos false = .absent := by
  intro fuel
  induction fuel with
  | zero => intro pos _; rfl
  | succ fuel ih =>
    intro pos hp
    rw [getLoop]
    cases hfind : (t.chunkTable pos).find key (tagOf key) with
    | some i =>
      obtain ⟨⟨k, v⟩, he, rfl⟩ := slotEntry_of_find hfind
      exact absurd (mem_entries.mpr ⟨(pos, i), hp, he⟩) (habs v)
    | none =>
      simp only [hcalm pos hp, Bool.or_false]
      split_ifs
      · rfl
      · refine ih _ ?_
        rw [h.nextPos_eq]
        exact Nat.mod_lt _ h.chunkNum_pos

/-- **Lookup of a stored key** returns its only slot. -/
theorem Good.getInternal_of_mem {t : PetHash V} {ahead : Multiset ℕ} (h : t.Good ahead)
    {s : ℕ × Slot} {e : EntryT V} (hs : s.1 < t.chunkNum) (he : t.slotEntry s = some e) :
    t.getInternal e.first = .found s.1 s.2 := by
  have hco := h.shape.coprime e.first
  obtain ⟨p, i, e', hp, he', hk, hget⟩ := getLoop_found h.shape h.ledger hs he _ 0 t.chunkNum false
    (Nat.zero_add _) (Walk.steps_lt _ hco hs)
  rw [Walk.strideAt_zero (h.shape.homeChunk_lt _)] at hget
  have hsp : (p, i) = s := h.nodup.slot_unique hp hs he' he hk
  rw [getInternal, hget, ← hsp]

theorem Good.getInternal_of_notMem {t : PetHash V} {ahead : Multiset ℕ} (h : t.Good ahead)
    {key : UInt64} (habs : ∀ v, ⟨key, v⟩ ∉ t.entries) : t.getInternal key = .absent :=
  getLoop_absent h.shape h.calm habs _ _ (h.shape.homeChunk_lt key)

/-- The two cases of a lookup. -/
theorem Good.getInternal_cases {t : PetHash V} {ahead : Multiset ℕ} (h : t.Good ahead)
    (key : UInt64) :
    (∃ pos i v, pos < t.chunkNum ∧ t.slotEntry (pos, i) = some ⟨key, v⟩ ∧
        t.getInternal key = .found pos i) ∨
      (∀ v, ⟨key, v⟩ ∉ t.entries) ∧ t.getInternal key = .absent := by
  by_cases habs : ∀ v, (⟨key, v⟩ : EntryT V) ∉ t.entries
  · exact Or.inr ⟨habs, h.getInternal_of_notMem habs⟩
  · push Not at habs
    obtain ⟨v, hv⟩ := habs
    obtain ⟨s, hs, he⟩ := mem_entries.mp hv
    exact Or.inl ⟨s.1, s.2, v, hs, he, h.getInternal_of_mem hs he⟩

/-- **`Get`** returns the stored value. -/
theorem Good.get_of_mem {t : PetHash V} {ahead : Multiset ℕ} (h : t.Good ahead) {key : UInt64}
    {v : V} (hv : ⟨key, v⟩ ∈ t.entries) : t.get key = .ok (some v) := by
  obtain ⟨s, hs, he⟩ := mem_entries.mp hv
  rw [get, h.getInternal_of_mem hs he]
  have := (h.shape.tag_eq hs he).2
  simp [this]

theorem Good.get_of_notMem {t : PetHash V} {ahead : Multiset ℕ} (h : t.Good ahead) {key : UInt64}
    (habs : ∀ v, ⟨key, v⟩ ∉ t.entries) : t.get key = .ok none := by
  rw [get, h.getInternal_of_notMem habs]

/-- `Get` returns. -/
theorem Good.get_returns {t : PetHash V} {ahead : Multiset ℕ} (h : t.Good ahead) (key : UInt64) :
    ∃ r, t.get key = .ok r := by
  rcases h.getInternal_cases key with ⟨pos, i, v, hpos, he, -⟩ | ⟨habs, -⟩
  · exact ⟨_, h.get_of_mem (mem_entries.mpr ⟨(pos, i), hpos, he⟩)⟩
  · exact ⟨_, h.get_of_notMem habs⟩

theorem Good.get_eq_some_iff {t : PetHash V} {ahead : Multiset ℕ} (h : t.Good ahead)
    (key : UInt64) (v : V) : t.get key = .ok (some v) ↔ ⟨key, v⟩ ∈ t.entries := by
  refine ⟨fun hget => ?_, h.get_of_mem⟩
  by_contra hv
  by_cases habs : ∀ w, (⟨key, w⟩ : EntryT V) ∉ t.entries
  · rw [h.get_of_notMem habs] at hget
    simp at hget
  · push Not at habs
    obtain ⟨w, hw⟩ := habs
    rw [h.get_of_mem hw] at hget
    simp only [Except.ok.injEq, Option.some.injEq] at hget
    exact hv (hget ▸ hw)

/-- Tables in order that hold the same values of a key answer a lookup of it alike. -/
theorem Good.get_eq_of_mem_iff {t t' : PetHash V} {ahead ahead' : Multiset ℕ} (h : t.Good ahead)
    (h' : t'.Good ahead') {key : UInt64}
    (he : ∀ v : V, ⟨key, v⟩ ∈ t'.entries ↔ ⟨key, v⟩ ∈ t.entries) : t'.get key = t.get key := by
  by_cases habs : ∀ v, (⟨key, v⟩ : EntryT V) ∉ t.entries
  · rw [h.get_of_notMem habs, h'.get_of_notMem fun v => (he v).not.mpr (habs v)]
  · push Not at habs
    obtain ⟨v, hv⟩ := habs
    rw [h.get_of_mem hv, h'.get_of_mem ((he v).mpr hv)]

/-- Tables in order with the same entries answer every lookup alike. -/
theorem Good.get_congr {t t' : PetHash V} {ahead ahead' : Multiset ℕ} (h : t.Good ahead)
    (h' : t'.Good ahead') (he : t'.entries = t.entries) (key : UInt64) : t'.get key = t.get key :=
  h.get_eq_of_mem_iff h' fun v => by rw [he]

/-! ### Deletion -/

/-- `t'` differs from `t` in the overflow counters and the migration marks only. -/
structure SameSlots (t t' : PetHash V) : Prop where
  /-- The number of chunks is the same. -/
  chunkNum : t'.chunkNum = t.chunkNum
  /-- So is the capacity. -/
  capacity : t'.capacity = t.capacity
  /-- So is the number of elements. -/
  size : t'.size = t.size
  /-- The tags are the same. -/
  tags : ∀ p, (t'.chunkTable p).tags = (t.chunkTable p).tags
  /-- The items are the same. -/
  value : ∀ p, (t'.chunkTable p).value = (t.chunkTable p).value
  /-- The element counts are the same. -/
  chunkSize : ∀ p, (t'.chunkTable p).size = (t.chunkTable p).size

theorem SameSlots.entry {t t' : PetHash V} (h : SameSlots t t') (s : ℕ × Slot) :
    t'.slotEntry s = t.slotEntry s := by
  rw [slotEntry, slotEntry, F14Chunk.entry, F14Chunk.entry, h.tags, h.value]

theorem SameSlots.entries {t t' : PetHash V} (h : SameSlots t t') : t'.entries = t.entries :=
  slotSum_congr h.chunkNum h.entry _

theorem SameSlots.symm {t t' : PetHash V} (h : SameSlots t t') : SameSlots t' t :=
  ⟨h.chunkNum.symm, h.capacity.symm, h.size.symm, fun p => (h.tags p).symm,
    fun p => (h.value p).symm,
    fun p => (h.chunkSize p).symm⟩

theorem SameSlots.trans {t t' t'' : PetHash V} (h : SameSlots t t') (h' : SameSlots t' t'') :
    SameSlots t t'' :=
  ⟨h'.chunkNum.trans h.chunkNum, h'.capacity.trans h.capacity, h'.size.trans h.size,
    fun p => (h'.tags p).trans (h.tags p), fun p => (h'.value p).trans (h.value p),
    fun p => (h'.chunkSize p).trans (h.chunkSize p)⟩

/-- `t'` differs from `t` in the overflow counters only. -/
structure Recount (t t' : PetHash V) : Prop extends SameSlots t t' where
  /-- The migration marks are the same. -/
  migrating : ∀ p, (t'.chunkTable p).isMigrating = (t.chunkTable p).isMigrating

theorem Recount.refl (t : PetHash V) : Recount t t :=
  ⟨⟨rfl, rfl, rfl, fun _ => rfl, fun _ => rfl, fun _ => rfl⟩, fun _ => rfl⟩

theorem Recount.trans {t t' t'' : PetHash V} (h : Recount t t') (h' : Recount t' t'') :
    Recount t t'' :=
  ⟨h.toSameSlots.trans h'.toSameSlots, fun p => (h'.migrating p).trans (h.migrating p)⟩

theorem Recount.incAt (t : PetHash V) (pos : ℕ) :
    Recount t (t.modifyChunk pos F14Chunk.incOverflow) :=
  ⟨⟨rfl, rfl, rfl, modifyChunk_field _ _ _ F14Chunk.tags rfl,
    modifyChunk_field _ _ _ F14Chunk.value rfl, modifyChunk_field _ _ _ F14Chunk.size rfl⟩,
    modifyChunk_field _ _ _ F14Chunk.isMigrating rfl⟩

theorem Recount.decAt (t : PetHash V) (pos : ℕ) :
    Recount t (t.modifyChunk pos F14Chunk.decOverflow) :=
  ⟨⟨rfl, rfl, rfl, modifyChunk_field _ _ _ F14Chunk.tags rfl,
    modifyChunk_field _ _ _ F14Chunk.value rfl, modifyChunk_field _ _ _ F14Chunk.size rfl⟩,
    modifyChunk_field _ _ _ F14Chunk.isMigrating rfl⟩

/-- The decrements along a list of positions. -/
def decAll (t : PetHash V) (ps : List ℕ) : PetHash V :=
  ps.foldl (fun t pos => t.modifyChunk pos F14Chunk.decOverflow) t

theorem decAll_spec : ∀ (ps : List ℕ) {t : PetHash V} {plus minus : Multiset ℕ}, t.Shape →
    t.Ledger plus minus →
      (t.decAll ps).Shape ∧ (t.decAll ps).Ledger plus (ps + minus) ∧ Recount t (t.decAll ps) := by
  intro ps
  induction ps with
  | nil => intro t plus minus hs hl; exact ⟨hs, by simpa [decAll] using hl, Recount.refl t⟩
  | cons p ps ih =>
    intro t plus minus hs hl
    obtain ⟨hs', hl', hr⟩ := ih (hs.decAt p) (hl.decAt hs p)
    refine ⟨hs', ?_, (Recount.decAt t p).trans hr⟩
    rw [← Multiset.cons_coe, Multiset.cons_add, ← Multiset.add_cons]
    exact hl'

theorem Shape.decPath_eq {t : PetHash V} (h : t.Shape) (key : UInt64) {pos : ℕ}
    (hp : pos < t.chunkNum) :
    t.decPath (stepOf key) (t.homeChunk key) pos = some (t.decAll (t.trail key pos)) := by
  rw [decPath, h.nextPos_eq, Walk.whileNe_stride (h.coprime key) (h.homeChunk_lt key) hp]
  rfl

/-- What `Delete` leaves behind. -/
structure Deleted (t t' : PetHash V) (s : ℕ × Slot) : Prop where
  /-- One slot is emptied. -/
  change : SlotChange t t' s none
  /-- The capacity is the same. -/
  capacity : t'.capacity = t.capacity
  /-- Its chunk counts one element less. -/
  room : (t'.chunkTable s.1).size = (t.chunkTable s.1).size - 1
  /-- The other chunks count what they did. -/
  sizes : ∀ p, p ≠ s.1 → (t'.chunkTable p).size = (t.chunkTable p).size

/-- **`Delete` of a stored key** empties its slot and takes back one count from every chunk its path
passes over. -/
theorem Good.delete_of_mem {t : PetHash V} {ahead : Multiset ℕ} (h : t.Good ahead) {s : ℕ × Slot}
    {e : EntryT V} (hs : s.1 < t.chunkNum) (he : t.slotEntry s = some e) :
    ∃ t', t.delete e.first = .ok t' ∧ t'.Good ahead ∧ Deleted t t' s ∧
      t.entries = e ::ₘ t'.entries := by
  obtain ⟨k, hN⟩ := h.shape.pow
  set t₁ := t.decAll (t.trail e.first s.1) with ht₁
  obtain ⟨hs₁, hl₁, hr⟩ := decAll_spec (t.trail e.first s.1) h.shape h.ledger
  have hs1 : s.1 < t₁.chunkNum := hr.chunkNum ▸ hs
  have he₁ : t₁.slotEntry s = some e := (hr.entry s).trans he
  have htag : (t₁.chunkTable s.1).tags s.2 ≠ 0 := (F14Chunk.entry_eq_some.mp he₁).1
  obtain ⟨hs₂, hch⟩ := hs₁.clear hs1 htag
  set t₂ := t₁.modifyChunk s.1 fun c => c.delete s.2 with ht₂
  have hl₂ : t₂.Ledger ahead 0 := by
    have hx := hl₁.change (hr.chunkNum.trans hN) hs1 hch fun c =>
      modifyChunk_field t₁ s.1 _ F14Chunk.overflowCount rfl c
    rw [he₁] at hx
    simp only [Option.elim_some, Option.elim_none, trail_congr hr.chunkNum] at hx
    refine hx.rebalance ?_
    simp
  have hent : t.entries = e ::ₘ t₂.entries :=
    hr.entries.symm.trans (entries_clear hch (mem_slots.mpr hs1) he₁)
  have hsize : t₂.size = t₂.entries.card + 1 := by
    rw [show t₂.size = t.size from hr.size, h.size, hent, Multiset.card_cons]
  have hle := h.size_le
  have hfits := h.shape.fits
  rw [userSpace] at hfits
  have hsub : (t₂.size + (2 ^ 64 - 1)) % 2 ^ 64 = t₂.entries.card := by
    have : t₂.size = t.size := hr.size
    rw [show t₂.size + (2 ^ 64 - 1) = t₂.entries.card + 2 ^ 64 by omega, Nat.add_mod_right,
      Nat.mod_eq_of_lt (by omega)]
  refine ⟨{ t₂ with size := t₂.entries.card }, ?_, ?_, ?_, hent⟩
  · rw [delete, h.getInternal_of_mem hs he]
    simp only [h.shape.decPath_eq e.first hs]
    rw [← ht₁, ← ht₂, hsub]
  · refine ⟨⟨hs₂.pow, hs₂.fits, hs₂.capacity, hs₂.sound⟩, fun p hp => ?_, hl₂, ?_, rfl⟩
    · have := modifyChunk_field t₁ s.1 (fun c => c.delete s.2) F14Chunk.isMigrating rfl p
      exact this.trans ((hr.migrating p).trans (h.calm p (hr.chunkNum ▸ hp)))
    · have := h.nodup
      rw [NodupKeys, hent, Multiset.map_cons] at this
      exact (Multiset.nodup_cons.mp this).2
  · refine ⟨⟨hch.chunkNum.trans hr.chunkNum, hch.self, fun s' hs' => ?_⟩, hr.capacity, ?_,
      fun p hp => ?_⟩
    · exact (hch.other s' hs').trans (hr.entry s')
    · have : (t₂.chunkTable s.1).size = (t₁.chunkTable s.1).size - 1 := by
        rw [ht₂, modifyChunk_self]; exact (hs₁.sound s.1 hs1).size_delete htag
      exact this.trans (by rw [hr.chunkSize])
    · have : (t₂.chunkTable p).size = (t₁.chunkTable p).size := by
        rw [ht₂, modifyChunk_of_ne _ _ _ hp]
      exact this.trans (hr.chunkSize p)

theorem Good.delete_of_notMem {t : PetHash V} {ahead : Multiset ℕ} (h : t.Good ahead)
    {key : UInt64} (habs : ∀ v, ⟨key, v⟩ ∉ t.entries) : t.delete key = .ok t := by
  rw [delete, h.getInternal_of_notMem habs]

end PetHash

end PetPS

import PetPS.PetHash.Slots

/-!
# Well-formed tables and the steps between them

`F14Chunk.Sound` says that a chunk's tags, empty keys and element count agree with each other;
`Shape` says it of every chunk, and that the table is one `Initialize` could have set up. Each
store the code makes keeps the shape and changes at most one slot or one counter. Those steps are
collected here once, so that `Insert`, `Delete` and the migration only chain them.

## Main results

* `Shape.put`, `Shape.clear`, `Shape.setValue` — one slot changes
* `Ledger.incAt`, `Ledger.decAt` — one counter changes
* `decAll_spec` — the decrements along a trail
-/

namespace PetPS

variable {V : Type}

/-! ### Tags are never zero -/

theorem PetHash.sign_ne_zero (h : UInt64) : PetHash.sign h ≠ 0 := by
  intro h0
  have hz : (PetHash.crc32U64 h.toNat >>> 24 ||| 0x80) &&& 0xff = 0 := by
    have hlt : (PetHash.crc32U64 h.toNat >>> 24 ||| 0x80) &&& 0xff < 2 ^ 8 :=
      lt_of_le_of_lt Nat.and_le_right (by omega)
    have := congrArg UInt8.toNat h0
    rw [PetHash.sign, UInt8.toNat_ofNat', Nat.mod_eq_of_lt hlt] at this
    exact this
  have hbit := congrArg (fun n => n.testBit 7) hz
  simp only [Nat.testBit_and, Nat.testBit_or, show Nat.testBit 0x80 7 = true from rfl,
    show Nat.testBit 0xff 7 = true from rfl, Nat.zero_testBit] at hbit
  simp at hbit

theorem PetHash.tagOf_ne_zero (key : UInt64) : PetHash.tagOf key ≠ 0 := PetHash.sign_ne_zero _

namespace F14Chunk

open PetHash (tagOf tagOf_ne_zero)

/-- A chunk whose bookkeeping agrees with its slots. -/
structure Sound (c : F14Chunk V) : Prop where
  /-- The tag of a slot in use is the sign of its key. -/
  tag : ∀ i, c.tags i ≠ 0 → c.tags i = tagOf (c.value i).first
  /-- An empty slot has the empty key. -/
  empty : ∀ i, c.tags i = 0 → (c.value i).first = emptyKey
  /-- `size_` counts the slots in use. -/
  size : c.size = c.used.card
  /-- The overflow counter is a byte. -/
  count : c.overflowCount ≤ 255

theorem Sound.size_le {c : F14Chunk V} (h : c.Sound) : c.size ≤ 14 := h.size ▸ c.card_used_le

theorem sound_initial [Inhabited V] : (initial : F14Chunk V).Sound where
  tag i hi := absurd rfl hi
  empty _ _ := rfl
  size := by
    have : (initial : F14Chunk V).used = ∅ := by
      ext i; simp [mem_used, initial]
    rw [this]; rfl
  count := Nat.zero_le _

theorem Sound.incOverflow {c : F14Chunk V} (h : c.Sound) : c.incOverflow.Sound :=
  ⟨h.tag, h.empty, h.size, Tally.inc_le h.count⟩

theorem Sound.decOverflow {c : F14Chunk V} (h : c.Sound) : c.decOverflow.Sound :=
  ⟨h.tag, h.empty, h.size, Tally.dec_le h.count⟩

theorem Sound.setMigrating {c : F14Chunk V} (h : c.Sound) (b : Bool) :
    (PetHash.setMigrating b c).Sound :=
  ⟨h.tag, h.empty, h.size, h.count⟩

/-- The tags and empty keys after `Set`, whatever becomes of the element count. -/
theorem Sound.set_tags {c : F14Chunk V} (h : c.Sound) (i : Slot) (key : UInt64) (value : V) :
    (∀ j, (c.set i (tagOf key) ⟨key, value⟩).tags j ≠ 0 →
        (c.set i (tagOf key) ⟨key, value⟩).tags j
          = tagOf ((c.set i (tagOf key) ⟨key, value⟩).value j).first) ∧
      ∀ j, (c.set i (tagOf key) ⟨key, value⟩).tags j = 0 →
        ((c.set i (tagOf key) ⟨key, value⟩).value j).first = emptyKey := by
  refine ⟨fun j hj => ?_, fun j hj => ?_⟩ <;> by_cases hji : j = i
  · subst hji; simp [set]
  · simp only [set, Function.update_of_ne hji] at hj ⊢
    exact h.tag j hj
  · subst hji
    simp only [set, Function.update_self] at hj
    exact absurd hj (tagOf_ne_zero key)
  · simp only [set, Function.update_of_ne hji] at hj ⊢
    exact h.empty j hj

/-- Overwriting a slot in use. -/
theorem Sound.set_used {c : F14Chunk V} (h : c.Sound) {i : Slot} (hi : c.tags i ≠ 0)
    (key : UInt64) (value : V) : (c.set i (tagOf key) ⟨key, value⟩).Sound where
  tag := (h.set_tags i key value).1
  empty := (h.set_tags i key value).2
  size := by
    rw [used_set (tagOf_ne_zero key), Finset.insert_eq_of_mem (mem_used.mpr hi)]
    exact h.size
  count := h.count

/-- Filling an empty slot and counting it. -/
theorem Sound.set_empty {c : F14Chunk V} (h : c.Sound) {i : Slot} (hi : c.tags i = 0)
    (key : UInt64) (value : V) :
    (({ c with size := c.size + 1 }).set i (tagOf key) ⟨key, value⟩).Sound where
  tag := (h.set_tags i key value).1
  empty := (h.set_tags i key value).2
  size := by
    rw [used_set (tagOf_ne_zero key)]
    have hni : i ∉ ({ c with size := c.size + 1 } : F14Chunk V).used := by
      rw [mem_used]; exact fun hc => hc hi
    rw [Finset.card_insert_of_notMem hni]
    exact congrArg (· + 1) h.size
  count := h.count

theorem Sound.size_pos {c : F14Chunk V} (h : c.Sound) {i : Slot} (hi : c.tags i ≠ 0) :
    0 < c.size := by
  rw [h.size]; exact Finset.card_pos.mpr ⟨i, mem_used.mpr hi⟩

theorem Sound.size_delete {c : F14Chunk V} (h : c.Sound) {i : Slot} (hi : c.tags i ≠ 0) :
    (c.delete i).size = c.size - 1 := by
  have h1 := h.size_pos hi
  have h2 := h.size_le
  rw [show (c.delete i).size = (c.size + 255) % 256 from rfl,
    show c.size + 255 = c.size - 1 + 256 by omega, Nat.add_mod_right, Nat.mod_eq_of_lt (by omega)]

theorem Sound.delete {c : F14Chunk V} (h : c.Sound) {i : Slot} (hi : c.tags i ≠ 0) :
    (c.delete i).Sound where
  tag j hj := by
    by_cases hji : j = i
    · subst hji; simp [F14Chunk.delete] at hj
    · simp only [F14Chunk.delete, Function.update_of_ne hji] at hj ⊢
      exact h.tag j hj
  empty j hj := by
    by_cases hji : j = i
    · subst hji; simp [F14Chunk.delete]
    · simp only [F14Chunk.delete, Function.update_of_ne hji] at hj ⊢
      exact h.empty j hj
  size := by
    rw [h.size_delete hi, used_delete, Finset.card_erase_of_mem (mem_used.mpr hi), h.size]
  count := h.count

/-- A full chunk has every slot in use. -/
theorem Sound.inUse_of_full {c : F14Chunk V} (h : c.Sound) (hf : c.size = 14) (i : Slot) :
    c.tags i ≠ 0 := by
  have huniv : c.used = Finset.univ := by
    rw [← Finset.card_eq_iff_eq_univ, Fintype.card_fin, ← h.size, hf]
  exact mem_used.mp (huniv ▸ Finset.mem_univ i)

end F14Chunk

namespace PetHash

/-! ### Updating one chunk -/

section Modify

variable (t : PetHash V) (pos : ℕ) (f : F14Chunk V → F14Chunk V)

@[simp] theorem modifyChunk_chunkNum : (t.modifyChunk pos f).chunkNum = t.chunkNum := rfl

@[simp] theorem modifyChunk_capacity : (t.modifyChunk pos f).capacity = t.capacity := rfl

@[simp] theorem modifyChunk_size : (t.modifyChunk pos f).size = t.size := rfl

@[simp] theorem modifyChunk_self : (t.modifyChunk pos f).chunkTable pos = f (t.chunkTable pos) := by
  simp [modifyChunk]

theorem modifyChunk_of_ne {p : ℕ} (h : p ≠ pos) :
    (t.modifyChunk pos f).chunkTable p = t.chunkTable p := by
  simp [modifyChunk, h]

/-- A field that `f` leaves alone is left alone everywhere. -/
theorem modifyChunk_field {β : Type} (g : F14Chunk V → β)
    (hg : g (f (t.chunkTable pos)) = g (t.chunkTable pos)) (p : ℕ) :
    g ((t.modifyChunk pos f).chunkTable p) = g (t.chunkTable p) := by
  by_cases hp : p = pos
  · subst hp; rw [modifyChunk_self, hg]
  · rw [modifyChunk_of_ne _ _ _ hp]

end Modify

/-- Apply `func` at the positions of a list. -/
def modifyAll (t : PetHash V) (ps : List ℕ) (func : ℕ → F14Chunk V → F14Chunk V) : PetHash V :=
  ps.foldl (fun t pos => t.modifyChunk pos (func pos)) t

@[simp] theorem modifyAll_chunkNum (t : PetHash V) (ps : List ℕ)
    (func : ℕ → F14Chunk V → F14Chunk V) : (t.modifyAll ps func).chunkNum = t.chunkNum := by
  induction ps generalizing t with
  | nil => rfl
  | cons p ps ih => exact ih (t.modifyChunk p (func p))

theorem modifyAll_capacity_size (t : PetHash V) (ps : List ℕ)
    (func : ℕ → F14Chunk V → F14Chunk V) :
    (t.modifyAll ps func).capacity = t.capacity ∧ (t.modifyAll ps func).size = t.size := by
  induction ps generalizing t with
  | nil => exact ⟨rfl, rfl⟩
  | cons p ps ih => exact ih (t.modifyChunk p (func p))

/-- The chunks after a traversal that meets no chunk twice. -/
theorem modifyAll_chunkTable {ps : List ℕ} (hnodup : ps.Nodup) (t : PetHash V)
    (func : ℕ → F14Chunk V → F14Chunk V) (q : ℕ) :
    (t.modifyAll ps func).chunkTable q
      = if q ∈ ps then func q (t.chunkTable q) else t.chunkTable q := by
  induction ps generalizing t with
  | nil => rfl
  | cons p ps ih =>
    obtain ⟨hp, hps⟩ := List.nodup_cons.mp hnodup
    have hrest : (t.modifyAll (p :: ps) func).chunkTable q
        = ((t.modifyChunk p (func p)).modifyAll ps func).chunkTable q := rfl
    rw [hrest, ih hps]
    by_cases hq : q = p
    · subst hq
      rw [if_neg hp, if_pos List.mem_cons_self, modifyChunk_self]
    · rw [modifyChunk_of_ne _ _ _ hq]
      simp only [List.mem_cons, hq, false_or]

/-- An update of one slot of one chunk. -/
theorem SlotChange.modifyChunk {t : PetHash V} {pos : ℕ} {f : F14Chunk V → F14Chunk V} {i : Slot}
    {o : Option (EntryT V)} (hself : (f (t.chunkTable pos)).entry i = o)
    (hother : ∀ j, j ≠ i → (f (t.chunkTable pos)).entry j = (t.chunkTable pos).entry j) :
    SlotChange t (t.modifyChunk pos f) (pos, i) o where
  chunkNum := rfl
  self := by rw [slotEntry, modifyChunk_self]; exact hself
  other s hs := by
    obtain ⟨p, j⟩ := s
    by_cases hp : p = pos
    · subst hp
      rw [slotEntry, modifyChunk_self]
      exact hother j fun hj => hs (by rw [hj])
    · rw [slotEntry, slotEntry, modifyChunk_of_ne _ _ _ hp]

/-- An update that keeps every entry of its chunk keeps every entry. -/
theorem slotEntry_modifyChunk {t : PetHash V} {pos : ℕ} {f : F14Chunk V → F14Chunk V}
    (h : ∀ i, (f (t.chunkTable pos)).entry i = (t.chunkTable pos).entry i) (s : ℕ × Slot) :
    (t.modifyChunk pos f).slotEntry s = t.slotEntry s :=
  modifyChunk_field t pos f (fun c => c.entry s.2) (h s.2) s.1

theorem passCount_modifyChunk {t : PetHash V} {pos : ℕ} {f : F14Chunk V → F14Chunk V}
    (h : ∀ i, (f (t.chunkTable pos)).entry i = (t.chunkTable pos).entry i) (c : ℕ) :
    (t.modifyChunk pos f).passCount c = t.passCount c :=
  passCount_congr (modifyChunk_chunkNum t pos f) (slotEntry_modifyChunk h) c

/-! ### The shape of a table -/

/-- A table of sound chunks with the dimensions `Initialize` sets up. -/
structure Shape (t : PetHash V) : Prop where
  /-- The number of chunks is a power of two. -/
  pow : ∃ k, t.chunkNum = 2 ^ k
  /-- The table fits into the address space. -/
  fits : t.chunkNum * 320 ≤ userSpace
  /-- `capacity_` counts the slots. -/
  capacity : t.capacity = t.chunkNum * 14
  /-- Every chunk is sound. -/
  sound : ∀ p < t.chunkNum, (t.chunkTable p).Sound

theorem Shape.chunkNum_pos {t : PetHash V} (h : t.Shape) : 0 < t.chunkNum := by
  obtain ⟨k, hk⟩ := h.pow
  exact hk ▸ Nat.two_pow_pos k

theorem Shape.homeChunk_lt {t : PetHash V} (h : t.Shape) (key : UInt64) :
    t.homeChunk key < t.chunkNum := by
  obtain ⟨k, hk⟩ := h.pow
  exact PetHash.homeChunk_lt hk key

theorem Shape.nextPos_eq {t : PetHash V} (h : t.Shape) (step : ℕ) :
    t.nextPos step = Walk.stride t.chunkNum step := by
  obtain ⟨k, hk⟩ := h.pow
  exact nextPos_eq_stride hk step

theorem Shape.coprime {t : PetHash V} (h : t.Shape) (key : UInt64) :
    t.chunkNum.Coprime (stepOf key) := by
  obtain ⟨k, hk⟩ := h.pow
  exact coprime_stepOf hk key

theorem Shape.modifyChunk {t : PetHash V} (h : t.Shape) {pos : ℕ}
    {f : F14Chunk V → F14Chunk V} (hf : pos < t.chunkNum → (f (t.chunkTable pos)).Sound) :
    (t.modifyChunk pos f).Shape where
  pow := h.pow
  fits := h.fits
  capacity := h.capacity
  sound p hp := by
    by_cases hpp : p = pos
    · subst hpp; rw [modifyChunk_self]; exact hf hp
    · rw [modifyChunk_of_ne _ _ _ hpp]; exact h.sound p hp

/-- The tag of an entry is the sign of its key. -/
theorem Shape.tag_eq {t : PetHash V} (h : t.Shape) {s : ℕ × Slot} {e : EntryT V}
    (hs : s.1 < t.chunkNum) (he : t.slotEntry s = some e) :
    (t.chunkTable s.1).tags s.2 = tagOf e.first ∧ (t.chunkTable s.1).value s.2 = e := by
  obtain ⟨hne, hv⟩ := F14Chunk.entry_eq_some.mp he
  exact ⟨hv ▸ (h.sound s.1 hs).tag s.2 hne, hv⟩

/-- The slots in use are the entries. -/
theorem card_entries_eq_used (t : PetHash V) :
    t.entries.card = ∑ p ∈ Finset.range t.chunkNum, (t.chunkTable p).used.card := by
  rw [card_entries, slotSum, slots, Finset.sum_product]
  refine Finset.sum_congr rfl fun p _ => ?_
  rw [F14Chunk.used, Finset.card_filter]
  refine Finset.sum_congr rfl fun i _ => ?_
  by_cases hi : (t.chunkTable p).tags i = 0
  · rw [show t.slotEntry (p, i) = none from F14Chunk.entry_eq_none.mpr hi]
    simp [F14Chunk.InUse, hi]
  · rw [show t.slotEntry (p, i) = some _ from F14Chunk.entry_eq_some.mpr ⟨hi, rfl⟩]
    simp [F14Chunk.InUse, hi]

/-- The element counts of the chunks add up to the number of entries. -/
theorem Shape.card_entries {t : PetHash V} (h : t.Shape) :
    t.entries.card = ∑ p ∈ Finset.range t.chunkNum, (t.chunkTable p).size := by
  rw [card_entries_eq_used]
  exact Finset.sum_congr rfl fun p hp => (h.sound p (Finset.mem_range.mp hp)).size.symm

theorem Shape.card_entries_le {t : PetHash V} (h : t.Shape) : t.entries.card ≤ t.chunkNum * 14 := by
  rw [h.card_entries]
  have := Finset.sum_le_card_nsmul (Finset.range t.chunkNum) (fun p => (t.chunkTable p).size) 14
    fun p hp => (h.sound p (Finset.mem_range.mp hp)).size_le
  simpa using this

/-- `Full()` does not wrap on a table that fits into memory. -/
theorem Shape.full_iff {t : PetHash V} (h : t.Shape) (hs : t.size ≤ t.chunkNum * 14) :
    t.Full ↔ t.chunkNum * 1260 ≤ t.size * 100 := by
  have hfits := h.fits
  rw [userSpace] at hfits
  rw [Full, h.capacity, Nat.mod_eq_of_lt (by omega), Nat.mod_eq_of_lt (by omega)]
  omega

/-! ### One slot changes -/

/-- `F14Chunk::Insert` into a chunk with room. -/
theorem Shape.put {t : PetHash V} (h : t.Shape) {pos : ℕ} (hp : pos < t.chunkNum)
    (hroom : (t.chunkTable pos).size < 14) (key : UInt64) (value : V) :
    ∃ c i, (t.chunkTable pos).insert key value (tagOf key) = .ok (c, i) ∧
      (t.modifyChunk pos fun _ => c).Shape ∧ t.slotEntry (pos, i) = none ∧
      SlotChange t (t.modifyChunk pos fun _ => c) (pos, i) (some ⟨key, value⟩) ∧
      c.overflowCount = (t.chunkTable pos).overflowCount ∧
      c.isMigrating = (t.chunkTable pos).isMigrating ∧
      c.size = (t.chunkTable pos).size + 1 := by
  have hsound := h.sound pos hp
  obtain ⟨i, hi, hins⟩ := F14Chunk.insert_eq hsound.size hroom key value (tagOf key)
  refine ⟨_, i, hins, h.modifyChunk fun _ => hsound.set_empty hi key value,
    F14Chunk.entry_eq_none.mpr hi, ?_, rfl, rfl, rfl⟩
  refine SlotChange.modifyChunk (F14Chunk.entry_set_self (tagOf_ne_zero key)) fun j hj => ?_
  rw [F14Chunk.entry_set_of_ne _ _ hj]
  rfl

/-- `F14Chunk::Delete` of a slot in use. -/
theorem Shape.clear {t : PetHash V} (h : t.Shape) {pos : ℕ} {i : Slot} (hp : pos < t.chunkNum)
    (hi : (t.chunkTable pos).tags i ≠ 0) :
    (t.modifyChunk pos fun c => c.delete i).Shape ∧
      SlotChange t (t.modifyChunk pos fun c => c.delete i) (pos, i) none :=
  ⟨h.modifyChunk fun _ => (h.sound pos hp).delete hi,
    SlotChange.modifyChunk (F14Chunk.entry_delete_self _ _) fun _ hj =>
      F14Chunk.entry_delete_of_ne hj⟩

/-- `F14Chunk::Set` over a slot in use. -/
theorem Shape.overwrite {t : PetHash V} (h : t.Shape) {pos : ℕ} {i : Slot} (hp : pos < t.chunkNum)
    (hi : (t.chunkTable pos).tags i ≠ 0) (key : UInt64) (value : V) :
    (t.modifyChunk pos fun c => c.set i (tagOf key) ⟨key, value⟩).Shape ∧
      SlotChange t (t.modifyChunk pos fun c => c.set i (tagOf key) ⟨key, value⟩) (pos, i)
        (some ⟨key, value⟩) :=
  ⟨h.modifyChunk fun _ => (h.sound pos hp).set_used hi key value,
    SlotChange.modifyChunk (F14Chunk.entry_set_self (tagOf_ne_zero key)) fun _ hj =>
      F14Chunk.entry_set_of_ne _ _ hj⟩

/-- A store through the value pointer is an overwrite with the same key and tag. -/
theorem Shape.setValue_eq {t : PetHash V} (h : t.Shape) {pos : ℕ} {i : Slot} {e : EntryT V}
    (hp : pos < t.chunkNum) (he : t.slotEntry (pos, i) = some e) (value : V) :
    t.setValue pos i value
      = t.modifyChunk pos fun c => c.set i (tagOf e.first) ⟨e.first, value⟩ := by
  obtain ⟨htag, hval⟩ := h.tag_eq hp he
  have hc : ∀ c : F14Chunk V, c = t.chunkTable pos →
      ({ c with
          value := Function.update c.value i { c.value i with second := value } } : F14Chunk V)
        = c.set i (tagOf e.first) ⟨e.first, value⟩ := by
    rintro c rfl
    rw [F14Chunk.set, ← htag]
    simp only at hval
    rw [hval, Function.update_eq_self]
  rw [setValue, PetHash.modifyChunk, PetHash.modifyChunk, hc _ rfl]

/-! ### One counter changes -/

theorem Ledger.incAt {t : PetHash V} {plus minus : Multiset ℕ} (h : t.Ledger plus minus) (pos : ℕ) :
    (t.modifyChunk pos F14Chunk.incOverflow).Ledger (pos ::ₘ plus) minus := by
  intro c hc
  rw [passCount_modifyChunk fun _ => rfl]
  by_cases hcp : c = pos
  · subst hcp
    rw [modifyChunk_self, Multiset.count_cons_self]
    exact (h c hc).inc
  · rw [modifyChunk_of_ne _ _ _ hcp, Multiset.count_cons_of_ne hcp]
    exact h c hc

theorem Ledger.decAt {t : PetHash V} {plus minus : Multiset ℕ} (h : t.Ledger plus minus)
    (hs : t.Shape) (pos : ℕ) :
    (t.modifyChunk pos F14Chunk.decOverflow).Ledger plus (pos ::ₘ minus) := by
  intro c hc
  rw [passCount_modifyChunk fun _ => rfl]
  by_cases hcp : c = pos
  · subst hcp
    rw [modifyChunk_self, Multiset.count_cons_self]
    exact (h c hc).dec (hs.sound c hc).count
  · rw [modifyChunk_of_ne _ _ _ hcp, Multiset.count_cons_of_ne hcp]
    exact h c hc

theorem Shape.incAt {t : PetHash V} (h : t.Shape) (pos : ℕ) :
    (t.modifyChunk pos F14Chunk.incOverflow).Shape :=
  h.modifyChunk fun hp => (h.sound pos hp).incOverflow

theorem Shape.decAt {t : PetHash V} (h : t.Shape) (pos : ℕ) :
    (t.modifyChunk pos F14Chunk.decOverflow).Shape :=
  h.modifyChunk fun hp => (h.sound pos hp).decOverflow

end PetHash

end PetPS

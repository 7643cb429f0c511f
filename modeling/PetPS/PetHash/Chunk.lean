import Mathlib.Data.Nat.Bits
import Mathlib.Data.Fintype.Card
import Mathlib.Data.Finset.Card
import Mathlib.Logic.Function.Basic
import PetPS.Basic
import PetPS.Lib.BitScan
import PetPS.Lib.Tally

/-!
# `F14Chunk`: fourteen slots behind one line of tags

A chunk of the dictionary (`pet_hash.h`): fourteen tags, fourteen key/value items, an element count
and an 8-bit overflow counter. A slot is in use iff its tag is not `0`; a deleted slot gets tag `0`
and key `-1`.

`MatchTag` compares all tags at once and yields a bit mask; callers scan the mask from the lowest
bit up. `find_eq_find?` replaces the scan by a search over the slots in order, and everything after
this file uses only `find_eq_some`, `find_eq_none_iff` and `insert_eq`.

The chunk's mutex is left out: the functions here are those of one thread, and none of them
reads it. Where threads meet, what is done under a mutex is one step (`ConcurrentSet`).
-/

namespace PetPS

/-- `EntryT<KeyT, ValueT>` at `KeyT = uint64`. -/
structure EntryT (V : Type) where
  /-- The key. -/
  first : UInt64
  /-- The value. -/
  second : V
  deriving DecidableEq, Repr

/-- An index into a chunk. `F14Chunk::kMaxSize` (`PetHash::kChunkSize`) is `14`. -/
abbrev Slot : Type := Fin 14

instance neZeroSlots : NeZero 14 := ⟨by decide⟩

/-- The key field of an empty slot, `KeyT(-1)`. -/
def emptyKey : UInt64 := 0xffffffffffffffff

/-- `F14Chunk<uint64, V>`. -/
structure F14Chunk (V : Type) where
  /-- One tag per slot; `0` marks an empty slot. -/
  tags : Slot → UInt8
  /-- The number of slots in use, a `uint8_t`. -/
  size : ℕ
  /-- The overflow counter, a `uint8_t`. -/
  overflowCount : ℕ
  /-- Set while a migration works on the chunk. -/
  isMigrating : Bool
  /-- The items. -/
  value : Slot → EntryT V

namespace F14Chunk

variable {V : Type}

/-- `MatchTag`: bit `i` of the mask is set iff slot `i` carries `tag`. -/
def matchTag (c : F14Chunk V) (tag : UInt8) : ℕ := Nat.ofBits fun i : Slot => c.tags i == tag

/-- The slot `SparseMaskIter::Next` returns for a mask. -/
def nextSlot (mask : ℕ) : Slot := Fin.ofNat 14 (BitScan.ctz 32 mask)

/-- `Find`: the first slot with this tag and key. -/
def find (c : F14Chunk V) (key : UInt64) (tag : UInt8) : Option (Slot) :=
  (BitScan.findBit 32 (fun i => (c.value (Fin.ofNat 14 i)).first == key) 32
    (c.matchTag tag)).map (Fin.ofNat 14)

/-- `Set`: write an item and its tag. -/
def set (c : F14Chunk V) (i : Slot) (tag : UInt8) (val : EntryT V) : F14Chunk V :=
  { c with value := Function.update c.value i val, tags := Function.update c.tags i tag }

/-- `Insert`: count the new element, then `Set` the first empty slot. -/
def insert (c : F14Chunk V) (key : UInt64) (value : V) (sign : UInt8) :
    Except Abort (F14Chunk V × Slot) :=
  if c.size < 14 then
    let c := { c with size := (c.size + 1) % 256 }
    if c.matchTag 0 ≠ 0 then
      let i := nextSlot (c.matchTag 0)
      .ok (c.set i sign ⟨key, value⟩, i)
    else .error .check
  else .error .check

/-- `IncOverflow`. -/
def incOverflow (c : F14Chunk V) : F14Chunk V :=
  { c with overflowCount := Tally.inc 255 c.overflowCount }

/-- `DecOverflow`. At `0` the `uint8_t` wraps to `255`. -/
def decOverflow (c : F14Chunk V) : F14Chunk V :=
  { c with overflowCount := Tally.dec 255 c.overflowCount }

/-- `Delete`: clear the tag, then the key, then uncount the element. -/
def delete (c : F14Chunk V) (i : Slot) : F14Chunk V :=
  { c with
    tags := Function.update c.tags i 0
    value := Function.update c.value i { c.value i with first := emptyKey }
    size := (c.size + 255) % 256 }

/-- `InUse`. -/
def InUse (c : F14Chunk V) (i : Slot) : Prop := c.tags i ≠ 0

instance (c : F14Chunk V) (i : Slot) : Decidable (c.InUse i) :=
  inferInstanceAs (Decidable (c.tags i ≠ 0))

/-- A chunk of zeroed memory after `Initialize`. -/
def initial [Inhabited V] : F14Chunk V where
  tags _ := 0
  size := 0
  overflowCount := 0
  isMigrating := false
  value _ := ⟨emptyKey, default⟩

/-- The entry in a slot, if the slot is in use. -/
def entry (c : F14Chunk V) (i : Slot) : Option (EntryT V) :=
  if c.tags i = 0 then none else some (c.value i)

theorem entry_eq_some {c : F14Chunk V} {i : Slot} {e : EntryT V} :
    c.entry i = some e ↔ c.tags i ≠ 0 ∧ c.value i = e := by
  unfold entry
  split_ifs with h <;> simp [h]

theorem entry_eq_none {c : F14Chunk V} {i : Slot} : c.entry i = none ↔ c.tags i = 0 := by
  unfold entry
  split_ifs with h <;> simp [h]

/-! ### The tag mask -/

theorem matchTag_lt (c : F14Chunk V) (tag : UInt8) : c.matchTag tag < 2 ^ 14 :=
  Nat.ofBits_lt_two_pow _

theorem testBit_matchTag (c : F14Chunk V) (tag : UInt8) (i : ℕ) :
    (c.matchTag tag).testBit i = true ↔ ∃ h : i < 14, c.tags ⟨i, h⟩ = tag := by
  by_cases hi : i < 14
  · rw [matchTag, Nat.testBit_ofBits_lt _ _ hi]
    simp [hi]
  · rw [matchTag, Nat.testBit_ofBits_ge _ _ (by omega)]
    simp [hi]

theorem matchTag_lt_word (c : F14Chunk V) (tag : UInt8) : c.matchTag tag < 2 ^ 32 :=
  lt_of_lt_of_le (c.matchTag_lt tag) (Nat.pow_le_pow_right (by omega) (by omega))

theorem ofNat_of_lt {i : ℕ} (h : i < 14) : Fin.ofNat 14 i = ⟨i, h⟩ :=
  Fin.ext (Nat.mod_eq_of_lt h)

/-! ### `Find` -/

theorem find_eq_find? (c : F14Chunk V) (key : UInt64) (tag : UInt8) :
    c.find key tag = ((List.range 32).find? fun i => (c.matchTag tag).testBit i &&
      (c.value (Fin.ofNat 14 i)).first == key).map (Fin.ofNat 14) := by
  rw [find, BitScan.findBit_eq_find? (c.matchTag_lt_word tag)]
  intro i _
  omega

theorem find_eq_some {c : F14Chunk V} {key : UInt64} {tag : UInt8} {i : Slot}
    (h : c.find key tag = some i) : c.tags i = tag ∧ (c.value i).first = key := by
  rw [find_eq_find?, Option.map_eq_some_iff] at h
  obtain ⟨k, hk, rfl⟩ := h
  have hboth := List.find?_some hk
  obtain ⟨hbit, hkey⟩ := Bool.and_eq_true_iff.mp hboth
  obtain ⟨hlt, htag⟩ := (c.testBit_matchTag tag k).mp hbit
  rw [ofNat_of_lt hlt] at hkey ⊢
  exact ⟨htag, by simpa using hkey⟩

theorem find_eq_none_iff {c : F14Chunk V} {key : UInt64} {tag : UInt8} :
    c.find key tag = none ↔ ∀ i, ¬ (c.tags i = tag ∧ (c.value i).first = key) := by
  rw [find_eq_find?, Option.map_eq_none_iff, List.find?_eq_none]
  constructor
  · rintro h i ⟨htag, hkey⟩
    refine h i (List.mem_range.mpr (by have := i.isLt; omega)) ?_
    rw [ofNat_of_lt i.isLt, (c.testBit_matchTag tag i).mpr ⟨i.isLt, htag⟩]
    simpa using hkey
  · intro h k _ hk
    obtain ⟨hbit, hkey⟩ := Bool.and_eq_true_iff.mp hk
    obtain ⟨hlt, htag⟩ := (c.testBit_matchTag tag k).mp hbit
    rw [ofNat_of_lt hlt] at hkey
    exact h ⟨k, hlt⟩ ⟨htag, by simpa using hkey⟩

/-! ### `Insert` -/

/-- The slots in use. -/
def used (c : F14Chunk V) : Finset (Slot) := Finset.univ.filter c.InUse

theorem mem_used {c : F14Chunk V} {i : Slot} : i ∈ c.used ↔ c.tags i ≠ 0 := by
  simp [used, InUse]

theorem card_used_le (c : F14Chunk V) : c.used.card ≤ 14 := by
  simpa using Finset.card_le_univ c.used

/-- The slot that `Insert` takes is empty. -/
theorem tags_nextSlot {c : F14Chunk V} (h : c.matchTag 0 ≠ 0) :
    c.tags (nextSlot (c.matchTag 0)) = 0 := by
  have hbit := BitScan.testBit_ctz (c.matchTag_lt_word 0) h
  obtain ⟨hlt, htag⟩ := (c.testBit_matchTag 0 _).mp hbit
  rw [nextSlot, ofNat_of_lt hlt]
  exact htag

/-- A chunk with fewer than fourteen slots in use has an empty one, and `Insert` takes it. -/
theorem insert_eq {c : F14Chunk V} (hc : c.size = c.used.card) (hlt : c.size < 14)
    (key : UInt64) (value : V) (sign : UInt8) :
    ∃ i, c.tags i = 0 ∧
      c.insert key value sign =
        .ok (({ c with size := c.size + 1 }).set i sign ⟨key, value⟩, i) := by
  have hne : c.matchTag 0 ≠ 0 := by
    obtain ⟨i, hi⟩ : ∃ i, i ∉ c.used := by
      by_contra hcon
      push Not at hcon
      have := Finset.card_le_card (fun i _ => hcon i : (Finset.univ : Finset (Slot)) ⊆ c.used)
      rw [Finset.card_univ, Fintype.card_fin] at this
      omega
    intro h0
    have htag : c.tags i = 0 := by simpa [mem_used] using hi
    have := (c.testBit_matchTag 0 i).mpr ⟨i.isLt, htag⟩
    rw [h0, Nat.zero_testBit] at this
    exact absurd this (by simp)
  refine ⟨nextSlot (c.matchTag 0), tags_nextSlot hne, ?_⟩
  have hmod : (c.size + 1) % 256 = c.size + 1 := Nat.mod_eq_of_lt (by omega)
  rw [insert, if_pos hlt, hmod]
  exact if_pos hne

/-! ### What the operations do to the entries -/

theorem entry_set_self {c : F14Chunk V} {i : Slot} {tag : UInt8} {e : EntryT V} (h : tag ≠ 0) :
    (c.set i tag e).entry i = some e := by
  rw [entry_eq_some]
  simp [set, h]

theorem entry_set_of_ne {c : F14Chunk V} {i j : Slot} (tag : UInt8) (e : EntryT V) (h : j ≠ i) :
    (c.set i tag e).entry j = c.entry j := by
  simp [entry, set, h]

theorem entry_delete_self (c : F14Chunk V) (i : Slot) : (c.delete i).entry i = none := by
  rw [entry_eq_none]
  simp [delete]

theorem entry_delete_of_ne {c : F14Chunk V} {i j : Slot} (h : j ≠ i) :
    (c.delete i).entry j = c.entry j := by
  simp [entry, delete, h]

theorem used_set {c : F14Chunk V} {i : Slot} {tag : UInt8} (h : tag ≠ 0) (e : EntryT V) :
    (c.set i tag e).used = Insert.insert i c.used := by
  ext j
  rw [Finset.mem_insert, mem_used, mem_used]
  by_cases hj : j = i
  · subst hj; simp [set, h]
  · simp [set, hj]

theorem used_delete (c : F14Chunk V) (i : Slot) : (c.delete i).used = c.used.erase i := by
  ext j
  rw [Finset.mem_erase, mem_used, mem_used]
  by_cases hj : j = i
  · subst hj; simp [delete]
  · simp [delete, hj]

end F14Chunk

end PetPS

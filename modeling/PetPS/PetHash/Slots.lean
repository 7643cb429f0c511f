import Mathlib.Algebra.BigOperators.Group.Finset.Basic
import Mathlib.Algebra.BigOperators.Group.Finset.Piecewise
import Mathlib.Algebra.BigOperators.Group.Finset.Sigma
import Mathlib.Algebra.Order.BigOperators.Group.Finset
import Mathlib.Data.Finset.Prod
import Mathlib.Data.Multiset.Count
import Mathlib.Data.Nat.Prime.Basic
import Mathlib.Algebra.BigOperators.Group.Multiset.Basic
import PetPS.PetHash.Table

/-!
# What a table contains, and what its counters should say

The abstract reading of a chunk table. A slot holds an entry iff its tag is not `0`; the contents of
the table are the multiset of the entries of its slots, and the count an overflow counter stands for
is the number of entries whose probe path passes over the chunk before reaching their own. Both are
sums over slots (`slotSum`), so both follow one lemma, `slotSum_exchange`: when a single slot
changes, a sum changes by that slot's term.

`Ledger` compares the counters with these counts through `Tally.Tracks`. Its two multisets list the
positions at which increments were made ahead of the entries, and the positions still owed.

## Main definitions

* `slotEntry`, `entries` — the contents
* `Passes`, `passCount` — which entries pass over a chunk
* `Ledger` — the counters agree with `passCount`, up to the positions listed
-/

namespace PetPS

namespace PetHash

variable {V : Type}

/-! ### Slots -/

/-- All slots of the table. -/
def slots (t : PetHash V) : Finset (ℕ × Slot) := Finset.range t.chunkNum ×ˢ Finset.univ

theorem mem_slots {t : PetHash V} {s : ℕ × Slot} : s ∈ t.slots ↔ s.1 < t.chunkNum := by
  simp [slots]

/-- The entry a slot holds. -/
def slotEntry (t : PetHash V) (s : ℕ × Slot) : Option (EntryT V) := (t.chunkTable s.1).entry s.2

/-! ### Sums over slots -/

section SlotSum

variable {M : Type} [AddCommMonoid M]

/-- The sum of `w s e` over the slots `s` that hold an entry `e`. -/
def slotSum (t : PetHash V) (w : ℕ × Slot → EntryT V → M) : M :=
  ∑ s ∈ t.slots, (t.slotEntry s).elim 0 (w s)

/-- `t'` is `t` with the contents of slot `s` replaced by `o`. -/
structure SlotChange (t t' : PetHash V) (s : ℕ × Slot) (o : Option (EntryT V)) : Prop where
  /-- The array is the same. -/
  chunkNum : t'.chunkNum = t.chunkNum
  /-- The slot holds `o`. -/
  self : t'.slotEntry s = o
  /-- Every other slot is as it was. -/
  other : ∀ s', s' ≠ s → t'.slotEntry s' = t.slotEntry s'

theorem slots_congr {t t' : PetHash V} (h : t'.chunkNum = t.chunkNum) : t'.slots = t.slots := by
  simp [slots, h]

/-- **One slot, one term.** -/
theorem slotSum_exchange {t t' : PetHash V} {s : ℕ × Slot} {o : Option (EntryT V)}
    (h : SlotChange t t' s o) (hs : s ∈ t.slots) (w : ℕ × Slot → EntryT V → M) :
    t'.slotSum w + (t.slotEntry s).elim 0 (w s) = t.slotSum w + o.elim 0 (w s) := by
  have hx := Tally.sum_exchange (f := fun x => (t'.slotEntry x).elim 0 (w x))
    (g := fun x => (t.slotEntry x).elim 0 (w x)) hs fun x _ hne => by rw [h.other x hne]
  rw [slotSum, slots_congr h.chunkNum, slotSum]
  simpa [h.self] using hx

/-- Tables that hold the same entries in the same slots have the same sums. -/
theorem slotSum_congr {t t' : PetHash V} (hN : t'.chunkNum = t.chunkNum)
    (h : ∀ s, t'.slotEntry s = t.slotEntry s) (w : ℕ × Slot → EntryT V → M) :
    t'.slotSum w = t.slotSum w := by
  rw [slotSum, slots_congr hN, slotSum]
  exact Finset.sum_congr rfl fun s _ => by rw [h s]

end SlotSum

/-! ### The contents -/

/-- The entries of the table. -/
def entries (t : PetHash V) : Multiset (EntryT V) := t.slotSum fun _ e => {e}

theorem mem_entries {t : PetHash V} {e : EntryT V} :
    e ∈ t.entries ↔ ∃ s, s.1 < t.chunkNum ∧ t.slotEntry s = some e := by
  rw [entries, slotSum, Multiset.mem_sum]
  constructor
  · rintro ⟨s, hs, he⟩
    refine ⟨s, mem_slots.mp hs, ?_⟩
    cases ho : t.slotEntry s with
    | none => rw [ho] at he; simp at he
    | some e' => rw [ho] at he; exact congrArg some (Multiset.mem_singleton.mp he).symm
  · rintro ⟨s, hs, he⟩
    exact ⟨s, mem_slots.mpr hs, by simp [he]⟩

/-- The number of entries. -/
theorem card_entries (t : PetHash V) : t.entries.card = t.slotSum fun _ _ => (1 : ℕ) := by
  rw [entries, slotSum, slotSum, Multiset.card_sum]
  refine Finset.sum_congr rfl fun s _ => ?_
  cases t.slotEntry s <;> simp

theorem entries_put {t t' : PetHash V} {s : ℕ × Slot} {e : EntryT V}
    (h : SlotChange t t' s (some e)) (hs : s ∈ t.slots) (hnone : t.slotEntry s = none) :
    t'.entries = e ::ₘ t.entries := by
  have hx := slotSum_exchange h hs fun _ e => ({e} : Multiset (EntryT V))
  simp only [hnone, Option.elim_none, Option.elim_some, add_zero] at hx
  rw [entries, hx, Multiset.add_comm, Multiset.singleton_add, entries]

theorem entries_clear {t t' : PetHash V} {s : ℕ × Slot} {e : EntryT V}
    (h : SlotChange t t' s none) (hs : s ∈ t.slots) (hsome : t.slotEntry s = some e) :
    t.entries = e ::ₘ t'.entries := by
  have hx := slotSum_exchange h hs fun _ e => ({e} : Multiset (EntryT V))
  simp only [hsome, Option.elim_none, Option.elim_some, add_zero] at hx
  rw [entries, ← hx, Multiset.add_comm, Multiset.singleton_add, entries]

theorem entries_replace {t t' : PetHash V} {s : ℕ × Slot} {e e' : EntryT V}
    (h : SlotChange t t' s (some e')) (hs : s ∈ t.slots) (hsome : t.slotEntry s = some e) :
    e ::ₘ t'.entries = e' ::ₘ t.entries := by
  have hx := slotSum_exchange h hs fun _ e => ({e} : Multiset (EntryT V))
  simp only [hsome, Option.elim_some] at hx
  rw [← Multiset.singleton_add, ← Multiset.singleton_add, Multiset.add_comm, entries, entries, hx,
    Multiset.add_comm]

/-- No key is stored twice. -/
def NodupKeys (t : PetHash V) : Prop := (t.entries.map EntryT.first).Nodup

/-- **A key determines its slot.** Two slots with the same key would count it twice. -/
theorem NodupKeys.slot_unique {t : PetHash V} (h : t.NodupKeys) {s s' : ℕ × Slot}
    {e e' : EntryT V} (hs : s.1 < t.chunkNum) (hs' : s'.1 < t.chunkNum)
    (he : t.slotEntry s = some e) (he' : t.slotEntry s' = some e') (hk : e.first = e'.first) :
    s = s' := by
  by_contra hne
  have hsub : ({s, s'} : Finset (ℕ × Slot)) ⊆ t.slots := by
    intro x hx
    rcases Finset.mem_insert.mp hx with rfl | hx
    · exact mem_slots.mpr hs
    · rw [Finset.mem_singleton.mp hx]; exact mem_slots.mpr hs'
  have hcount : (t.entries.map EntryT.first).count e.first ≤ 1 :=
    Multiset.nodup_iff_count_le_one.mp h _
  have hsum : (t.entries.map EntryT.first).count e.first
      = ∑ x ∈ t.slots, (((t.slotEntry x).elim 0 fun e => ({e} : Multiset (EntryT V))).map
          EntryT.first).count e.first := by
    rw [entries, slotSum, ← Multiset.coe_mapAddMonoidHom, map_sum, Multiset.count_sum']
  have htwo : 2 ≤ ∑ x ∈ ({s, s'} : Finset (ℕ × Slot)),
      (((t.slotEntry x).elim 0 fun e => ({e} : Multiset (EntryT V))).map
        EntryT.first).count e.first := by
    rw [Finset.sum_pair hne, he, he']
    simp [hk]
  have hle := Finset.sum_le_sum_of_subset (f := fun x =>
    (((t.slotEntry x).elim 0 fun e => ({e} : Multiset (EntryT V))).map
      EntryT.first).count e.first) hsub
  omega

theorem NodupKeys.value_unique {t : PetHash V} (h : t.NodupKeys) {key : UInt64} {v w : V}
    (hv : ⟨key, v⟩ ∈ t.entries) (hw : ⟨key, w⟩ ∈ t.entries) : v = w := by
  obtain ⟨s, hs, he⟩ := mem_entries.mp hv
  obtain ⟨s', hs', he'⟩ := mem_entries.mp hw
  obtain rfl := h.slot_unique hs hs' he he' rfl
  simpa using he.symm.trans he'

/-! ### Probe paths -/

/-- A key whose home is `home` and whose entry lies in chunk `pos` passes over chunk `c`: the probe
walk meets `c` before `pos`. -/
def Passes (N : ℕ) (home : ℕ) (key : UInt64) (pos c : ℕ) : Prop :=
  Walk.steps N (stepOf key) home c < Walk.steps N (stepOf key) home pos

instance (N home : ℕ) (key : UInt64) (pos c : ℕ) : Decidable (Passes N home key pos c) :=
  inferInstanceAs (Decidable (_ < _))

/-- The number of stored keys whose probe path passes over chunk `c`. -/
def passCount (t : PetHash V) (c : ℕ) : ℕ :=
  t.slotSum fun s e => if Passes t.chunkNum (t.homeChunk e.first) e.first s.1 c then 1 else 0

/-- The chunks the probe path of `key` passes over on its way to `pos`. -/
def trail (t : PetHash V) (key : UInt64) (pos : ℕ) : List ℕ :=
  Walk.trail t.chunkNum (stepOf key) (t.homeChunk key) pos

theorem homeChunk_congr {t t' : PetHash V} (h : t'.chunkNum = t.chunkNum) (key : UInt64) :
    t'.homeChunk key = t.homeChunk key := by
  rw [homeChunk, homeChunk, h]

theorem trail_congr {t t' : PetHash V} (h : t'.chunkNum = t.chunkNum) (key : UInt64) (pos : ℕ) :
    t'.trail key pos = t.trail key pos := by
  rw [trail, trail, h, homeChunk_congr h]

theorem passCount_congr {t t' : PetHash V} (hN : t'.chunkNum = t.chunkNum)
    (h : ∀ s, t'.slotEntry s = t.slotEntry s) (c : ℕ) : t'.passCount c = t.passCount c := by
  have hw : (fun (s : ℕ × Slot) (e : EntryT V) =>
        if Passes t'.chunkNum (t'.homeChunk e.first) e.first s.1 c then 1 else 0)
      = fun s e => if Passes t.chunkNum (t.homeChunk e.first) e.first s.1 c then 1 else 0 := by
    funext s e
    rw [hN, homeChunk_congr hN]
  rw [passCount, hw, passCount]
  exact slotSum_congr hN h _

theorem odd_probeDelta (k : ℕ) : probeDelta k % 2 = 1 := by
  have h := Nat.testBit_or (k * 2) 1 0
  rw [show k * 2 ||| 1 = probeDelta k from rfl, Nat.testBit_zero, Nat.testBit_zero,
    Nat.testBit_zero] at h
  simpa using h

theorem coprime_probeDelta {N k : ℕ} (hN : N = 2 ^ k) (sign : ℕ) :
    N.Coprime (probeDelta sign) := by
  rw [hN]
  refine Nat.Coprime.pow_left k ?_
  rw [Nat.coprime_two_left, Nat.odd_iff]
  exact odd_probeDelta _

theorem coprime_stepOf {N k : ℕ} (hN : N = 2 ^ k) (key : UInt64) : N.Coprime (stepOf key) :=
  coprime_probeDelta hN _

theorem homeChunk_eq_mod {t : PetHash V} {k : ℕ} (hN : t.chunkNum = 2 ^ k) (key : UInt64) :
    t.homeChunk key = (hash key).toNat % t.chunkNum := by
  rw [homeChunk, hN, Nat.and_two_pow_sub_one_eq_mod]

theorem nextPos_eq_stride {t : PetHash V} {k : ℕ} (hN : t.chunkNum = 2 ^ k) (step : ℕ) :
    t.nextPos step = Walk.stride t.chunkNum step := by
  funext pos
  rw [nextPos, hN, Nat.and_two_pow_sub_one_eq_mod, Walk.stride]

theorem homeChunk_lt {t : PetHash V} {k : ℕ} (hN : t.chunkNum = 2 ^ k) (key : UInt64) :
    t.homeChunk key < t.chunkNum := by
  rw [homeChunk_eq_mod hN]
  exact Nat.mod_lt _ (hN ▸ Nat.two_pow_pos k)

/-- The indicator of `Passes` counts a position in the trail. -/
theorem count_trail {t : PetHash V} {k : ℕ} (hN : t.chunkNum = 2 ^ k) (key : UInt64) {pos c : ℕ}
    (hp : pos < t.chunkNum) (hc : c < t.chunkNum) :
    (t.trail key pos).count c
      = if Passes t.chunkNum (t.homeChunk key) key pos c then 1 else 0 :=
  Walk.count_trail (coprime_stepOf hN key) (homeChunk_lt hN key) hp hc

/-- Putting, clearing or replacing one entry, seen by the path counts. -/
theorem passCount_exchange {t t' : PetHash V} {k : ℕ} (hN : t.chunkNum = 2 ^ k) {s : ℕ × Slot}
    {o : Option (EntryT V)} (h : SlotChange t t' s o) (hs : s.1 < t.chunkNum) {c : ℕ}
    (hc : c < t.chunkNum) :
    t'.passCount c + (t.slotEntry s).elim 0 (fun e => (t.trail e.first s.1).count c)
      = t.passCount c + o.elim 0 (fun e => (t.trail e.first s.1).count c) := by
  have hx := slotSum_exchange h (mem_slots.mpr hs) fun s e =>
    if Passes t.chunkNum (t.homeChunk e.first) e.first s.1 c then 1 else 0
  have hw : (fun (s : ℕ × Slot) (e : EntryT V) =>
        if Passes t'.chunkNum (t'.homeChunk e.first) e.first s.1 c then 1 else 0)
      = fun s e => if Passes t.chunkNum (t.homeChunk e.first) e.first s.1 c then 1 else 0 := by
    funext s e
    rw [h.chunkNum, homeChunk_congr h.chunkNum]
  rw [passCount, hw, passCount]
  simpa only [count_trail hN _ hs hc] using hx

/-! ### The ledger -/

/-- Every overflow counter is stuck at 255 or agrees with `passCount`, once the increments made
ahead (`plus`) and those still owed (`minus`) are accounted for. -/
def Ledger (t : PetHash V) (plus minus : Multiset ℕ) : Prop :=
  ∀ c < t.chunkNum, Tally.Tracks 255 (t.chunkTable c).overflowCount (plus.count c) (minus.count c)
    (t.passCount c)

/-- A change of one slot puts the trail of the old entry ahead and owes the trail of the new one. -/
theorem Ledger.change {t t' : PetHash V} {plus minus : Multiset ℕ} {k : ℕ} {s : ℕ × Slot}
    {o : Option (EntryT V)} (h : t.Ledger plus minus) (hN : t.chunkNum = 2 ^ k)
    (hs : s.1 < t.chunkNum) (hch : SlotChange t t' s o)
    (hcount : ∀ c, (t'.chunkTable c).overflowCount = (t.chunkTable c).overflowCount) :
    t'.Ledger (plus + (t.slotEntry s).elim 0 (fun e => (t.trail e.first s.1 : Multiset ℕ)))
      (minus + o.elim 0 (fun e => (t.trail e.first s.1 : Multiset ℕ))) := by
  intro c hc
  rw [hch.chunkNum] at hc
  have hx := passCount_exchange hN hch hs hc
  have helim : ∀ o : Option (EntryT V),
      (o.elim 0 fun e => (t.trail e.first s.1 : Multiset ℕ)).count c
        = o.elim 0 fun e => (t.trail e.first s.1).count c := by
    intro o
    cases o <;> simp
  rw [hcount, Multiset.count_add, Multiset.count_add, helim, helim]
  exact (h c hc).change hx.symm

/-- A table with the same entries and counters has the same ledger. -/
theorem Ledger.congr {t t' : PetHash V} {plus minus : Multiset ℕ} (h : t.Ledger plus minus)
    (hN : t'.chunkNum = t.chunkNum) (hs : ∀ s, t'.slotEntry s = t.slotEntry s)
    (hcount : ∀ c, (t'.chunkTable c).overflowCount = (t.chunkTable c).overflowCount) :
    t'.Ledger plus minus := by
  intro c hc
  rw [hcount, passCount_congr hN hs]
  exact h c (hN ▸ hc)

/-- Entries on the two sides may be moved as long as the balance is kept. -/
theorem Ledger.rebalance {t : PetHash V} {plus minus plus' minus' : Multiset ℕ}
    (h : t.Ledger plus minus) (hb : plus + minus' = plus' + minus) : t.Ledger plus' minus' := by
  intro c hc
  refine (h c hc).congr ?_
  rw [← Multiset.count_add, hb, Multiset.count_add]

/-- With nothing owed, a chunk that some path passes over has a counter above `0`. -/
theorem Ledger.count_pos {t : PetHash V} {plus : Multiset ℕ} (h : t.Ledger plus 0) {c : ℕ}
    (hc : c < t.chunkNum) (hp : 0 < t.passCount c) : (t.chunkTable c).overflowCount ≠ 0 := by
  rcases h c hc with h | h
  · omega
  · rw [Multiset.count_zero] at h
    omega

end PetHash

end PetPS

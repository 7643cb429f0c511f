import Mathlib.Data.List.Basic
import Mathlib.Data.List.Perm.Subperm
import Mathlib.Data.List.Range
import PetPS.Basic
import PetPS.Lib.Bytes

/-!
# `PersistSimpleMalloc`: slabs handed out in order

`persist_malloc.h`, the allocator of the map engines. A counter moves over `memory_size_` bytes in
steps of one slab, and a call that would reach the end of the memory starts over. The constructor
skips the first slab; `Initialize` does not.

A call starts over one slab too early: the comparison with the end is `>=`, where the check
behind it is `<=`. It hands out slab `0` then, but leaves the counter at `0`, so that the next call
hands it out again. And `GetMallocOffset` does not accept the last slab, for its comparison is
strict.

The counter is a 64-bit one; it stays below `memory_size_` plus one slab and never wraps around.
Pointers are addresses, and `data_` is the address of the first slab.

## Main results

* `Made.new` — what a call returns before the counter has started over twice
* `simpleMalloc_distinct_iff` — `n` calls return distinct slabs, all accepted by
  `GetMallocOffset`, if and only if there are more than `n` slabs
-/

namespace PetPS

/-- `PersistSimpleMalloc`. -/
structure PersistSimpleMalloc where
  /-- `data_`. -/
  data : ℕ
  /-- `memory_size_`. -/
  memorySize : ℕ
  /-- `slab_size_`. -/
  slabSize : ℕ
  /-- `allocated_`. -/
  allocated : ℕ
  /-- `nr_malloc_`. -/
  nrMalloc : ℕ
  /-- `meta_data_block_`: the size of the block in each slab. -/
  metaDataBlock : ℕ → ℕ
  /-- The mapped bytes. -/
  bytes : Bytes.Mem

namespace PersistSimpleMalloc

/-- `Initialize`. -/
def initializeMalloc (m : PersistSimpleMalloc) : PersistSimpleMalloc := { m with allocated := 0 }

/-- The constructor, on a file with the given contents that is mapped at `data`. -/
def construct (data memorySize slabSize : ℕ) (metaDataBlock : ℕ → ℕ) (bytes : Bytes.Mem) :
    PersistSimpleMalloc :=
  let m := initializeMalloc ⟨data, memorySize, slabSize, 0, 0, metaDataBlock, bytes⟩
  { m with allocated := m.allocated + slabSize }

/-- `New`. -/
def new (m : PersistSimpleMalloc) (mallocSize : ℕ) : Except Abort (PersistSimpleMalloc × ℕ) :=
  if mallocSize ≠ m.slabSize then .error .check
  else
    let restarts := m.memorySize ≤ m.allocated + m.slabSize
    let offset := if restarts then 0 else m.allocated
    let allocated := if restarts then 0 else m.allocated + mallocSize
    if m.memorySize < offset + m.slabSize then .error .check
    else
      .ok ({ m with
        allocated
        nrMalloc := m.nrMalloc + 1
        metaDataBlock := Function.update m.metaDataBlock (offset / m.slabSize) mallocSize },
        m.data + offset)

/-- `GetMallocData(offset)`. -/
def getMallocData (m : PersistSimpleMalloc) (offset : ℕ) : ℕ := m.data + offset

/-- `GetMallocSize(offset)`. -/
def getMallocSize (m : PersistSimpleMalloc) (offset : ℕ) : ℕ :=
  m.metaDataBlock (offset / m.slabSize)

/-- `GetMallocOffset`. -/
def getMallocOffset (m : PersistSimpleMalloc) (data : ℕ) : Except Abort ℕ :=
  if m.data ≤ data ∧ data + m.slabSize < m.data + m.memorySize then .ok (data - m.data)
  else .error .check

/-- `memcpy(data, value, ..)`, into a block. -/
def copy (m : PersistSimpleMalloc) (data : ℕ) (value : List UInt8) : PersistSimpleMalloc :=
  { m with bytes := Bytes.store m.bytes data value }

/-- `n` calls of `New(slab_size_)`, and what they return. -/
def newMany (m : PersistSimpleMalloc) : ℕ → Except Abort (PersistSimpleMalloc × List ℕ)
  | 0 => .ok (m, [])
  | n + 1 =>
    match m.newMany n with
    | .error e => .error e
    | .ok (m, ptrs) =>
      match m.new m.slabSize with
      | .error e => .error e
      | .ok (m, ptr) => .ok (m, ptrs ++ [ptr])

/-! ### What a call returns -/

/-- The slab that the call after `k` others returns, of `count` slabs, the counter having started at
slab `start`: the next one, or the first, if the next one is the last. -/
def slabAt (count start k : ℕ) : ℕ := if start + k + 1 < count then start + k else 0

theorem slabAt_lt {count start k : ℕ} (h : k + 1 < count) : slabAt count start k + 1 < count := by
  rw [slabAt]
  split_ifs <;> omega

/-- Before the counter has started over twice, no slab comes back. -/
theorem slabAt_ne {count start k k' : ℕ} (hstart : start ≤ 1) (hk : k < k') (hk' : k' + 1 < count) :
    slabAt count start k ≠ slabAt count start k' := by
  rw [slabAt, slabAt]
  split_ifs <;> omega

/-- The offset of that slab. -/
def offsetAt (slabSize count start k : ℕ) : ℕ := slabAt count start k * slabSize

theorem offsetAt_lt {slabSize count k : ℕ} (start : ℕ) (hpos : 0 < slabSize) (h : k + 1 < count) :
    offsetAt slabSize count start k + slabSize < count * slabSize := by
  rw [offsetAt, ← Nat.succ_mul]
  exact Nat.mul_lt_mul_of_pos_right (slabAt_lt h) hpos

theorem offsetAt_apart (slabSize : ℕ) {count start k k' : ℕ} (hstart : start ≤ 1) (hk : k < k')
    (hk' : k' + 1 < count) :
    offsetAt slabSize count start k + slabSize ≤ offsetAt slabSize count start k' ∨
      offsetAt slabSize count start k' + slabSize ≤ offsetAt slabSize count start k := by
  rw [offsetAt, offsetAt, ← Nat.succ_mul, ← Nat.succ_mul]
  exact (Nat.lt_or_gt_of_ne (slabAt_ne hstart hk hk')).imp (Nat.mul_le_mul_right slabSize)
    (Nat.mul_le_mul_right slabSize)

/-- `n` calls have been made since the counter was at slab `start`. -/
structure Made (m : PersistSimpleMalloc) (count start n : ℕ) : Prop where
  /-- The memory is `count` slabs. -/
  memory : m.memorySize = count * m.slabSize
  pos : 0 < m.slabSize
  start_le : start ≤ 1
  /-- The counter is where it should be, if it has not started over. -/
  allocated : start + n < count → m.allocated = (start + n) * m.slabSize

theorem made_construct (data count : ℕ) {slabSize : ℕ} (hpos : 0 < slabSize) (metaDataBlock : ℕ → ℕ)
    (bytes : Bytes.Mem) :
    (construct data (count * slabSize) slabSize metaDataBlock bytes).Made count 1 0 :=
  ⟨rfl, hpos, le_rfl, fun _ => by simp [construct, initializeMalloc]⟩

theorem made_initializeMalloc {m : PersistSimpleMalloc} {count : ℕ} (hpos : 0 < m.slabSize)
    (hmem : m.memorySize = count * m.slabSize) : m.initializeMalloc.Made count 0 0 :=
  ⟨hmem, hpos, Nat.zero_le 1, fun _ => by simp [initializeMalloc]⟩

/-- What the call after `n` others leaves behind. -/
structure NewAt (m m' : PersistSimpleMalloc) (count start n : ℕ) : Prop where
  made : m'.Made count start (n + 1)
  data : m'.data = m.data
  slabSize : m'.slabSize = m.slabSize
  memorySize : m'.memorySize = m.memorySize
  bytes : m'.bytes = m.bytes
  nrMalloc : m'.nrMalloc = m.nrMalloc + 1
  /-- The size of the block is recorded. -/
  size : m'.getMallocSize (offsetAt m.slabSize count start n) = m.slabSize
  /-- Those of the blocks before are as they were. -/
  sizes : ∀ k < n, m'.getMallocSize (offsetAt m.slabSize count start k)
    = m.getMallocSize (offsetAt m.slabSize count start k)

/-- **`New`**, the call after `n` others. -/
theorem Made.new {m : PersistSimpleMalloc} {count start n : ℕ} (h : m.Made count start n)
    (hn : n + 1 < count) :
    ∃ m', m.new m.slabSize = .ok (m', m.data + offsetAt m.slabSize count start n) ∧
      NewAt m m' count start n := by
  have hstart := h.start_le
  have halloc := h.allocated (by omega)
  have hend : m.allocated + m.slabSize = (start + n + 1) * m.slabSize := by
    rw [halloc, ← Nat.succ_mul]
  have hover : m.memorySize ≤ m.allocated + m.slabSize ↔ count ≤ start + n + 1 := by
    rw [h.memory, hend, Nat.mul_le_mul_right_iff h.pos]
  have hoffset : (if m.memorySize ≤ m.allocated + m.slabSize then 0 else m.allocated)
      = offsetAt m.slabSize count start n := by
    rw [offsetAt, slabAt]
    by_cases hlast : start + n + 1 < count
    · rw [if_neg (mt hover.mp (by omega)), if_pos hlast, halloc]
    · rw [if_pos (hover.mpr (by omega)), if_neg hlast, Nat.zero_mul]
  have hfits : ¬ m.memorySize < offsetAt m.slabSize count start n + m.slabSize := by
    rw [h.memory, not_lt]
    exact (offsetAt_lt start h.pos hn).le
  have hdiv : ∀ k, offsetAt m.slabSize count start k / m.slabSize = slabAt count start k :=
    fun k => Nat.mul_div_cancel _ h.pos
  refine ⟨{ m with
      allocated := if m.memorySize ≤ m.allocated + m.slabSize then 0 else m.allocated + m.slabSize
      nrMalloc := m.nrMalloc + 1
      metaDataBlock := Function.update m.metaDataBlock (slabAt count start n) m.slabSize },
    ?_, ⟨h.memory, h.pos, hstart, fun hlt => ?_⟩, rfl, rfl, rfl, rfl, rfl, ?_, fun k hk => ?_⟩
  · rw [PersistSimpleMalloc.new, if_neg (not_not.mpr rfl)]
    simp only [hoffset, if_neg hfits, hdiv]
  · have hin : ¬ m.memorySize ≤ m.allocated + m.slabSize := mt hover.mp (by omega)
    simp only [if_neg hin]
    rw [hend, Nat.add_assoc]
  · simp only [getMallocSize, hdiv, Function.update_self]
  · simp only [getMallocSize, hdiv, Function.update_of_ne (slabAt_ne hstart hk hn)]

theorem Made.copy {m : PersistSimpleMalloc} {count start n : ℕ}
    (h : m.Made count start n) (data : ℕ)
    (value : List UInt8) : (m.copy data value).Made count start n :=
  ⟨h.memory, h.pos, h.start_le, h.allocated⟩

/-- The block at `offset` holds `value`. -/
structure Holds (m : PersistSimpleMalloc) (offset : ℕ) (value : List UInt8) : Prop where
  size : m.getMallocSize offset = value.length
  bytes : Bytes.load m.bytes (m.data + offset) value.length = value

/-- What is copied into the new block is there. -/
theorem NewAt.holds_self {m m' : PersistSimpleMalloc} {count start n : ℕ}
    (h : NewAt m m' count start n) {value : List UInt8} (hlen : value.length = m.slabSize) :
    (m'.copy (m.data + offsetAt m.slabSize count start n) value).Holds
      (offsetAt m.slabSize count start n) value := by
  refine ⟨h.size.trans hlen.symm, ?_⟩
  rw [PersistSimpleMalloc.copy, h.data]
  exact Bytes.load_store_self

/-- What the blocks before hold stays. -/
theorem NewAt.holds_of_lt {m m' : PersistSimpleMalloc} {count start n k : ℕ}
    (h : NewAt m m' count start n) (hn : n + 1 < count) (hk : k < n) {value value' : List UInt8}
    (hlen : value.length = m.slabSize) (hlen' : value'.length = m.slabSize)
    (hold : m.Holds (offsetAt m.slabSize count start k) value) :
    (m'.copy (m.data + offsetAt m.slabSize count start n) value').Holds
      (offsetAt m.slabSize count start k) value := by
  refine ⟨(h.sizes k hk).trans hold.size, ?_⟩
  have hapart := offsetAt_apart m.slabSize h.made.start_le hk hn
  rw [PersistSimpleMalloc.copy, h.data, h.bytes, Bytes.load_store_of_disjoint (by omega)]
  exact hold.bytes

theorem Made.newMany {m : PersistSimpleMalloc} {count start : ℕ} (h : m.Made count start 0) :
    ∀ n < count, ∃ m', m.newMany n
      = .ok (m', (List.range n).map fun k => m.data + offsetAt m.slabSize count start k) ∧
      m'.Made count start n ∧ m'.data = m.data ∧ m'.slabSize = m.slabSize := by
  intro n
  induction n with
  | zero => exact fun _ => ⟨m, rfl, h, rfl, rfl⟩
  | succ n ih =>
    intro hn
    obtain ⟨m₁, hmany, hmade, hdata, hslab⟩ := ih (by omega)
    obtain ⟨m₂, hnew, hat⟩ := hmade.new hn
    refine ⟨m₂, ?_, hat.made, hat.data.trans hdata, hat.slabSize.trans hslab⟩
    rw [PersistSimpleMalloc.newMany, hmany]
    simp only [hnew]
    rw [List.range_succ, List.map_append, List.map_singleton, hdata, hslab]

/-! ### Distinct slabs -/

/-- The blocks at `ptrs` lie in the memory, do not overlap, and have offsets. -/
structure Distinct (m : PersistSimpleMalloc) (ptrs : List ℕ) : Prop where
  inside : ∀ ptr ∈ ptrs, m.data ≤ ptr ∧ ptr + m.slabSize ≤ m.data + m.memorySize
  disjoint : ptrs.Pairwise fun ptr ptr' => ptr + m.slabSize ≤ ptr' ∨ ptr' + m.slabSize ≤ ptr
  accepted : ∀ ptr ∈ ptrs, m.getMallocOffset ptr = .ok (ptr - m.data)

theorem getMallocOffset_eq_ok {m : PersistSimpleMalloc} {ptr offset : ℕ} :
    m.getMallocOffset ptr = .ok offset ↔
      m.data ≤ ptr ∧ ptr + m.slabSize < m.data + m.memorySize ∧ offset = ptr - m.data := by
  rw [getMallocOffset]
  split_ifs with h
  · simp only [Except.ok.injEq, h, true_and, eq_comm]
  · simp only [false_iff]
    exact fun hok => h ⟨hok.1, hok.2.1⟩

/-- **There is always one slab less.** Blocks that do not overlap and are accepted lie in different
slabs, and the last slab is not accepted. -/
theorem Distinct.length_lt {m : PersistSimpleMalloc} {ptrs : List ℕ} {count : ℕ}
    (h : m.Distinct ptrs) (hcount : 0 < count) (hpos : 0 < m.slabSize)
    (hmem : m.memorySize = count * m.slabSize) : ptrs.length < count := by
  have hnodup : (ptrs.map fun ptr => (ptr - m.data) / m.slabSize).Nodup := by
    rw [List.Nodup, List.pairwise_map]
    refine h.disjoint.imp_of_mem fun {ptr ptr'} hptr hptr' hdis heq => ?_
    have hlo := (h.inside ptr hptr).1
    have hlo' := (h.inside ptr' hptr').1
    have hdiv := Nat.div_add_mod (ptr - m.data) m.slabSize
    have hdiv' := Nat.div_add_mod (ptr' - m.data) m.slabSize
    have hmod := Nat.mod_lt (ptr - m.data) hpos
    have hmod' := Nat.mod_lt (ptr' - m.data) hpos
    rw [heq] at hdiv
    omega
  have hsub : (ptrs.map fun ptr => (ptr - m.data) / m.slabSize) ⊆ List.range (count - 1) := by
    intro q hq
    obtain ⟨ptr, hptr, rfl⟩ := List.mem_map.mp hq
    obtain ⟨hlo, hhi, -⟩ := getMallocOffset_eq_ok.mp (h.accepted ptr hptr)
    rw [List.mem_range, Nat.div_lt_iff_lt_mul hpos, Nat.sub_mul, Nat.one_mul, ← hmem]
    omega
  have hlen := (List.subperm_of_subset hnodup hsub).length_le
  rw [List.length_map, List.length_range] at hlen
  omega

/-- Fewer calls than slabs return distinct slabs. -/
theorem Made.distinct {m : PersistSimpleMalloc} {count start n : ℕ} (h : m.Made count start 0)
    (hn : n < count) :
    m.Distinct ((List.range n).map fun k => m.data + offsetAt m.slabSize count start k) := by
  have hend : ∀ k < n, offsetAt m.slabSize count start k + m.slabSize < m.memorySize :=
    fun k hk => by
    rw [h.memory]
    exact offsetAt_lt start h.pos (by omega)
  have hmem : ∀ ptr ∈ (List.range n).map fun k => m.data + offsetAt m.slabSize count start k,
      ∃ k < n, m.data + offsetAt m.slabSize count start k = ptr := fun ptr hptr => by
    simpa using hptr
  refine ⟨fun ptr hptr => ?_, ?_, fun ptr hptr => ?_⟩
  · obtain ⟨k, hk, rfl⟩ := hmem ptr hptr
    have := hend k hk
    omega
  · rw [List.pairwise_map]
    refine List.pairwise_lt_range.imp_of_mem fun {k k'} _ hk' hlt => ?_
    have hlast : k' + 1 < count := by
      have := List.mem_range.mp hk'
      omega
    rcases offsetAt_apart m.slabSize h.start_le hlt hlast with hle | hle <;> omega
  · obtain ⟨k, hk, rfl⟩ := hmem ptr hptr
    have := hend k hk
    exact getMallocOffset_eq_ok.mpr ⟨by omega, by omega, rfl⟩

theorem newMany_length {m m' : PersistSimpleMalloc} {n : ℕ} {ptrs : List ℕ}
    (h : m.newMany n = .ok (m', ptrs)) : ptrs.length = n := by
  induction n generalizing m' ptrs with
  | zero => cases h; rfl
  | succ n ih =>
    rw [newMany] at h
    cases hmany : m.newMany n with
    | error e => rw [hmany] at h; cases h
    | ok r =>
      obtain ⟨m₁, ptrs₁⟩ := r
      rw [hmany] at h
      simp only at h
      cases hnew : m₁.new m₁.slabSize with
      | error e => rw [hnew] at h; cases h
      | ok r =>
        rw [hnew] at h
        cases h
        rw [List.length_append, ih hmany, List.length_singleton]

theorem Made.distinct_iff {m : PersistSimpleMalloc} {count start : ℕ} (h : m.Made count start 0)
    (hcount : 0 < count) (n : ℕ) :
    (∃ m' ptrs, m.newMany n = .ok (m', ptrs) ∧ m.Distinct ptrs) ↔ n < count := by
  constructor
  · rintro ⟨m', ptrs, hmany, hdis⟩
    rw [← newMany_length hmany]
    exact hdis.length_lt hcount h.pos h.memory
  · intro hn
    obtain ⟨m', hmany, -⟩ := h.newMany n hn
    exact ⟨m', _, hmany, h.distinct hn⟩

/-- **`n` calls return distinct slabs exactly when there are more than `n` slabs**, right after the
construction and after a later `Initialize`. -/
theorem simpleMalloc_distinct_iff {m : PersistSimpleMalloc} {slabSize count : ℕ}
    (hslab : 0 < slabSize) (hcount : 1 ≤ count)
    (hstart : (∃ data metaDataBlock bytes,
        m = construct data (count * slabSize) slabSize metaDataBlock bytes) ∨
      ∃ m₀ : PersistSimpleMalloc, m₀.slabSize = slabSize ∧ m₀.memorySize = count * slabSize ∧
        m = m₀.initializeMalloc) (n : ℕ) :
    (∃ m' ptrs, m.newMany n = .ok (m', ptrs) ∧ m.Distinct ptrs) ↔ n < count := by
  rcases hstart with ⟨data, metaDataBlock, bytes, rfl⟩ | ⟨m₀, rfl, hmem, rfl⟩
  · exact (made_construct data count hslab metaDataBlock bytes).distinct_iff hcount n
  · exact (made_initializeMalloc hslab hmem).distinct_iff hcount n

/-- Three slabs, after the construction: two calls return slabs `1` and `0`. -/
theorem simpleMalloc_distinct_three :
    ∃ m' ptrs, (construct 4096 24 8 (fun _ => 0) fun _ => 0).newMany 2 = .ok (m', ptrs) ∧
      (construct 4096 24 8 (fun _ => 0) fun _ => 0).Distinct ptrs :=
  (simpleMalloc_distinct_iff (by decide : 0 < 8) (by decide : 1 ≤ 3)
    (Or.inl ⟨4096, fun _ => 0, fun _ => 0, rfl⟩) 2).mpr (by decide)

/-- **Two slabs, two calls, one block**: after the construction both calls return slab `0`. -/
theorem simpleMalloc_returns_twice :
    ∃ m', (construct 4096 16 8 (fun _ => 0) fun _ => 0).newMany 2 = .ok (m', [4096, 4096]) ∧
      ¬ (construct 4096 16 8 (fun _ => 0) fun _ => 0).Distinct [4096, 4096] := by
  refine ⟨_, rfl, fun h => ?_⟩
  have hdis := h.disjoint
  simp [construct, initializeMalloc] at hdis

end PersistSimpleMalloc

end PetPS

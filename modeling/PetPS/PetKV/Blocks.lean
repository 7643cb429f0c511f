import Mathlib.Data.Multiset.Basic
import PetPS.Memory.PoolRun
import PetPS.PetKV.Model

/-!
# Blocks and their contents

A block *contains* a byte string when its length and the bytes behind it say so and both lie in an
allocated slab. Contents survive whatever happens to other blocks.

The blocks in use are accounted for as a multiset: a part `kept` that is not touched, and the
recycling queue. The freeing loop moves blocks out of the second part only.

## Main results

* `Contains.new`, `contains_new` — allocation and `memcpy`
* `reclaim_spec`, `clearRecycle_spec` — the freeing loops
-/

namespace PetPS

open PersistMemoryPool

/-- The block at `ptr` holds `bytes`. -/
structure Contains (p : PersistMemoryPool) (ptr : ℕ) (bytes : List UInt8) : Prop where
  /-- The bytes fit into an allocated slab. -/
  slab : ∃ c i, p.Allocated c i ∧ ptr = p.entry c i + 8 ∧ 8 + bytes.length ≤ (p.header c).slabSize
  /-- The length is stored in front. -/
  length : Bytes.decode (Bytes.load p.file.bytes (ptr - 8) 4) = bytes.length
  /-- The bytes follow. -/
  bytes : Bytes.load p.file.bytes ptr bytes.length = bytes

/-- The bytes at `ptr`, with their length in front. -/
structure Holds (m : Bytes.Mem) (ptr : ℕ) (bytes : List UInt8) : Prop where
  length : Bytes.decode (Bytes.load m (ptr - 8) 4) = bytes.length
  bytes : Bytes.load m ptr bytes.length = bytes

theorem Contains.holds {p : PersistMemoryPool} {ptr : ℕ} {bytes : List UInt8}
    (h : Contains p ptr bytes) : Holds p.file.bytes ptr bytes := ⟨h.length, h.bytes⟩

/-- Contents depend on the slab and its bytes only. -/
theorem Contains.congr {p p' : PersistMemoryPool} {ptr : ℕ} {bytes : List UInt8}
    (h : Contains p ptr bytes) (hext : Extends p p')
    (halloc : ∀ c i, p.Allocated c i → ptr = p.entry c i + 8 → p'.Allocated c i)
    (hbytes : ∀ x, ptr - 8 ≤ x → x < ptr + bytes.length → p'.file.bytes x = p.file.bytes x) :
    Contains p' ptr bytes := by
  obtain ⟨c, i, ha, hptr, hroom⟩ := h.slab
  refine ⟨⟨c, i, halloc c i ha hptr, ?_, ?_⟩, ?_, ?_⟩
  · rw [hext.entry c i ha, hptr]
  · rw [hext.slab c i ha]
    exact hroom
  · rw [Bytes.load_congr fun x hlo hhi => hbytes x hlo (by omega)]
    exact h.length
  · rw [Bytes.load_congr fun x hlo hhi => hbytes x (by omega) hhi]
    exact h.bytes

namespace PersistMemoryPool

theorem metaSize_eq {p : PersistMemoryPool} (hmode : p.perfectFit = false) : p.metaSize = 8 := by
  rw [metaSize, hmode]
  rfl

section New

variable {p p' : PersistMemoryPool} {ptr c i : ℕ} {log : List UInt8}

theorem NewBlock.ptr_eq (h : NewBlock p p' log.length ptr c i) (hmode : p.perfectFit = false) :
    ptr = p'.entry c i + 8 ∧ 8 + log.length ≤ (p'.header c).slabSize := by
  have hmeta := metaSize_eq (h.added.perfectFit.trans hmode)
  have hptr := h.ptr
  have hroom := h.room
  rw [hmeta] at hptr hroom
  exact ⟨hptr, hroom⟩

theorem NewBlock.allocated (h : NewBlock p p' log.length ptr c i) : p'.Allocated c i :=
  (h.added.allocated c i).mpr (Or.inr ⟨rfl, rfl⟩)

theorem NewBlock.bytes_eq (h : NewBlock p p' log.length ptr c i) (hmode : p.perfectFit = false) :
    (p'.storeBytes ptr log).file.bytes = Bytes.store
      (Bytes.store p.file.bytes (p'.entry c i) (Bytes.encode32 log.length)) ptr log := by
  rw [storeBytes, h.bytes, hmode]
  rfl

theorem NewBlock.inv_store (h : NewBlock p p' log.length ptr c i) : (p'.storeBytes ptr log).Inv :=
  h.inv.congr rfl rfl rfl rfl rfl rfl rfl

theorem NewBlock.live_store (h : NewBlock p p' log.length ptr c i) {live : List ℕ}
    (hlive : p.Live live) : (p'.storeBytes ptr log).Live (ptr :: live) :=
  let hnew := hlive.new h
  ⟨hnew.nodup, hnew.mem, hnew.total⟩

end New

end PersistMemoryPool

section New

variable {p p' : PersistMemoryPool} {ptr c i : ℕ} {log : List UInt8}

/-- **The new block** holds what was copied into it. -/
theorem contains_new (h : NewBlock p p' log.length ptr c i) (hmode : p.perfectFit = false) :
    Contains (p'.storeBytes ptr log) ptr log := by
  obtain ⟨hptr, hroom⟩ := h.ptr_eq hmode
  obtain ⟨-, hhi⟩ := (h.inv.usedChunk h.allocated).slab_in_chunk (h.inv.lt_nrEntries h.allocated)
  have hfits := (h.inv.usedChunk h.allocated).fits
  have hle : (p'.header c).slabSize ≤ kChunkSize := by
    have hpos := h.inv.lt_nrEntries h.allocated
    have hmul : 1 * (p'.header c).slabSize ≤ (p'.header c).nrEntries * (p'.header c).slabSize :=
      Nat.mul_le_mul_right _ (by omega)
    omega
  rw [kChunkSize] at hle
  refine ⟨⟨c, i, h.allocated, hptr, hroom⟩, ?_, ?_⟩
  · rw [h.bytes_eq hmode, hptr, Nat.add_sub_cancel,
      Bytes.load_store_of_disjoint (Or.inl (by omega))]
    have hself : Bytes.load (Bytes.store p.file.bytes (p'.entry c i) (Bytes.encode32 log.length))
        (p'.entry c i) 4 = Bytes.encode32 log.length := Bytes.load_store_self
    rw [hself, Bytes.decode_encode32 (by omega)]
  · rw [h.bytes_eq hmode]
    exact Bytes.load_store_self

/-- **The other blocks** are as they were. -/
theorem Contains.new (h : NewBlock p p' log.length ptr c i) (hmode : p.perfectFit = false)
    {ptr' : ℕ} {bytes : List UInt8} (hc : Contains p ptr' bytes) :
    Contains (p'.storeBytes ptr log) ptr' bytes := by
  obtain ⟨hptr, hroom⟩ := h.ptr_eq hmode
  obtain ⟨c', i', ha, hptr', hroom'⟩ := hc.slab
  have hold : ∀ c i, p.Allocated c i → p'.Allocated c i := fun c' i' ha =>
    (h.added.allocated c' i').mpr (Or.inl ha)
  refine hc.congr ⟨⟨h.added.perfectFit, h.added.slabSizes, h.added.nrChunks⟩, h.added.entry,
    h.added.slab⟩ (fun c i ha _ => hold c i ha) fun x hlo hhi => ?_
  have hne : (c', i') ≠ (c, i) := by
    rintro heq
    obtain ⟨rfl, rfl⟩ := Prod.mk.inj heq
    exact h.added.fresh ha
  have hentry := h.added.entry c' i' ha
  have hslab := h.added.slab c' i' ha
  have hstore : ∀ (m : Bytes.Mem) (a : ℕ) (bs : List UInt8), p'.entry c i ≤ a →
      a + bs.length ≤ p'.entry c i + (p'.header c).slabSize → Bytes.store m a bs x = m x :=
    fun m a bs => h.inv.store_apply (hold c' i' ha) h.allocated hne (by omega) (by omega) m
  rw [h.bytes_eq hmode, hstore _ _ _ (by omega) (by omega),
    hstore _ _ _ le_rfl (by rw [Bytes.length_encode32]; omega)]

end New

/-! ### Freeing -/

section Free

variable {p p' : PersistMemoryPool} {c i : ℕ}

/-- The other blocks are as they were. -/
theorem Contains.free (h : Freed p p' c i) {ptr : ℕ} {bytes : List UInt8}
    (hc : Contains p ptr bytes) (hne : ptr ≠ p.entry c i + 8) : Contains p' ptr bytes := by
  refine hc.congr h.removed.toExtends (fun c' i' ha' hptr => ?_) fun x _ _ => by rw [h.bytes]
  refine (h.removed.allocated c' i').mpr ⟨ha', ?_⟩
  rintro ⟨rfl, rfl⟩
  exact hne hptr

/-- A pool with its blocks: those that are kept and those in the queue. -/
structure Account (p : PersistMemoryPool) (kept : Multiset ℕ) (queue : List (ℕ × ℕ)) : Prop where
  /-- The pool is in order. -/
  inv : p.Inv
  /-- Blocks have their lengths in front. -/
  mode : p.perfectFit = false
  /-- The blocks are the allocated slabs. -/
  live : ∃ live : List ℕ, p.Live live ∧ (live : Multiset ℕ) = kept + (queue.map Prod.snd : List ℕ)

/-- What a freeing loop leaves behind. -/
structure Reclaimed (p p' : PersistMemoryPool) (kept : Multiset ℕ) (queue : List (ℕ × ℕ)) : Prop
    extends Account p' kept queue where
  /-- No byte was written. -/
  bytes : p'.file.bytes = p.file.bytes
  /-- The parameters are the same. -/
  layout : SameLayout p p'
  /-- What is kept is as it was. -/
  contains : ∀ ptr ∈ kept, ∀ bs, Contains p ptr bs → Contains p' ptr bs

/-- **The front of the queue is freed.** -/
theorem Account.free_front {kept : Multiset ℕ} {epoch ptr : ℕ} {rest : List (ℕ × ℕ)}
    (h : Account p kept ((epoch, ptr) :: rest)) :
    ∃ p', p.free ptr = (p', true) ∧ Reclaimed p p' kept rest := by
  obtain ⟨live, hlive, hmem⟩ := h.live
  have hnodup : (kept + (((epoch, ptr) :: rest).map Prod.snd : List ℕ)).Nodup := by
    rw [← hmem]
    exact Multiset.coe_nodup.mpr hlive.nodup
  have hin : ptr ∈ live := by
    rw [← Multiset.mem_coe, hmem]
    simp
  obtain ⟨c, i, ha, rfl⟩ := (hlive.mem ptr).mp hin
  obtain ⟨p', hfree, hf⟩ := h.inv.free_block ha
  have hlive' := hlive.free h.inv ha hf
  refine ⟨p', hfree, ⟨⟨hf.inv, hf.removed.perfectFit.trans h.mode, _, hlive', ?_⟩, hf.bytes,
    hf.removed.toSameLayout, fun ptr' hptr' bs hc => ?_⟩⟩
  · rw [← Multiset.coe_erase, hmem, List.map_cons, ← Multiset.cons_coe, Multiset.add_cons,
      Multiset.erase_cons_head]
  · refine hc.free hf fun heq => ?_
    rw [List.map_cons, ← Multiset.cons_coe, Multiset.add_cons, Multiset.nodup_cons] at hnodup
    refine hnodup.1 (Multiset.mem_add.mpr (Or.inl ?_))
    rw [metaSize_eq h.mode, ← heq]
    exact hptr'

theorem Reclaimed.trans {p'' : PersistMemoryPool} {kept : Multiset ℕ} {queue queue' : List (ℕ × ℕ)}
    (h : Reclaimed p p' kept queue) (h' : Reclaimed p' p'' kept queue') :
    Reclaimed p p'' kept queue' :=
  ⟨h'.toAccount, h'.bytes.trans h.bytes, h.layout.trans h'.layout,
    fun ptr hptr bs hc => h'.contains ptr hptr bs (h.contains ptr hptr bs hc)⟩

theorem Account.reclaimed {kept : Multiset ℕ} {queue : List (ℕ × ℕ)} (h : Account p kept queue) :
    Reclaimed p p kept queue :=
  ⟨h, rfl, ⟨rfl, rfl, rfl⟩, fun _ _ _ hc => hc⟩

/-- **The freeing loop of `Recycle`** completes and frees a first part of the queue. -/
theorem reclaim_spec (safe : ℕ → ℕ) : ∀ (queue : List (ℕ × ℕ)) (i : ℕ) {p : PersistMemoryPool}
    {kept : Multiset ℕ}, Account p kept queue →
    ∃ queue' p', reclaim safe i queue p = .ok (queue', p') ∧ Reclaimed p p' kept queue' ∧
      queue' <:+ queue := by
  intro queue
  induction queue with
  | nil => exact fun i p kept h => ⟨[], p, rfl, h.reclaimed, List.suffix_rfl⟩
  | cons front rest ih =>
    intro i p kept h
    obtain ⟨epoch, ptr⟩ := front
    rw [reclaim]
    by_cases hsafe : epoch ≤ safe i
    · obtain ⟨p₁, hfree, h₁⟩ := h.free_front
      obtain ⟨queue', p', hrun, h', hsuf⟩ := ih (i + 1) h₁.toAccount
      rw [if_pos hsafe, hfree]
      exact ⟨queue', p', hrun, h₁.trans h', hsuf.trans (List.suffix_cons _ _)⟩
    · rw [if_neg hsafe]
      exact ⟨_, p, rfl, h.reclaimed, List.suffix_rfl⟩

/-- **`Clear`** frees the whole queue. -/
theorem clearRecycle_spec : ∀ (queue : List (ℕ × ℕ)) {p : PersistMemoryPool} {kept : Multiset ℕ},
    Account p kept queue → ∃ p', clearRecycle queue p = .ok p' ∧ Reclaimed p p' kept [] := by
  intro queue
  induction queue with
  | nil => exact fun h => ⟨_, rfl, h.reclaimed⟩
  | cons front rest ih =>
    intro p kept h
    obtain ⟨epoch, ptr⟩ := front
    obtain ⟨p₁, hfree, h₁⟩ := h.free_front
    obtain ⟨p', hrun, h'⟩ := ih h₁.toAccount
    rw [clearRecycle, hfree]
    exact ⟨p', hrun, h₁.trans h'⟩

end Free

end PetPS

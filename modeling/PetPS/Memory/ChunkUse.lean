import Mathlib.Order.Bounds.Basic
import PetPS.Memory.PoolInv

/-!
# The geometry of a chunk

`Chunk::Use` divides a chunk into slabs. It starts from the quotient of the sizes, rounded down to a
multiple of 64, and gives up 64 slabs at a time until the header with its bitmap fits as well. The
number it ends with is the largest one that fits, since no larger multiple is within the quotient.

`useEntries` computes with natural numbers. The code mixes `int`, `size_t` and `uint64_t`, and
`useInt` is the same loop in these types. A product that does not fit in an `int` has no value, and
the comparison is made modulo `2 ^ 64`. The two agree for every positive `int`, so the loop
ends and its products stay in range.

## Main results

* `le_useLoop`, `useEntries_isGreatest` — the number of slabs is the largest that fits
* `useInt_eq` — the loop in the types of the code
* `chunk_geometry` — where the slabs are
-/

namespace PetPS

namespace PersistMemoryPool

/-! ### The largest number of slabs -/

/-- The loop does not go below a multiple that fits. -/
theorem le_useLoop {slabSize k : ℕ} (hk : k % 64 = 0)
    (hfits : ChunkHeader.headerSize k + k * slabSize ≤ kChunkSize) :
    ∀ fuel nrEntries, nrEntries % 64 = 0 → k ≤ nrEntries → k ≤ useLoop slabSize fuel nrEntries := by
  intro fuel
  induction fuel with
  | zero => exact fun _ _ hle => hle
  | succ fuel ih =>
    intro nrEntries hmod hle
    rw [useLoop]
    split_ifs with hover
    · -- the loop goes on, so this was not the last multiple
      have hne : nrEntries ≠ k := by
        rintro rfl
        exact not_lt.mpr hfits hover
      exact ih _ (by omega) (by omega)
    · exact hle

/-- **No more slabs fit**, in multiples of 64. -/
theorem le_useEntries {slabSize k : ℕ} (hpos : 0 < slabSize) (hk : k % 64 = 0)
    (hfits : ChunkHeader.headerSize k + k * slabSize ≤ kChunkSize) : k ≤ useEntries slabSize := by
  have hdiv : k ≤ kChunkSize / slabSize := by
    rw [Nat.le_div_iff_mul_le hpos]
    exact (Nat.le_add_left _ _).trans hfits
  rw [useEntries]
  exact le_useLoop hk hfits _ _ (by omega) (by omega)

theorem useEntries_isGreatest {slabSize : ℕ} (h : 0 < useEntries slabSize) :
    IsGreatest {n | 0 < n ∧ n % 64 = 0 ∧ ChunkHeader.headerSize n + n * slabSize ≤ kChunkSize}
      (useEntries slabSize) := by
  obtain ⟨hmod, hfits⟩ := useEntries_spec slabSize
  exact ⟨⟨h, hmod, hfits⟩, fun k hk => le_useEntries (slabSize_pos_of_useEntries h) hk.2.1 hk.2.2⟩

theorem useEntries_mul_le (slabSize : ℕ) : useEntries slabSize * slabSize ≤ kChunkSize :=
  (Nat.le_add_left _ _).trans (useEntries_spec slabSize).2

/-! ### Machine arithmetic -/

/-- The product of two `int`s. It has no value if it is not an `int`. -/
def mulInt (a b : ℤ) : Option ℤ := if -2 ^ 31 ≤ a * b ∧ a * b < 2 ^ 31 then some (a * b) else none

/-- `ChunkHeader::HeaderSize(nr_entries)`, a `size_t`, with the check of `BitMap::MemorySize`. -/
def headerSizeInt (nrEntries : ℤ) : Option ℤ :=
  if nrEntries.tmod 64 = 0 then some ((16 + (8 + nrEntries.tdiv 64 * 8)) % 2 ^ 64) else none

/-- The loop of `Use`. It has no value when it has not ended after `fuel` tests. -/
def useLoopInt (slabSize : ℤ) : ℕ → ℤ → Option ℤ
  | 0, _ => none
  | fuel + 1, nrEntries =>
    match headerSizeInt nrEntries, mulInt nrEntries slabSize with
    | some headerSize, some size =>
      if kChunkSize < (headerSize + size) % 2 ^ 64 then useLoopInt slabSize fuel (nrEntries - 64)
      else some nrEntries
    | _, _ => none

/-- `nr_entries` at the end of the loop of `Use`. -/
def useInt (fuel : ℕ) (slabSize : ℤ) : Option ℤ :=
  let nrEntries := kChunkSize / slabSize
  let nrEntries := nrEntries - nrEntries.tmod 64
  useLoopInt slabSize fuel nrEntries

theorem headerSizeInt_eq {nrEntries : ℕ} (hmod : nrEntries % 64 = 0)
    (hle : nrEntries ≤ kChunkSize) :
    headerSizeInt nrEntries = some (ChunkHeader.headerSize nrEntries : ℤ) := by
  have hnonneg : (0 : ℤ) ≤ nrEntries := Int.natCast_nonneg _
  rw [kChunkSize] at hle
  rw [headerSizeInt, Int.tmod_eq_emod_of_nonneg hnonneg, Int.tdiv_eq_ediv_of_nonneg hnonneg,
    if_pos (by omega), ChunkHeader.headerSize, BitMap.memorySize]
  congr 1
  omega

/-- **The loop in the types of the code** is the loop on natural numbers. -/
theorem useLoopInt_eq (slabSize : ℕ) : ∀ fuel nrEntries : ℕ, nrEntries % 64 = 0 →
    nrEntries / 64 < fuel → nrEntries ≤ kChunkSize → nrEntries * slabSize ≤ kChunkSize →
      useLoopInt slabSize fuel nrEntries = some (useLoop slabSize fuel nrEntries : ℤ) := by
  intro fuel
  induction fuel with
  | zero => intro n _ h; omega
  | succ fuel ih =>
    intro n hmod hlt hle hsize
    have hmul : mulInt n slabSize = some ((n * slabSize : ℕ) : ℤ) := by
      rw [kChunkSize] at hsize
      rw [mulInt, ← Nat.cast_mul, if_pos (by omega)]
    have hover : (kChunkSize : ℤ) < ((ChunkHeader.headerSize n : ℤ) + (n * slabSize : ℕ)) % 2 ^ 64 ↔
        kChunkSize < ChunkHeader.headerSize n + n * slabSize := by
      rw [ChunkHeader.headerSize, BitMap.memorySize]
      rw [kChunkSize] at hle hsize ⊢
      omega
    rw [useLoopInt, useLoop, headerSizeInt_eq hmod hle, hmul]
    simp only [hover]
    split_ifs with hbig
    · have hpos : n ≠ 0 := by
        rintro rfl
        rw [ChunkHeader.headerSize, BitMap.memorySize, kChunkSize] at hbig
        omega
      have hmul_le : (n - 64) * slabSize ≤ n * slabSize := Nat.mul_le_mul_right _ (Nat.sub_le _ _)
      rw [show (n : ℤ) - 64 = (n - 64 : ℕ) by omega]
      exact ih (n - 64) (by omega) (by omega) (by omega) (hmul_le.trans hsize)
    · rfl

theorem useInt_eq (slabSize : ℕ) :
    ∃ fuel, useInt fuel slabSize = some (useEntries slabSize : ℤ) := by
  have hdiv : kChunkSize / slabSize * slabSize ≤ kChunkSize := Nat.div_mul_le_self _ _
  have hle : kChunkSize / slabSize ≤ kChunkSize := Nat.div_le_self _ _
  have hmul : (kChunkSize / slabSize - kChunkSize / slabSize % 64) * slabSize
      ≤ kChunkSize / slabSize * slabSize := Nat.mul_le_mul_right _ (Nat.sub_le _ _)
  have hstart : (kChunkSize : ℤ) / slabSize - ((kChunkSize : ℤ) / slabSize).tmod 64
      = ((kChunkSize / slabSize - kChunkSize / slabSize % 64 : ℕ) : ℤ) := by
    rw [← Int.natCast_div]
    generalize kChunkSize / slabSize = q
    rw [Int.tmod_eq_emod_of_nonneg (Int.natCast_nonneg _)]
    omega
  refine ⟨(kChunkSize / slabSize - kChunkSize / slabSize % 64) / 64 + 1, ?_⟩
  rw [useInt, useEntries]
  simp only [hstart]
  exact useLoopInt_eq slabSize _ _ (by omega) (by omega) (by omega) (hmul.trans hdiv)

/-! ### The slabs -/

theorem ones_clearAll_construct (bits : ℕ → BitVec 64) (slabSize : ℕ) :
    (BitMap.construct bits (useEntries slabSize)).clearAll.ones = ∅ :=
  BitMap.ones_construct (useEntries_spec slabSize).1

/-- A chunk as `Use` leaves it is in order. -/
theorem usedChunk_of_use {p : PersistMemoryPool} {c slabSize : ℕ} {bits : ℕ → BitVec 64}
    (hheader : p.header c = ⟨true, slabSize, useEntries slabSize,
      (BitMap.construct bits (useEntries slabSize)).clearAll⟩)
    (hchunk : p.chunks c = ⟨c * kChunkSize + ChunkHeader.headerSize (useEntries slabSize), true, 0⟩)
    (hpos : 0 < useEntries slabSize) : p.UsedChunk c := by
  obtain ⟨halign, hfits⟩ := useEntries_spec slabSize
  refine ⟨?_, ?_, ?_, ?_, ?_, ?_, ?_, ?_⟩ <;> simp only [hheader, hchunk]
  · exact halign
  · exact slabSize_pos_of_useEntries hpos
  · exact hfits
  · rfl
  · rw [ones_clearAll_construct]
    rfl

theorem use_eq_ok {p p' : PersistMemoryPool} {c slabSize : ℕ} (h : p.use c slabSize = .ok p') :
    0 < useEntries slabSize ∧
      p'.header c = ⟨true, slabSize, useEntries slabSize,
        (BitMap.construct (p.header c).bitmap.bits (useEntries slabSize)).clearAll⟩ ∧
      p'.chunks c = ⟨c * kChunkSize + ChunkHeader.headerSize (useEntries slabSize), true, 0⟩ := by
  rw [use] at h
  simp only at h
  split_ifs at h with hpos
  cases h
  exact ⟨hpos, by simp [header, setHeader, setChunk], by simp [setChunk]⟩

theorem use_eq_error {p : PersistMemoryPool} {c slabSize : ℕ} {e : Abort}
    (h : p.use c slabSize = .error e) : useEntries slabSize = 0 := by
  rw [use] at h
  simp only at h
  split_ifs at h with hpos
  exact Nat.eq_zero_of_not_pos hpos

/-- **The geometry of a chunk.** For every positive slab size the loop of `Use`, in the types of the
code, ends with no product out of range. If the check behind it passes, the number of slabs is
the largest positive multiple of 64 that fits with its header; the slabs lie in the chunk behind the
bitmap, and `EntryId` is the inverse of `Entry`. If it fails, not even 64 slabs fit. -/
theorem chunk_geometry {slabSize : ℕ} (hpos : 0 < slabSize) (p : PersistMemoryPool) (c : ℕ) :
    (∃ fuel, useInt fuel slabSize = some (useEntries slabSize : ℤ)) ∧
    (∀ p', p.use c slabSize = .ok p' → (p'.header c).slabSize = slabSize ∧
      IsGreatest {n | 0 < n ∧ n % 64 = 0 ∧ ChunkHeader.headerSize n + n * slabSize ≤ kChunkSize}
        (p'.header c).nrEntries ∧
      (p'.header c).nrEntries * slabSize < 2 ^ 31 ∧
      ∀ i < (p'.header c).nrEntries,
        c * kChunkSize + ChunkHeader.headerSize (p'.header c).nrEntries ≤ p'.entry c i ∧
        p'.entry c i + slabSize ≤ (c + 1) * kChunkSize ∧ p'.entryId c (p'.entry c i) = i) ∧
    (∀ e, p.use c slabSize = .error e →
      kChunkSize < ChunkHeader.headerSize 64 + 64 * slabSize) := by
  refine ⟨useInt_eq slabSize, fun p' hp' => ?_, fun e he => ?_⟩
  · obtain ⟨hentries, hheader, hchunk⟩ := use_eq_ok hp'
    have hused := usedChunk_of_use hheader hchunk hentries
    have hslab : (p'.header c).slabSize = slabSize := by rw [hheader]
    have hnr : (p'.header c).nrEntries = useEntries slabSize := by rw [hheader]
    have hmul := useEntries_mul_le slabSize
    rw [kChunkSize] at hmul
    refine ⟨hslab, hnr ▸ useEntries_isGreatest hentries, by rw [hnr]; omega, fun i hi => ?_⟩
    obtain ⟨hlo, hhi⟩ := hused.slab_in_chunk hi
    exact ⟨hlo, hslab ▸ hhi, hused.entryId_entry i⟩
  · have hzero := use_eq_error he
    refine not_le.mp fun hfits => ?_
    have hle := le_useEntries hpos (by decide) hfits
    omega

/-- Slabs of 1032 bytes: 1984 of them. -/
theorem chunk_geometry_1032 : ∃ p', PersistMemoryPool.use ⟨false, [], 1, PoolFile.zeroed,
      fun _ => ⟨0, false, 0⟩, [], fun _ => none, fun _ => none, 0⟩ 0 1032 = .ok p' ∧
    (p'.header 0).nrEntries = 1984 ∧
    IsGreatest {n | 0 < n ∧ n % 64 = 0 ∧ ChunkHeader.headerSize n + n * 1032 ≤ kChunkSize}
      1984 := by
  have heval : (PersistMemoryPool.use ⟨false, [], 1, PoolFile.zeroed, fun _ => ⟨0, false, 0⟩, [],
      fun _ => none, fun _ => none, 0⟩ 0 1032).toOption.any
        (fun p' => decide ((p'.header 0).nrEntries = 1984)) = true := by
    decide +kernel
  simp only [Option.any_eq_true, decide_eq_true_eq] at heval
  obtain ⟨p', hp', hnr⟩ := heval
  have hgeometry := (chunk_geometry (by decide) _ 0).2.1 p' (eq_ok_of_toOption hp')
  exact ⟨p', eq_ok_of_toOption hp', hnr, hnr ▸ hgeometry.2.1⟩

end PersistMemoryPool

end PetPS

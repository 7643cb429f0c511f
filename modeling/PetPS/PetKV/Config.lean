import Mathlib.Data.Nat.Log
import PetPS.Memory.PoolRun
import PetPS.PetKV.Model

/-!
# The widths of a packed offset

`PetKVData::kConfig` says how the 64 bits of an entry are divided between the offset of the block,
without its last three bits, and the expiry time. It starts with 48 bits of offset. The constructor
of `PetMultiKV` changes it for shards of 32 GiB and more, to the least width that has room for every
offset in a shard of that size.

The offset of all ones stands for no block. A width has room for a shard of `2 ^ i - 1` bytes only
because the last chunk of a shard ends 2 MiB before `2 ^ i`, so that no block has this offset.

`PetKVData` of `Model` is the case of the default configuration. `kExpireReductMark` is read nowhere
and left out.

## Main results

* `Config.roundTrips` — what is stored at a width is read back at that width
* `offset_round_trip` — the constructor's width has room for every block of a shard
-/

namespace PetPS

/-- A `uint64_t` as an `int64_t`. -/
def toInt64 (x : ℕ) : ℤ := if x < 2 ^ 63 then x else x - 2 ^ 64

theorem toInt64_of_lt {x : ℕ} (h : x < 2 ^ 63) : toInt64 x = x := if_pos h

theorem toInt64_inj {x y : ℕ} (hx : x < 2 ^ 64) (hy : y < 2 ^ 64) (h : toInt64 x = toInt64 y) :
    x = y := by
  rw [toInt64, toInt64] at h
  split_ifs at h <;> omega

namespace PetKVData

/-- `PetKVData::Config`. -/
structure Config where
  kExpireReductBit : ℕ
  kExpireBit : ℕ
  kExpireMark : ℕ
  kNoMallocOffset : ℕ
  deriving DecidableEq

namespace Config

/-- The members for `offset_bit`. -/
def width (offsetBit : ℕ) : Config where
  kExpireReductBit := 32 - (64 - offsetBit)
  kExpireBit := 64 - offsetBit
  kExpireMark := 2 ^ (64 - offsetBit) - 1
  kNoMallocOffset := 2 ^ offsetBit - 1

/-- `Config(offset_bit)`, with its check. -/
def ofOffsetBit (offsetBit : ℕ) : Except Abort Config :=
  if offsetBit < 32 then .error .check else .ok (width offsetBit)

/-- `PetKVData::kConfig` when the process starts, `Config(48)`. -/
def default : Config := width 48

/-- `1LL << i`. -/
def oneShiftLeft (i : ℕ) : ℤ := toInt64 (2 ^ i % 2 ^ 64)

/-- The loop of the constructor of `PetMultiKV`: `kConfig` after it. -/
def configure (kConfig : Config) (shardMemory : ℤ) : Except Abort Config :=
  if 2 ^ 35 ≤ shardMemory then
    match (List.range' 36 29).find? fun i => shardMemory < oneShiftLeft i with
    | some i => ofOffsetBit (i - 3)
    | none => .ok kConfig
  else .ok kConfig

/-- `shm_malloc_offset`. -/
def shmMallocOffset (kConfig : Config) (d : PetKVData) : ℤ :=
  let offset := d.dataValue >>> kConfig.kExpireBit
  if offset = kConfig.kNoMallocOffset then -1 else toInt64 (offset * 2 ^ 3 % 2 ^ 64)

/-- `SetShmMallocOffset`. -/
def setShmMallocOffset (kConfig : Config) (d : PetKVData) (shmMallocOffset : ℤ) : PetKVData :=
  let offset : ℤ :=
    if shmMallocOffset = -1 then kConfig.kNoMallocOffset else shmMallocOffset / 2 ^ 3
  ⟨(d.dataValue &&& kConfig.kExpireMark) ||| (offset * 2 ^ kConfig.kExpireBit % 2 ^ 64).toNat⟩

/-- `expire_timet`. -/
def expireTimet (kConfig : Config) (d : PetKVData) : ℕ :=
  (d.dataValue &&& kConfig.kExpireMark) * 2 ^ kConfig.kExpireReductBit % 2 ^ 32

/-! ### The default configuration -/

theorem setShmMallocOffset_default (d : PetKVData) (offset : ℤ) :
    default.setShmMallocOffset d offset = d.setShmMallocOffset offset := rfl

theorem expireTimet_default (d : PetKVData) : default.expireTimet d = d.expireTimet := rfl

theorem shmMallocOffset_default {d : PetKVData} (hd : d.dataValue < 2 ^ 64) :
    default.shmMallocOffset d = d.shmMallocOffset := by
  have hlt : d.dataValue >>> 16 < 2 ^ 48 := by
    rw [Nat.shiftRight_eq_div_pow]
    omega
  have hsigned : toInt64 (d.dataValue >>> 16 * 2 ^ 3 % 2 ^ 64) =
      ((d.dataValue >>> 16 * 2 ^ 3 % 2 ^ 64 : ℕ) : ℤ) := toInt64_of_lt (by omega)
  rw [shmMallocOffset, PetKVData.shmMallocOffset]
  simp only [default, width, PetKVData.kExpireBit, PetKVData.kNoMallocOffset, Nat.reduceSub,
    hsigned]
  rfl

/-! ### Words -/

section Width

variable {w : ℕ}

/-- The two parts of an entry do not overlap. -/
theorem dataValue_or (hw : w ≤ 64) (d : PetKVData) {x : ℕ} (hx : x < 2 ^ w) :
    (d.dataValue &&& (width w).kExpireMark) ||| ((x : ℤ) * 2 ^ (64 - w) % 2 ^ 64).toNat =
      2 ^ (64 - w) * x + d.dataValue % 2 ^ (64 - w) := by
  have hword : ((x : ℤ) * 2 ^ (64 - w) % 2 ^ 64).toNat = 2 ^ (64 - w) * x := by
    have hlt : x * 2 ^ (64 - w) < 2 ^ 64 := by
      calc x * 2 ^ (64 - w) < 2 ^ w * 2 ^ (64 - w) :=
            Nat.mul_lt_mul_of_pos_right hx (Nat.two_pow_pos _)
        _ = 2 ^ 64 := by rw [← pow_add, Nat.add_sub_cancel' hw]
    have hcast : (x : ℤ) * 2 ^ (64 - w) % 2 ^ 64 = ((x * 2 ^ (64 - w) % 2 ^ 64 : ℕ) : ℤ) := by
      push_cast
      rfl
    rw [hcast, Int.toNat_natCast, Nat.mod_eq_of_lt hlt, Nat.mul_comm]
  rw [hword, width, Nat.and_two_pow_sub_one_eq_mod, Nat.or_comm,
    Nat.two_pow_add_eq_or_of_lt (Nat.mod_lt _ (Nat.two_pow_pos _))]

theorem shmMallocOffset_width (w : ℕ) (d : PetKVData) : (width w).shmMallocOffset d =
    if d.dataValue >>> (64 - w) = 2 ^ w - 1 then -1
    else toInt64 (d.dataValue >>> (64 - w) * 2 ^ 3 % 2 ^ 64) := rfl

/-- The upper part of an entry. -/
theorem shiftRight_packed (e x r : ℕ) (hr : r < 2 ^ e) : (2 ^ e * x + r) >>> e = x := by
  rw [Nat.shiftRight_eq_div_pow, Nat.mul_add_div (Nat.two_pow_pos e), Nat.div_eq_of_lt hr,
    Nat.add_zero]

/-- `SetShmMallocOffset` of an aligned offset below `2 ^ (w + 3)`. -/
theorem setShmMallocOffset_width (hw : w ≤ 64) (d : PetKVData) {offset : ℕ}
    (hlt : offset / 8 < 2 ^ w) :
    ((width w).setShmMallocOffset d offset).dataValue =
      2 ^ (64 - w) * (offset / 8) + d.dataValue % 2 ^ (64 - w) := by
  have hne : (offset : ℤ) ≠ -1 := by omega
  have hdiv : (offset : ℤ) / 2 ^ 3 = ((offset / 8 : ℕ) : ℤ) := by omega
  rw [setShmMallocOffset, if_neg hne, hdiv]
  exact dataValue_or hw d hlt

/-- `SetShmMallocOffset(-1)`. -/
theorem setShmMallocOffset_none (hw : w ≤ 64) (d : PetKVData) :
    ((width w).setShmMallocOffset d (-1)).dataValue =
      2 ^ (64 - w) * (2 ^ w - 1) + d.dataValue % 2 ^ (64 - w) := by
  rw [setShmMallocOffset, if_pos rfl]
  exact dataValue_or hw d (Nat.sub_lt (Nat.two_pow_pos w) Nat.one_pos)

end Width

/-- An offset survives packing at this width, as does the absence of one, and the expiry time is
not touched. -/
structure RoundTrips (kConfig : Config) (offset : ℕ) : Prop where
  read : ∀ d, kConfig.shmMallocOffset (kConfig.setShmMallocOffset d offset) = offset
  none : ∀ d, kConfig.shmMallocOffset (kConfig.setShmMallocOffset d (-1)) = -1
  /-- The entry is still a `uint64_t`. -/
  word : ∀ d, ∀ x ∈ [(offset : ℤ), -1], (kConfig.setShmMallocOffset d x).dataValue < 2 ^ 64
  low : ∀ d, ∀ x ∈ [(offset : ℤ), -1], (kConfig.setShmMallocOffset d x).dataValue %
    2 ^ kConfig.kExpireBit = d.dataValue % 2 ^ kConfig.kExpireBit
  expire : ∀ d, ∀ x ∈ [(offset : ℤ), -1],
    kConfig.expireTimet (kConfig.setShmMallocOffset d x) = kConfig.expireTimet d

/-- **What is stored is read back**, for offsets whose word is not the one of all ones. -/
theorem roundTrips {w offset : ℕ} (hw : w ≤ 60) (h8 : offset % 8 = 0)
    (hlt : offset / 8 < 2 ^ w - 1) : (width w).RoundTrips offset := by
  have hw64 : w ≤ 64 := by omega
  have hpow : 2 ^ w ≤ 2 ^ 60 := Nat.pow_le_pow_right Nat.two_pos hw
  have hmod : ∀ d : PetKVData, d.dataValue % 2 ^ (64 - w) < 2 ^ (64 - w) := fun d =>
    Nat.mod_lt _ (Nat.two_pow_pos _)
  -- both stored words have the form of `dataValue_or`
  have hform : ∀ d, ∀ x ∈ [(offset : ℤ), -1], ∃ y < 2 ^ w,
      ((width w).setShmMallocOffset d x).dataValue =
        2 ^ (64 - w) * y + d.dataValue % 2 ^ (64 - w) := by
    intro d x hx
    rcases List.mem_cons.mp hx with rfl | hx
    · exact ⟨_, by omega, setShmMallocOffset_width hw64 d (by omega)⟩
    · rw [List.mem_singleton.mp hx]
      exact ⟨_, Nat.sub_lt (Nat.two_pow_pos w) Nat.one_pos, setShmMallocOffset_none hw64 d⟩
  have hlow : ∀ d, ∀ x ∈ [(offset : ℤ), -1], ((width w).setShmMallocOffset d x).dataValue %
      2 ^ (64 - w) = d.dataValue % 2 ^ (64 - w) := by
    intro d x hx
    obtain ⟨y, -, heq⟩ := hform d x hx
    rw [heq, Nat.mul_add_mod, Nat.mod_mod]
  refine ⟨fun d => ?_, fun d => ?_, fun d x hx => ?_, hlow, fun d x hx => ?_⟩
  · rw [shmMallocOffset_width, setShmMallocOffset_width hw64 d (by omega),
      shiftRight_packed _ _ _ (hmod d), if_neg (by omega), toInt64_of_lt (by omega)]
    omega
  · rw [shmMallocOffset_width, setShmMallocOffset_none hw64 d, shiftRight_packed _ _ _ (hmod d),
      if_pos rfl]
  · obtain ⟨y, hy, heq⟩ := hform d x hx
    rw [heq]
    calc 2 ^ (64 - w) * y + d.dataValue % 2 ^ (64 - w)
        < 2 ^ (64 - w) * y + 2 ^ (64 - w) := Nat.add_lt_add_left (hmod d) _
      _ = 2 ^ (64 - w) * (y + 1) := (Nat.mul_succ _ _).symm
      _ ≤ 2 ^ (64 - w) * 2 ^ w := Nat.mul_le_mul_left _ hy
      _ = 2 ^ 64 := by rw [← pow_add, Nat.sub_add_cancel hw64]
  · rw [expireTimet, expireTimet, width, Nat.and_two_pow_sub_one_eq_mod,
      Nat.and_two_pow_sub_one_eq_mod]
    exact congrArg (fun y => y * _ % _) (hlow d x hx)

/-! ### The constructor -/

theorem oneShiftLeft_of_lt {i : ℕ} (h : i < 63) : oneShiftLeft i = 2 ^ i := by
  have hlt : 2 ^ i < 2 ^ 63 := Nat.pow_lt_pow_right Nat.one_lt_two h
  rw [oneShiftLeft, Nat.mod_eq_of_lt (by omega), toInt64_of_lt hlt]
  push_cast
  rfl

/-- A large shard gets the least width with `shardMemory < 2 ^ (width + 3)`. -/
theorem configure_large (kConfig : Config) {m : ℕ} (hlow : 2 ^ 35 ≤ m) (hhigh : m < 2 ^ 62) :
    kConfig.configure m = .ok (width (Nat.log 2 m - 2)) := by
  have hne : m ≠ 0 := by omega
  have hlog : 35 ≤ Nat.log 2 m := Nat.le_log_of_pow_le Nat.one_lt_two hlow
  have hlog' : Nat.log 2 m < 62 := Nat.log_lt_of_lt_pow hne hhigh
  have hfind : (List.range' 36 29).find? (fun i => decide ((m : ℤ) < oneShiftLeft i)) =
      some (Nat.log 2 m + 1) := by
    rw [List.find?_range'_eq_some]
    refine ⟨?_, ?_, fun j hj hlt => ?_⟩
    · rw [decide_eq_true_eq, oneShiftLeft_of_lt (by omega)]
      exact_mod_cast Nat.lt_pow_succ_log_self Nat.one_lt_two m
    · rw [List.mem_range'_1]
      omega
    · rw [Bool.not_eq_true', decide_eq_false_iff_not, oneShiftLeft_of_lt (by omega), not_lt]
      exact_mod_cast (Nat.pow_le_pow_right Nat.two_pos (by omega)).trans
        (Nat.pow_log_le_self 2 hne)
  rw [configure, if_pos (by exact_mod_cast hlow), hfind]
  simp only [ofOffsetBit]
  rw [if_neg (by omega), show Nat.log 2 m + 1 - 3 = Nat.log 2 m - 2 by omega]

theorem configure_small (kConfig : Config) {m : ℤ} (h : m < 2 ^ 35) :
    kConfig.configure m = .ok kConfig := by
  rw [configure, if_neg (by omega)]

/-- The chunks of a shard end 2 MiB before the next power of two, or earlier. -/
theorem chunks_end_le {m i : ℕ} (hi : 21 ≤ i) (h : m < 2 ^ i) :
    m / kChunkSize * kChunkSize + kChunkSize ≤ 2 ^ i := by
  have hpow : 2 ^ i = 2 ^ (i - 21) * kChunkSize := by
    rw [kChunkSize, show 2 * 1024 * 1024 = 2 ^ 21 by rfl, ← pow_add, Nat.sub_add_cancel hi]
  have hdiv : m / kChunkSize < 2 ^ (i - 21) := by
    rw [Nat.div_lt_iff_lt_mul (by decide), ← hpow]
    exact h
  rw [hpow, ← Nat.succ_mul]
  exact Nat.mul_le_mul_right _ hdiv

/-- The width that the constructor leaves has room for every offset up to the end of the chunks. -/
theorem exists_configure {m : ℕ} (hm : m < 2 ^ 62) : ∃ kConfig, default.configure m = .ok kConfig ∧
    ∀ offset, offset % 8 = 0 → offset ≤ m / kChunkSize * kChunkSize →
      kConfig.RoundTrips offset := by
  by_cases hlarge : 2 ^ 35 ≤ m
  · have hne : m ≠ 0 := by omega
    have hlog : 35 ≤ Nat.log 2 m := Nat.le_log_of_pow_le Nat.one_lt_two hlarge
    have hlog' : Nat.log 2 m < 62 := Nat.log_lt_of_lt_pow hne hm
    refine ⟨_, configure_large default hlarge hm, fun offset h8 hle => ?_⟩
    have hend := chunks_end_le (by omega) (Nat.lt_pow_succ_log_self Nat.one_lt_two m)
    have hpow : 2 ^ (Nat.log 2 m + 1) = 2 ^ (Nat.log 2 m - 2) * 8 := by
      rw [show 8 = 2 ^ 3 by rfl, ← pow_add, show Nat.log 2 m - 2 + 3 = Nat.log 2 m + 1 by omega]
    refine roundTrips (by omega) h8 ?_
    rw [kChunkSize] at hend hle
    omega
  · refine ⟨default, configure_small default (by exact_mod_cast not_le.mp hlarge),
      fun offset h8 hle => roundTrips (by decide) h8 ?_⟩
    have hle' := hle.trans (Nat.div_mul_le_self _ _)
    omega

end Config

end PetKVData

/-- A block that `New` returns starts in the chunks of the pool. -/
theorem PersistMemoryPool.Inv.new_le {p p' : PersistMemoryPool} (h : p.Inv) {memorySize ptr : ℕ}
    (hnew : p.new memorySize = .ok (p', ptr)) : ptr ≤ p.nrChunks * kChunkSize := by
  obtain ⟨c, i, hblock⟩ := h.new hnew
  have halloc : p'.Allocated c i := (hblock.added.allocated c i).mpr (Or.inr ⟨rfl, rfl⟩)
  have hend := ((hblock.inv.usedChunk halloc).slab_in_chunk (hblock.inv.lt_nrEntries halloc)).2
  have hroom := hblock.room
  have hchunk : (c + 1) * kChunkSize ≤ p.nrChunks * kChunkSize :=
    Nat.mul_le_mul_right _ (hblock.added.nrChunks ▸ halloc.1)
  rw [hblock.ptr]
  omega

namespace PetKVData

/-- **Offsets survive packing for every shard size.** The constructor of `PetMultiKV` leaves a
configuration in which every aligned offset up to the end of the chunks of a shard is read back as
it was stored; in particular the offset of every block that a pool of this size returns, after any
calls, and that `GetMallocOffset` accepts. -/
theorem offset_round_trip {shardMemory : ℕ} (hm : shardMemory < 2 ^ 62) :
    ∃ kConfig, Config.default.configure shardMemory = .ok kConfig ∧
      (∀ offset, offset % 8 = 0 → offset ≤ shardMemory / kChunkSize * kChunkSize →
        kConfig.RoundTrips offset) ∧
      ∀ (perfectFit : Bool) (slabSizes : List ℕ) (p₀ p p' : PersistMemoryPool)
        (ops : List PersistMemoryPool.Op) (live : List ℕ) (memorySize ptr : ℕ) (offset : ℤ),
        PersistMemoryPool.create perfectFit shardMemory slabSizes = .ok p₀ →
        Run.run PersistMemoryPool.step (p₀, []) ops = some (p, live) →
        p.new memorySize = .ok (p', ptr) → PersistMemoryPool.getMallocOffset ptr = .ok offset →
        offset = ptr ∧ kConfig.RoundTrips ptr := by
  obtain ⟨kConfig, hconfig, hall⟩ := Config.exists_configure hm
  refine ⟨kConfig, hconfig, hall, fun perfectFit slabSizes p₀ p p' ops live memorySize ptr offset
    hcreate hrun hnew hoffset => ?_⟩
  have hinv : PersistMemoryPool.RunInv (shardMemory / kChunkSize) (p, live) :=
    Run.run_invariant (fun _ _ _ h hs => (h.step hs).1) (PersistMemoryPool.create_runInv hcreate)
      hrun
  rw [PersistMemoryPool.getMallocOffset] at hoffset
  split_ifs at hoffset with h8
  refine ⟨(Except.ok.inj hoffset).symm, hall ptr (by omega) ?_⟩
  rw [← hinv.nrChunks]
  exact hinv.inv.new_le hnew

/-- The largest shard with 33 bits of offset, `2 ^ 36 - 1` bytes: the word of its last offset is
below the one that stands for no block. And the second block of a pool of four chunks. -/
theorem offset_round_trip_last :
    (∃ kConfig, Config.default.configure (2 ^ 36 - 1) = .ok kConfig ∧
      kConfig = Config.width 33 ∧ kConfig.RoundTrips (2 ^ 36 - 2097152)) ∧
    ∃ ptr, PersistMemoryPool.getMallocOffset ptr = .ok ptr ∧ 0 < ptr ∧
      ∃ kConfig, Config.default.configure (4 * kChunkSize : ℕ) = .ok kConfig ∧
        kConfig.RoundTrips ptr := by
  refine ⟨?_, ?_⟩
  · have hm : 2 ^ 36 - 1 < 2 ^ 62 := by decide
    obtain ⟨kConfig, hconfig, hall, -⟩ := offset_round_trip hm
    refine ⟨kConfig, hconfig, ?_, hall _ (by decide) (by decide)⟩
    have heval : Config.default.configure ((2 ^ 36 - 1 : ℕ) : ℤ) = .ok (Config.width 33) := by
      decide +kernel
    exact Except.ok.inj (hconfig.symm.trans heval)
  · have heval : ((PersistMemoryPool.create false (4 * kChunkSize) [40, 72]).toOption.any fun p₀ =>
        (Run.run PersistMemoryPool.step (p₀, []) [.new 30]).any fun s =>
          (s.1.new 60).toOption.any fun r => decide (0 < r.2 ∧ r.2 / 8 * 8 = r.2)) = true := by
      decide +kernel
    simp only [Option.any_eq_true, decide_eq_true_eq] at heval
    obtain ⟨p₀, hcreate, ⟨p, live⟩, hrun, ⟨p', ptr⟩, hnew, hpos, h8⟩ := heval
    have hoffset : PersistMemoryPool.getMallocOffset ptr = .ok (ptr : ℤ) := if_pos h8
    have hm : 4 * kChunkSize < 2 ^ 62 := by decide
    obtain ⟨kConfig, hconfig, -, hblocks⟩ := offset_round_trip hm
    exact ⟨ptr, hoffset, hpos, kConfig, hconfig, (hblocks false _ _ _ _ _ _ _ _ _
      (eq_ok_of_toOption hcreate) hrun (eq_ok_of_toOption hnew) hoffset).2⟩

end PetKVData

end PetPS

import Mathlib.Data.Set.Function
import PetPS.PetHash.Shape

/-!
# Probe paths, forwards and back

The probe step of a key is odd, whatever its sign, and the number of chunks is a power of two. So
the walk from any chunk comes to every other one within `chunk_num_` turns, which is why the loops
`while (pos != chunk_id)` of `Delete` and `Reload` end. `PrevChunk` goes back by one step: its
subtraction may pass below zero, but the number of chunks divides `2 ^ 64`, so the remainder is
right.

The chain of a key is its probe path with the chunk of the key included, in the order in which
`ChainTraverseReverse` comes to it.

## Main results

* `prevChunk_stride` — `PrevChunk` undoes one step
* `chainTraverseReverse_eq` — what `ChainTraverseReverse` does
* `probe_full_cycle` — the probe sequence of every sign is a full cycle, and the loops along it end
-/

namespace PetPS

namespace PetHash

variable {V : Type}

/-! ### Steps -/

theorem probeDelta_lt (sign : UInt8) : probeDelta sign.toNat < 512 := by
  have h := sign.toNat_lt
  exact Nat.or_lt_two_pow (n := 9) (by omega) (by omega)

/-- `PrevChunk` undoes one turn of the walk. -/
theorem prevChunk_stride {t : PetHash V} (hdvd : t.chunkNum ∣ 2 ^ 64) {step q : ℕ}
    (hstep : step ≤ 2 ^ 64) (hq : q < t.chunkNum) :
    t.prevChunk step (Walk.stride t.chunkNum step q) = q := by
  generalize hN : t.chunkNum = N at *
  have hmod : ∀ x, x % 2 ^ 64 % N = x % N := fun x => Nat.mod_mod_of_dvd x hdvd
  set r := Walk.stride N step q with hr
  have hcancel : 2 ^ 64 + r - step ≡ q [MOD N] := by
    refine Nat.ModEq.add_right_cancel' step ?_
    rw [Nat.sub_add_cancel (by omega), hr, Walk.stride]
    calc 2 ^ 64 + (q + step) % N ≡ 0 + (q + step) [MOD N] :=
          Nat.ModEq.add ((Nat.modEq_zero_iff_dvd).mpr hdvd) (Nat.mod_modEq _ _)
      _ = q + step := Nat.zero_add _
  rw [prevChunk, hN, hmod, Nat.add_mod_right, hmod, hcancel, Nat.mod_eq_of_lt hq]

/-- **`ChainTraverseReverse`** applies `func` along the chain. -/
theorem chainTraverseReverse_eq {t : PetHash V} {step home pos : ℕ}
    (hc : t.chunkNum.Coprime step) (hdvd : t.chunkNum ∣ 2 ^ 64) (hstep : step ≤ 2 ^ 64)
    (hhome : home < t.chunkNum) (hp : pos < t.chunkNum) (func : ℕ → F14Chunk V → F14Chunk V) :
    t.chainTraverseReverse home pos step func
      = .ok (t.modifyAll (Walk.chain t.chunkNum step home pos) func) := by
  have hback := Walk.whileNe_back (fun pos t => t.modifyChunk pos (func pos)) t hc hhome hp
    fun q hq => prevChunk_stride hdvd hstep hq
  rw [chainTraverseReverse]
  cases hw : Walk.whileNe (t.prevChunk step) (fun pos t => t.modifyChunk pos (func pos)) home
      t.chunkNum pos t with
  | none => rw [hw] at hback; simp at hback
  | some t' =>
    rw [hw, Option.map_some, Option.some.injEq] at hback
    exact congrArg Except.ok hback

/-! ### The chain of a key -/

/-- The chunks from that of the key back to its home. -/
def chain (t : PetHash V) (key : UInt64) (pos : ℕ) : List ℕ :=
  Walk.chain t.chunkNum (stepOf key) (t.homeChunk key) pos

theorem Shape.chunkNum_dvd {t : PetHash V} (h : t.Shape) : t.chunkNum ∣ 2 ^ 64 := by
  obtain ⟨k, hk⟩ := h.pow
  have hfits := h.fits
  rw [userSpace] at hfits
  rw [hk] at hfits ⊢
  refine pow_dvd_pow 2 (Nat.le_of_lt ?_)
  exact (Nat.pow_lt_pow_iff_right (by omega)).mp (by omega : 2 ^ k < 2 ^ 64)

theorem Shape.prevChunk_stride {t : PetHash V} (h : t.Shape) (key : UInt64) {q : ℕ}
    (hq : q < t.chunkNum) :
    t.prevChunk (stepOf key) (Walk.stride t.chunkNum (stepOf key) q) = q :=
  PetHash.prevChunk_stride h.chunkNum_dvd ((probeDelta_lt _).le.trans (by decide)) hq

theorem Shape.chainTraverseReverse_eq {t : PetHash V} (h : t.Shape) (key : UInt64) {pos : ℕ}
    (hp : pos < t.chunkNum) (func : ℕ → F14Chunk V → F14Chunk V) :
    t.chainTraverseReverse (t.homeChunk key) pos (stepOf key) func
      = .ok (t.modifyAll (t.chain key pos) func) :=
  PetHash.chainTraverseReverse_eq (h.coprime key) h.chunkNum_dvd
    ((probeDelta_lt _).le.trans (by decide)) (h.homeChunk_lt key) hp func

theorem Shape.mem_chain {t : PetHash V} (h : t.Shape) (key : UInt64) {pos q : ℕ}
    (hp : pos < t.chunkNum) (hq : q < t.chunkNum) :
    q ∈ t.chain key pos ↔ q ∈ t.trail key pos ∨ q = pos := by
  have hc := h.coprime key
  rw [chain, Walk.mem_chain hc hp hq, trail, Walk.mem_trail hc (h.homeChunk_lt key) hp hq,
    Nat.le_iff_lt_or_eq]
  refine or_congr_right ⟨fun heq => Walk.steps_injOn hc hq hp heq, fun heq => by rw [heq]⟩

theorem Shape.notMem_trail_self {t : PetHash V} (h : t.Shape) (key : UInt64) {pos : ℕ}
    (hp : pos < t.chunkNum) : pos ∉ t.trail key pos := by
  rw [trail, Walk.mem_trail (h.coprime key) (h.homeChunk_lt key) hp hp]
  exact lt_irrefl _

/-! ### Full cycles -/

/-- **Probe sequences are full cycles and can be walked back.** In a table whose number of chunks is
a power of two, for every sign and every home position: the probe sequence comes to every chunk
exactly once. The loops of `Delete` and `Reload`, here with any body, end from any home for any
chunk. `PrevChunk` undoes a step; and `ChainTraverseReverse` ends, having applied `func` to the
chunks of the probe path from the current one back to the home, to each of them once. -/
theorem probe_full_cycle {t : PetHash V} {k : ℕ} (hk : k < 64) (hN : t.chunkNum = 2 ^ k)
    (sign : UInt8) {home : ℕ} (hhome : home < t.chunkNum) :
    Set.BijOn (fun i => (home + i * probeDelta sign.toNat) % t.chunkNum) (Set.Iio t.chunkNum)
      (Set.Iio t.chunkNum) ∧
    (∀ chunkId < t.chunkNum, (∃ t', t.decPath (probeDelta sign.toNat) home chunkId = some t') ∧
      ∀ {σ : Type} (body : ℕ → σ → σ) (s : σ), ∃ s',
        Walk.whileNe (t.nextPos (probeDelta sign.toNat)) body chunkId t.chunkNum home s
          = some s') ∧
    (∀ pos < t.chunkNum,
      t.prevChunk (probeDelta sign.toNat) (t.nextPos (probeDelta sign.toNat) pos) = pos) ∧
    (∀ current < t.chunkNum, ∃ d < t.chunkNum,
      (home + d * probeDelta sign.toNat) % t.chunkNum = current ∧
      ((List.range (d + 1)).map fun i =>
        (home + (d - i) * probeDelta sign.toNat) % t.chunkNum).Nodup ∧
      ∀ func, t.chainTraverseReverse home current (probeDelta sign.toNat) func =
        .ok (t.modifyAll ((List.range (d + 1)).map fun i =>
          (home + (d - i) * probeDelta sign.toNat) % t.chunkNum) func)) := by
  have hc : t.chunkNum.Coprime (probeDelta sign.toNat) := coprime_probeDelta hN _
  have hpos : 0 < t.chunkNum := by omega
  have hdvd : t.chunkNum ∣ 2 ^ 64 := hN ▸ pow_dvd_pow 2 hk.le
  have hstep : probeDelta sign.toNat ≤ 2 ^ 64 := (probeDelta_lt sign).le.trans (by decide)
  have hnext := nextPos_eq_stride hN (probeDelta sign.toNat)
  have hloop : ∀ chunkId < t.chunkNum, ∀ {σ : Type} (body : ℕ → σ → σ) (s : σ), ∃ s',
      Walk.whileNe (t.nextPos (probeDelta sign.toNat)) body chunkId t.chunkNum home s
        = some s' := fun chunkId hchunk _ body s => by
    rw [hnext]
    exact ⟨_, Walk.whileNe_stride hc hhome hchunk⟩
  refine ⟨⟨fun i _ => Walk.strideAt_lt hpos, fun i hi j hj hij => ?_, fun c hchunk => ?_⟩,
    fun chunkId hchunk => ⟨hloop chunkId hchunk _ _, hloop chunkId hchunk⟩, fun pos hp => ?_,
    fun current hcur => ?_⟩
  · exact Walk.strideAt_injOn hc hi hj hij
  · obtain ⟨i, hi, heq⟩ := Walk.exists_strideAt_eq home hc hchunk
    exact ⟨i, hi, heq⟩
  · rw [hnext]
    exact prevChunk_stride hdvd hstep hp
  · exact ⟨_, Walk.steps_lt home hc hcur, Walk.strideAt_steps home hc hcur,
      Walk.nodup_chain hc hcur, fun func =>
        chainTraverseReverse_eq hc hdvd hstep hhome hcur func⟩

/-- Two chunks, and the sign `200`, whose step `401` is larger than the table. -/
theorem probe_full_cycle_two_chunks :
    (⟨28, 2, 0, fun _ => F14Chunk.initial⟩ : PetHash ℕ).prevChunk 401 0 = 1 ∧
      ∃ t', (⟨28, 2, 0, fun _ => F14Chunk.initial⟩ : PetHash ℕ).decPath 401 0 1 = some t' := by
  have h := probe_full_cycle (t := (⟨28, 2, 0, fun _ => F14Chunk.initial⟩ : PetHash ℕ)) (k := 1)
    (by decide) rfl 200 (Nat.zero_lt_two : 0 < 2)
  exact ⟨h.2.2.1 1 (by decide), (h.2.1 1 (by decide)).1⟩

end PetHash

end PetPS
